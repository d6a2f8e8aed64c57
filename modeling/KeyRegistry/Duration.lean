import KeyRegistry.Text.Digits

/-!
# Durations

A length of time in nanoseconds, and its text: the value in the largest unit in
which it is at least one, with the exact fraction and no trailing zero.
-/

namespace KeyRegistry

structure Duration where
  nanos : Nat
  deriving DecidableEq, Repr

namespace Duration

def ofMillis (ms : Nat) : Duration := ⟨ms * 1000000⟩

def ofParts (secs nanos : Nat) : Duration := ⟨secs * 1000000000 + nanos⟩

def longest : Duration := ofParts 18446744073709551615 999999999

/-- So many times as long, or the longest duration if that is too long. -/
def times (d : Duration) (k : Nat) : Duration := ⟨min (d.nanos * k) longest.nanos⟩

def secs (d : Duration) : Nat := d.nanos / 1000000000

def subsecNanos (d : Duration) : Nat := d.nanos % 1000000000

def millis (d : Duration) : Nat := d.nanos / 1000000

/-- A value of `10 ^ width` parts to the unit. -/
def inUnit (nanos width : Nat) (unit : String) : String :=
  let whole := toString (nanos / Nat.pow 10 width)
  match Text.dropTrailingZeros (Text.lastDigits width (nanos % Nat.pow 10 width)) with
  | [] => whole ++ unit
  | ds => whole ++ "." ++ String.ofList ds ++ unit

def text (d : Duration) : String :=
  if 1000000000 ≤ d.nanos then inUnit d.nanos 9 "s"
  else if 1000000 ≤ d.nanos then inUnit d.nanos 6 "ms"
  else if 1000 ≤ d.nanos then inUnit d.nanos 3 "µs"
  else inUnit d.nanos 0 "ns"

@[simp] theorem millis_ofMillis (ms : Nat) : (ofMillis ms).millis = ms := by
  simp [ofMillis, millis]

end Duration

end KeyRegistry
