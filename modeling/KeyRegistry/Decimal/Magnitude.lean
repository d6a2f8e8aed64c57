/-!
# Exact magnitudes of floats

The bits of a finite float give a sign and a magnitude `m * 2 ^ q`. Whatever
depends on the exact value, such as its rounding to whole numbers, is computed
from the two numbers.
-/

namespace KeyRegistry.Decimal

/-- The value `significand * 2 ^ exponent`; at a power of two the next value
below is half as far as the next one above. -/
structure Magnitude where
  significand : Nat
  exponent : Int
  narrowBelow : Bool
  deriving DecidableEq, Repr

inductive Reading
  | finite (negative : Bool) (size : Magnitude)
  | infinite (negative : Bool)
  | undefined
  deriving DecidableEq, Repr

def Reading.ofBits (bits : Nat) : Reading :=
  let negative := decide (Nat.pow 2 63 ≤ bits)
  let power : Nat := bits / Nat.pow 2 52 % Nat.pow 2 11
  let fraction := bits % Nat.pow 2 52
  if power = 2047 then (if fraction = 0 then .infinite negative else .undefined)
  else if power = 0 then .finite negative ⟨fraction, -1074, false⟩
  else .finite negative ⟨Nat.pow 2 52 + fraction, (power : Int) - 1075, fraction = 0 ∧ 1 < power⟩

def read (x : Float) : Reading := .ofBits x.toBits.toNat

def isNonzero (x : Float) : Bool :=
  match read x with
  | .finite _ size => size.significand ≠ 0
  | _ => true

/-- The nearest whole number, a half upward. -/
def Magnitude.round (a : Magnitude) : Nat :=
  match a.exponent with
  | .ofNat q => a.significand * Nat.pow 2 q
  | .negSucc q => (a.significand + Nat.pow 2 q) / Nat.pow 2 (q + 1)

/-- The nearest number from zero to `limit`, and zero for an undefined float. -/
def roundWithin (limit : Nat) (x : Float) : Nat :=
  match read x with
  | .finite negative size => if negative then 0 else min limit size.round
  | .infinite negative => if negative then 0 else limit
  | .undefined => 0

theorem roundWithin_le (limit : Nat) (x : Float) : roundWithin limit x ≤ limit := by
  unfold roundWithin
  split
  · split
    · exact Nat.zero_le _
    · exact Nat.min_le_left _ _
  · split
    · exact Nat.zero_le _
    · exact Nat.le_refl _
  · exact Nat.zero_le _

end KeyRegistry.Decimal
