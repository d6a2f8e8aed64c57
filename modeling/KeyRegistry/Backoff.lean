import KeyRegistry.Duration

/-!
# Exponential backoff

The sleep before retry `n` is the base times a random factor below
`2 ^ (n + 1)`, never zero, and never longer than the cap. The exponent stops
growing at the limit on retries, so that the bound fits into 32 bits.
-/

namespace KeyRegistry

def retryLimit : Nat := 29

structure Backoff where
  base : Duration
  maxRetries : Nat
  cap : Duration
  limited : maxRetries ≤ retryLimit

namespace Backoff

def make (base : Duration) (requested : Nat) (cap : Duration) : Backoff :=
  ⟨base, min requested retryLimit, cap, Nat.min_le_right ..⟩

def allowsRetry (b : Backoff) (retries : Nat) : Bool := retries < b.maxRetries

def shift (n : Nat) : Nat := min n retryLimit + 1

def bound (n : Nat) : UInt32 := 1 <<< UInt32.ofNat (shift n)

/-- The sleep before retry `n` when `draw` was drawn below `bound n`. -/
def sleep (b : Backoff) (draw : Nat) : Duration :=
  ⟨min (b.base.times (max draw 1)).nanos b.cap.nanos⟩

/-- Every sleep that some draw before retry `n` leads to, shortest first. -/
def sleeps (b : Backoff) (n : Nat) : List Duration :=
  let top := (bound n).toNat - 1
  if b.base.nanos = 0 then [b.sleep 1]
  else
    let below := min top ((b.cap.nanos - 1) / b.base.nanos)
    (List.range below).map (fun i => b.sleep (i + 1)) ++
      if below < top then [b.cap] else []

@[simp] theorem maxRetries_make (base : Duration) (requested : Nat) (cap : Duration) :
    (make base requested cap).maxRetries = min requested retryLimit := rfl

/-- While the retries made and those left are all that the policy allows together, it allows one
more as long as one is left. -/
theorem allowsRetry_iff {b : Backoff} {retries left : Nat} (h : retries + left = b.maxRetries) :
    b.allowsRetry retries = true ↔ 0 < left := by
  simp only [allowsRetry, decide_eq_true_eq]
  omega

theorem shift_le (n : Nat) : shift n ≤ 30 := by
  simp only [shift, retryLimit]; omega

theorem nanos_sleep_le (b : Backoff) (draw : Nat) : (b.sleep draw).nanos ≤ b.cap.nanos :=
  Nat.min_le_right ..

end Backoff

end KeyRegistry
