/-!
# Classes given by their changes

A class of characters is given by the code points at which membership changes,
in rising order, the first one entering it.
-/

namespace KeyRegistry.Text

/-- Whether an odd number of changes lies at or before the code point. -/
def insideChanges (changes : List Nat) (n : Nat) : Bool :=
  (changes.takeWhile (· ≤ n)).length % 2 == 1

@[simp] theorem insideChanges_nil (n : Nat) : insideChanges [] n = false := rfl

/-- One stretch from a change to the next is inside, its end is not. -/
theorem insideChanges_pair (a b n : Nat) : insideChanges [a, b] n = true ↔ a ≤ n ∧ n < b := by
  by_cases ha : a ≤ n <;> by_cases hb : b ≤ n <;> simp [insideChanges, ha, hb]
  omega

end KeyRegistry.Text
