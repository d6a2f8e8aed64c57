/-!
# Control characters

The general category `Cc` of Unicode: the two blocks of 32 code points at the
start of each half of Latin-1, and the delete character between them.
-/

namespace KeyRegistry.Text

def isControl (c : Char) : Bool :=
  c.toNat < 0x20 || (0x7f ≤ c.toNat && c.toNat ≤ 0x9f)

theorem isControl_iff (c : Char) :
    isControl c = true ↔ c.toNat < 0x20 ∨ (0x7f ≤ c.toNat ∧ c.toNat ≤ 0x9f) := by
  simp [isControl]

end KeyRegistry.Text
