/-!
# Blank characters

The Unicode property `White_Space`, and the trimming of a text by it.
-/

namespace KeyRegistry.Text

def isBlank (c : Char) : Bool :=
  let n := c.toNat
  (9 ≤ n && n ≤ 13) || n == 0x20 || n == 0x85 || n == 0xa0 || n == 0x1680 ||
    (0x2000 ≤ n && n ≤ 0x200a) || n == 0x2028 || n == 0x2029 || n == 0x202f ||
    n == 0x205f || n == 0x3000

/-- Core's own class, which knows four blanks only, lies inside the property. -/
theorem isBlank_of_isWhitespace {c : Char} (h : c.isWhitespace = true) : isBlank c = true := by
  simp only [Char.isWhitespace, Bool.or_eq_true, decide_eq_true_eq] at h
  rcases h with ((h | h) | h) | h <;> subst h <;> rfl

def trimLeft (cs : List Char) : List Char :=
  cs.dropWhile isBlank

def hasInk (cs : List Char) : Bool :=
  cs.any fun c => !isBlank c

end KeyRegistry.Text
