import KeyRegistry.Properties

/-!
# The layout of properties text

A logical line is a block of physical lines. Each line of the block but the last ends in an
open backslash, which joins it to the next; the last is closed, unless the text ends there.
`Layout` says which blocks a text falls into: between two blocks stand lines that hold no
entry, blank ones and comments. A line inside a block is never taken for one of these.
-/

namespace KeyRegistry.Properties

def share (raw : List Char) : List Char :=
  if isOpen (Text.trimLeft raw) then (Text.trimLeft raw).dropLast else Text.trimLeft raw

inductive Block : List (List Char) → List (List Char) → Prop
  | last {raw rest} :
      isOpen (Text.trimLeft raw) = false ∨ rest = [] → Block [raw] rest
  | more {raw block rest} :
      isOpen (Text.trimLeft raw) = true → Block block rest → Block (raw :: block) rest

/-- The logical lines of a text whose physical lines count from `n` on. -/
inductive Layout : Nat → List (List Char) → List Logical → Prop
  | done {n} : Layout n [] []
  | skip {n raw rest ls} :
      isSkipped (Text.trimLeft raw) = true → Layout (n + 1) rest ls → Layout n (raw :: rest) ls
  | line {n raw block rest ls} :
      isSkipped (Text.trimLeft raw) = false → Block (raw :: block) rest →
      Layout (n + (raw :: block).length) rest ls →
      Layout n (raw :: block ++ rest) (⟨n, (raw :: block).flatMap share⟩ :: ls)

variable {raw : List Char}

theorem share_of_open (h : isOpen (Text.trimLeft raw) = true) :
    share raw = (Text.trimLeft raw).dropLast := if_pos h

theorem share_of_closed (h : isOpen (Text.trimLeft raw) = false) :
    share raw = Text.trimLeft raw := by
  simp [share, h]

theorem joinLines_skip (h : isSkipped (Text.trimLeft raw) = true) (n : Nat)
    (rest : List (List Char)) :
    joinLines n none (raw :: rest) = joinLines (n + 1) none rest := by
  simp [joinLines, h]

/-- A line that starts an entry is joined like one that continues an empty one. -/
theorem joinLines_start (h : isSkipped (Text.trimLeft raw) = false) (n : Nat)
    (rest : List (List Char)) :
    joinLines n none (raw :: rest) = joinLines n (some ⟨n, []⟩) (raw :: rest) := by
  simp [joinLines, h]

theorem joinLines_open (h : isOpen (Text.trimLeft raw) = true) (n : Nat) (l : Logical)
    (rest : List (List Char)) :
    joinLines n (some l) (raw :: rest) =
      joinLines (n + 1) (some ⟨l.line, l.text ++ share raw⟩) rest := by
  simp [joinLines, h, share_of_open h]

theorem joinLines_closed (h : isOpen (Text.trimLeft raw) = false) (n : Nat) (l : Logical)
    (rest : List (List Char)) :
    joinLines n (some l) (raw :: rest) =
      ⟨l.line, l.text ++ share raw⟩ :: joinLines (n + 1) none rest := by
  simp [joinLines, h, share_of_closed h]

/-- A logical line that is open takes up a whole block. -/
theorem joinLines_block (n : Nat) (l : Logical) (raw : List Char) (physical : List (List Char)) :
    ∃ block rest, physical = block ++ rest ∧ Block (raw :: block) rest ∧
      joinLines n (some l) (raw :: physical) =
        ⟨l.line, l.text ++ (raw :: block).flatMap share⟩ ::
          joinLines (n + (raw :: block).length) none rest := by
  induction physical generalizing n l raw with
  | nil =>
    refine ⟨[], [], rfl, .last (.inr rfl), ?_⟩
    cases h : isOpen (Text.trimLeft raw) with
    | true =>
      rw [joinLines_open h]
      simp [joinLines]
    | false =>
      rw [joinLines_closed h]
      simp
  | cons next physical ih =>
    cases h : isOpen (Text.trimLeft raw) with
    | true =>
      obtain ⟨block, rest, hphysical, hblock, heq⟩ :=
        ih (n + 1) ⟨l.line, l.text ++ share raw⟩ next
      refine ⟨next :: block, rest, by rw [hphysical, List.cons_append], .more h hblock, ?_⟩
      rw [joinLines_open h, heq, List.flatMap_cons (x := raw), ← List.append_assoc,
        List.length_cons (a := raw), Nat.add_assoc, Nat.add_comm 1]
    | false =>
      refine ⟨[], next :: physical, rfl, .last (.inl h), ?_⟩
      rw [joinLines_closed h, List.flatMap_singleton, List.length_singleton]

theorem layout_joinLines (n : Nat) (physical : List (List Char)) :
    Layout n physical (joinLines n none physical) := by
  match physical with
  | [] => exact .done
  | raw :: physical =>
    cases h : isSkipped (Text.trimLeft raw) with
    | true =>
      rw [joinLines_skip h]
      exact .skip h (layout_joinLines (n + 1) physical)
    | false =>
      obtain ⟨block, rest, hphysical, hblock, heq⟩ := joinLines_block n ⟨n, []⟩ raw physical
      have hlt : rest.length < (raw :: physical).length := by
        rw [hphysical, List.length_cons, List.length_append]
        omega
      have hrest := layout_joinLines (n + (raw :: block).length) rest
      rw [joinLines_start h, heq, hphysical]
      exact .line h hblock hrest
termination_by physical.length

/-- A text falls into the logical lines that it is read as, counted from one. -/
theorem layout_logicalLines (text : List Char) : Layout 1 (lines text) (logicalLines text) :=
  layout_joinLines 1 (lines text)

end KeyRegistry.Properties
