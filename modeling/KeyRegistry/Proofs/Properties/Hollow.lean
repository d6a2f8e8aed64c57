import KeyRegistry.Proofs.Properties.Cutting

/-!
# Hollow lines of properties text

A blank line, or one that holds nothing but the backslash that joins it to the next, adds nothing
to a logical line. The reader drops blank physical lines before it joins them, so a logical line
is empty, and read as an entry all the same, exactly where such a backslash stands alone in front
of hollow lines (`Stray`).
-/

namespace KeyRegistry.Properties

/-- A line that is blank, or holds nothing but a backslash at its end. -/
def Hollow (raw : List Char) : Prop :=
  ∃ blanks, Blank blanks ∧ (raw = blanks ∨ raw = blanks ++ ['\\'])

/-- A backslash stands alone where no logical line is open, and joins hollow lines alone. -/
inductive Stray : List (List Char) → Prop
  | here {raw block rest} :
      ¬ Blank raw → Block (raw :: block) rest → (∀ line ∈ raw :: block, Hollow line) →
      Stray (raw :: block ++ rest)
  | skip {raw rest} : Blank raw ∨ Comment raw → Stray rest → Stray (raw :: rest)
  | line {raw block rest} :
      ¬ (Blank raw ∨ Comment raw) → Block (raw :: block) rest → Stray rest →
      Stray (raw :: block ++ rest)

variable {pending : Option (List Char)} {raw : List Char} {physical block rest : List (List Char)}
  {ls : List Logical} {n : Nat}

theorem trimLeft_lone {blanks : List Char} (h : Blank blanks) :
    Text.trimLeft (blanks ++ ['\\']) = ['\\'] := by
  rw [Text.trimLeft_of_blank h, Text.trimLeft_of_ink (by decide)]

theorem hollow_iff : Hollow raw ↔ Text.trimLeft raw = [] ∨ Text.trimLeft raw = ['\\'] := by
  constructor
  · rintro ⟨blanks, hblanks, rfl | rfl⟩
    · exact .inl (Text.trimLeft_eq_nil_iff.2 hblanks)
    · exact .inr (trimLeft_lone hblanks)
  · rintro (h | h)
    · exact ⟨raw, Text.trimLeft_eq_nil_iff.1 h, .inl rfl⟩
    · refine ⟨raw.takeWhile Text.isBlank, fun c hc => List.mem_takeWhile_imp hc, .inr ?_⟩
      rw [← h, Text.trimLeft, List.takeWhile_append_dropWhile]

/-- A physical line adds nothing to its logical line exactly if it is hollow. -/
theorem share_eq_nil_iff : share raw = [] ↔ Hollow raw := by
  rw [hollow_iff, share]
  generalize Text.trimLeft raw = trimmed
  split_ifs with hopen
  · rcases trimmed with _ | ⟨c, _ | ⟨d, trimmed⟩⟩
    · cases hopen
    · have hc : c = '\\' := by
        by_contra hc
        simp [isOpen, hc] at hopen
      simp [hc]
    · simp
  · have hne : trimmed ≠ ['\\'] := by
      rintro rfl
      exact hopen rfl
    simp [hne]

theorem not_skipped_of_hollow (h : Hollow raw) (hblank : ¬ Blank raw) :
    isSkipped (Text.trimLeft raw) = false := by
  rcases hollow_iff.1 h with htrim | htrim
  · exact absurd (Text.trimLeft_eq_nil_iff.1 htrim) hblank
  · rw [htrim]
    rfl

/-- A block is read as one logical line, which takes up what was open before it. -/
theorem joined_block (h : Block block rest)
    (hstart : pending = none → ∀ raw ∈ block.head?, isSkipped (Text.trimLeft raw) = false) :
    joined pending (block ++ rest) =
      (pending.getD [] ++ block.flatMap share) :: joined none rest := by
  induction h generalizing pending with
  | @last raw rest hlast =>
    have hnot : ¬ (pending = none ∧ isSkipped (Text.trimLeft raw) = true) := by
      rintro ⟨hpending, hskipped⟩
      rw [hstart hpending raw rfl] at hskipped
      cases hskipped
    rw [List.flatMap_singleton, List.singleton_append]
    cases hopen : isOpen (Text.trimLeft raw) with
    | false => simp [joined, completed, carry, hnot, hopen]
    | true =>
      obtain rfl : rest = [] := hlast.resolve_left (by simp [hopen])
      rw [joined_of_open hnot hopen]
      rfl
  | @more raw block rest hopen hblock ih =>
    have hnot : ¬ (pending = none ∧ isSkipped (Text.trimLeft raw) = true) := by
      rintro ⟨hpending, hskipped⟩
      rw [hstart hpending raw rfl] at hskipped
      cases hskipped
    rw [List.cons_append, joined_of_open hnot hopen, ih (by simp), Option.getD_some,
      List.flatMap_cons, List.append_assoc]

theorem nil_mem_joined (h : Stray physical) : [] ∈ joined none physical := by
  induction h with
  | @here raw block rest hblank hblock hhollow =>
    have hstart := not_skipped_of_hollow (hhollow raw (by simp)) hblank
    have hnil : (raw :: block).flatMap share = [] :=
      List.flatMap_eq_nil_iff.2 fun line hline => share_eq_nil_iff.2 (hhollow line hline)
    rw [joined_block hblock fun _ line hline => Option.some.inj hline ▸ hstart, hnil]
    exact List.mem_cons_self
  | skip hskipped _ ih => rwa [joined_skipped hskipped]
  | @line raw block rest hstart hblock _ ih =>
    rw [← isSkipped_iff, Bool.not_eq_true] at hstart
    rw [joined_block hblock fun _ line hline => Option.some.inj hline ▸ hstart]
    exact List.mem_cons_of_mem _ ih

theorem stray_of_layout (h : Layout n physical ls) {l : Logical} (hl : l ∈ ls)
    (htext : l.text = []) : Stray physical := by
  induction h with
  | done => cases hl
  | skip hskipped _ ih => exact .skip (isSkipped_iff.1 hskipped) (ih hl)
  | @line n raw block rest ls hstart hblock _ ih =>
    rw [← Bool.not_eq_true, isSkipped_iff] at hstart
    rcases List.mem_cons.1 hl with rfl | hl
    · refine .here (fun hblank => hstart (.inl hblank)) hblock fun line hline => ?_
      exact share_eq_nil_iff.1 (List.flatMap_eq_nil_iff.1 htext line hline)
    · exact .line hstart hblock (ih hl)

/-- A logical line is empty exactly where a backslash is stray. -/
theorem stray_iff (text : List Char) :
    Stray (lines text) ↔ ∃ l ∈ logicalLines text, l.text = [] := by
  constructor
  · intro h
    have hnil := nil_mem_joined h
    rw [← map_text_logicalLines] at hnil
    exact List.mem_map.1 hnil
  · rintro ⟨l, hl, htext⟩
    exact stray_of_layout (layout_logicalLines text) hl htext

/-- Hollow lines give no text to a logical line. -/
theorem text_eq_nil_of_hollow (h : Layout n physical ls) (hhollow : ∀ raw ∈ physical, Hollow raw) :
    ∀ l ∈ ls, l.text = [] := by
  induction h with
  | done => simp
  | skip _ _ ih => exact ih fun raw hraw => hhollow raw (List.mem_cons_of_mem _ hraw)
  | @line n raw block rest ls _ _ _ ih =>
    obtain ⟨hblock, hrest⟩ := List.forall_mem_append.1 hhollow
    refine List.forall_mem_cons.2 ⟨?_, ih hrest⟩
    exact List.flatMap_eq_nil_iff.2 fun line hline => share_eq_nil_iff.2 (hblock line hline)

end KeyRegistry.Properties
