import KeyRegistry.Proofs.Properties.Codes
import Mathlib.Data.List.Basic
import Mathlib.Data.List.TakeWhile

/-!
# Where properties text can be cut

The reader of a text carries the logical line that is open from one physical line to the next.
`unfinished` is what it carries behind some lines, and `joined` the texts of the logical lines
that it completes. Where it carries nothing, what comes next is read as if the text began there.
-/

namespace KeyRegistry.Text

variable {raw rest : List Char} {c : Char}

theorem trimLeft_of_ink (h : isBlank c = false) (rest : List Char) :
    trimLeft (c :: rest) = c :: rest := by
  simp [trimLeft, h]

theorem trimLeft_of_blank (h : ∀ c ∈ raw, isBlank c = true) (rest : List Char) :
    trimLeft (raw ++ rest) = trimLeft rest :=
  List.dropWhile_append_of_pos h

theorem trimLeft_eq_nil_iff : trimLeft raw = [] ↔ ∀ c ∈ raw, isBlank c = true := by
  simp [trimLeft, List.dropWhile_eq_nil_iff]

/-- A text that is not blank is trimmed without looking at what follows. -/
theorem trimLeft_append (h : trimLeft raw ≠ []) (rest : List Char) :
    trimLeft (raw ++ rest) = trimLeft raw ++ rest := by
  rw [trimLeft, List.dropWhile_append, if_neg (by simpa [trimLeft] using h), trimLeft]

theorem trimLeft_append_of_ink (raw : List Char) (h : isBlank c = false) (rest : List Char) :
    trimLeft (raw ++ c :: rest) = trimLeft raw ++ c :: rest := by
  by_cases hraw : trimLeft raw = []
  · rw [trimLeft_of_blank (trimLeft_eq_nil_iff.1 hraw), trimLeft_of_ink h, hraw, List.nil_append]
  · exact trimLeft_append hraw _

theorem hasInk_iff : hasInk raw = true ↔ trimLeft raw ≠ [] := by
  simp [hasInk, trimLeft_eq_nil_iff]

end KeyRegistry.Text

namespace KeyRegistry.Properties

variable {pending : Option (List Char)} {raw : List Char}

/-! ## Physical lines -/

def Ended (text : List Char) : Prop := text = [] ∨ text.getLast? = some '\n'

/-- What a line is before its line feed; a carriage return there belongs to the feed. -/
def dropReturn (line : List Char) : List Char :=
  if line.getLast? = some '\r' then line.dropLast else line

theorem lines_feed (text : List Char) : lines ('\n' :: text) = [] :: lines text := by
  rw [lines]

theorem lines_return (text : List Char) : lines ('\r' :: '\n' :: text) = lines ('\n' :: text) := by
  rw [lines, lines_feed]

/-- A character that ends no line is the first of its line. -/
theorem lines_cons {c : Char} {text : List Char} (hc : c ≠ '\n')
    (hreturn : c = '\r' → text.head? ≠ some '\n') :
    lines (c :: text) = match lines text with
      | [] => [[c]]
      | line :: ls => (c :: line) :: ls := by
  cases text with
  | nil => simp [lines]
  | cons d text =>
    rewrite [lines]
    · cases lines (d :: text) <;> rfl
    · exact fun h h' => hreturn h (by simp [h'])
    · exact hc

theorem lines_ne_nil {text : List Char} (h : text ≠ []) : lines text ≠ [] := by
  fun_cases lines text <;> simp_all

/-- A text may be cut behind a line feed. -/
theorem lines_cut (above below : List Char) :
    lines (above ++ '\n' :: below) = lines (above ++ ['\n']) ++ lines below := by
  induction above with
  | nil => simp [lines_feed]
  | cons c above ih =>
    rw [List.cons_append, List.cons_append]
    by_cases hfeed : c = '\n'
    · rw [hfeed, lines_feed, lines_feed, ih, List.cons_append]
    by_cases hreturn : c = '\r' ∧ (above ++ ['\n']).head? = some '\n'
    · obtain ⟨rfl, hhead⟩ := hreturn
      have hdrop (rest : List Char) :
          lines ('\r' :: (above ++ '\n' :: rest)) = lines (above ++ '\n' :: rest) := by
        cases above with
        | nil => exact lines_return rest
        | cons d above =>
          obtain rfl : d = '\n' := by simpa using hhead
          exact lines_return _
      rw [hdrop, hdrop, ih]
    · have hhead (rest : List Char) : c = '\r' → (above ++ '\n' :: rest).head? ≠ some '\n' := by
        intro hc hhead
        refine hreturn ⟨hc, ?_⟩
        cases above <;> simp_all
      have hne : lines (above ++ ['\n']) ≠ [] := lines_ne_nil (by simp)
      rw [lines_cons hfeed (hhead below), lines_cons hfeed (hhead []), ih]
      cases hlines : lines (above ++ ['\n']) with
      | nil => exact absurd hlines hne
      | cons line ls => rfl

theorem Ended.lines_append {above : List Char} (h : Ended above) (below : List Char) :
    lines (above ++ below) = lines above ++ lines below := by
  rcases h with rfl | h
  · rfl
  · obtain ⟨init, rfl⟩ : ∃ init, above = init ++ ['\n'] := by
      rw [List.getLast?_eq_some_iff] at h
      exact h
    rw [List.append_assoc, List.singleton_append, lines_cut]

/-- The start of a line stands in front of what the rest of the text begins with. -/
theorem lines_front {start rest line : List Char} {ls : List (List Char)} (hstart : '\n' ∉ start)
    (hrest : rest.head? ≠ some '\n') (h : lines rest = line :: ls) :
    lines (start ++ rest) = (start ++ line) :: ls := by
  induction start with
  | nil => exact h
  | cons c start ih =>
    simp only [List.mem_cons, not_or] at hstart
    have hhead : (start ++ rest).head? ≠ some '\n' := by
      cases start with
      | nil => exact hrest
      | cons d start => simpa using fun hd => hstart.2 (by simp [hd])
    rw [List.cons_append, lines_cons (Ne.symm hstart.1) fun _ => hhead, ih hstart.2,
      List.cons_append]

theorem lines_line {line : List Char} (h : '\n' ∉ line) (rest : List Char) :
    lines (line ++ '\n' :: rest) = dropReturn line :: lines rest := by
  rcases List.eq_nil_or_concat' line with rfl | ⟨init, c, rfl⟩
  · simp [lines_feed, dropReturn]
  · simp only [List.mem_append, List.mem_singleton, not_or] at h
    have hlast : lines (c :: '\n' :: rest) = dropReturn [c] :: lines rest := by
      by_cases hc : c = '\r'
      · rw [hc, lines_return, lines_feed]
        rfl
      · rw [lines_cons (Ne.symm h.2) fun hreturn => absurd hreturn hc, lines_feed]
        simp [dropReturn, hc]
    rw [List.append_assoc, List.singleton_append,
      lines_front h.1 (by simpa using Ne.symm h.2) hlast]
    by_cases hc : c = '\r' <;> simp [dropReturn, hc]

/-- A text without carriage returns has the same lines if one is put in front of each feed. -/
theorem lines_returned {text : List Char} (h : '\r' ∉ text) :
    lines (text.flatMap fun c => if c = '\n' then ['\r', '\n'] else [c]) = lines text := by
  induction text with
  | nil => rfl
  | cons c text ih =>
    simp only [List.mem_cons, not_or] at h
    rw [List.flatMap_cons]
    split_ifs with hc
    · rw [List.cons_append, List.singleton_append, lines_return, lines_feed, hc, lines_feed, ih h.2]
    · rw [List.singleton_append, lines_cons hc fun hreturn => absurd hreturn.symm h.1,
        lines_cons hc fun hreturn => absurd hreturn.symm h.1, ih h.2]

/-! ## Lines that hold no entry -/

def Blank (raw : List Char) : Prop := ∀ c ∈ raw, Text.isBlank c = true

def Comment (raw : List Char) : Prop :=
  ∃ blanks sign rest, raw = blanks ++ sign :: rest ∧ Blank blanks ∧ (sign = '#' ∨ sign = '!')

theorem Comment.trimLeft (h : Comment raw) :
    ∃ sign rest, Text.trimLeft raw = sign :: rest ∧ (sign = '#' ∨ sign = '!') := by
  obtain ⟨blanks, sign, rest, rfl, hblanks, hsign⟩ := h
  refine ⟨sign, rest, ?_, hsign⟩
  rw [Text.trimLeft_of_blank hblanks]
  rcases hsign with rfl | rfl <;> exact Text.trimLeft_of_ink (by decide) rest

theorem comment_of_trimLeft {sign : Char} {rest : List Char}
    (h : Text.trimLeft raw = sign :: rest) (hsign : sign = '#' ∨ sign = '!') : Comment raw := by
  refine ⟨raw.takeWhile Text.isBlank, sign, rest, ?_, ?_, hsign⟩
  · rw [← h, Text.trimLeft, List.takeWhile_append_dropWhile]
  · exact fun c hc => List.mem_takeWhile_imp hc

theorem isSkipped_iff : isSkipped (Text.trimLeft raw) = true ↔ Blank raw ∨ Comment raw := by
  constructor
  · intro h
    cases htrim : Text.trimLeft raw with
    | nil => exact .inl (Text.trimLeft_eq_nil_iff.1 htrim)
    | cons sign rest =>
      rw [htrim] at h
      exact .inr (comment_of_trimLeft htrim (by simpa [isSkipped] using h))
  · rintro (h | h)
    · rw [Text.trimLeft_eq_nil_iff.2 h]
      rfl
    · obtain ⟨sign, rest, htrim, hsign⟩ := h.trimLeft
      rw [htrim]
      simpa [isSkipped] using hsign

/-! ## Logical lines -/

/-- What is open of a logical line behind a physical line, if `pending` was open before it. -/
def carry (pending : Option (List Char)) (raw : List Char) : Option (List Char) :=
  if pending = none ∧ isSkipped (Text.trimLeft raw) = true then none
  else if isOpen (Text.trimLeft raw) = true then some (pending.getD [] ++ share raw)
  else none

def completed (pending : Option (List Char)) (raw : List Char) : Option (List Char) :=
  if pending = none ∧ isSkipped (Text.trimLeft raw) = true then none
  else if isOpen (Text.trimLeft raw) = true then none
  else some (pending.getD [] ++ share raw)

def unfinished (physical : List (List Char)) : Option (List Char) := physical.foldl carry none

/-- The texts of the logical lines; one that is still open at the end counts. -/
def joined (pending : Option (List Char)) : List (List Char) → List (List Char)
  | [] => pending.toList
  | raw :: rest => (completed pending raw).toList ++ joined (carry pending raw) rest

theorem joined_skipped (h : Blank raw ∨ Comment raw) (rest : List (List Char)) :
    joined none (raw :: rest) = joined none rest := by
  simp [joined, completed, carry, isSkipped_iff.2 h]

theorem joined_of_open (h : ¬ (pending = none ∧ isSkipped (Text.trimLeft raw) = true))
    (hopen : isOpen (Text.trimLeft raw) = true) (rest : List (List Char)) :
    joined pending (raw :: rest) = joined (some (pending.getD [] ++ share raw)) rest := by
  simp [joined, completed, carry, h, hopen]

theorem map_text_joinLines (n : Nat) (l : Option Logical) (physical : List (List Char)) :
    (joinLines n l physical).map Logical.text = joined (l.map Logical.text) physical := by
  induction physical generalizing n l with
  | nil => cases l <;> rfl
  | cons raw physical ih =>
    cases l <;> simp only [joinLines, joined, completed, carry, share] <;> split_ifs <;>
      simp_all

theorem map_text_logicalLines (text : List Char) :
    (logicalLines text).map Logical.text = joined none (lines text) :=
  map_text_joinLines 1 none (lines text)

/-- What is completed within some lines does not depend on what follows them. -/
theorem joined_append (pending : Option (List Char)) (above : List (List Char)) :
    ∃ before, ∀ rest, joined pending (above ++ rest) =
      before ++ joined (above.foldl carry pending) rest := by
  induction above generalizing pending with
  | nil => exact ⟨[], fun rest => rfl⟩
  | cons raw above ih =>
    obtain ⟨before, hbefore⟩ := ih (carry pending raw)
    refine ⟨(completed pending raw).toList ++ before, fun rest => ?_⟩
    rw [List.cons_append, joined, hbefore, List.append_assoc, List.foldl_cons]

theorem joined_unfinished (above : List (List Char)) :
    ∃ before, ∀ rest, joined none (above ++ rest) = before ++ joined (unfinished above) rest :=
  joined_append none above

end KeyRegistry.Properties
