import KeyRegistry.Proofs.Properties.Cutting
import Mathlib.Logic.Relation

/-!
# Properties text laid out anew

Blank lines and comments may come between the lines of a text, carriage returns in front of its
line feeds, and a line may be cut in two by a backslash at its end. None of this changes what the
text is read as. A fault is found in the same logical line, which may start at another number.
-/

namespace KeyRegistry.Properties

inductive Relaid : List Char → List Char → Prop
  /-- Lines that hold nothing are put between two lines, or at either end of the text, where no
  logical line is open. -/
  | insert {above below : List Char} {inserted : List (List Char)} :
      Ended above → unfinished (lines above) = none →
      (∀ raw ∈ inserted, '\n' ∉ raw ∧ (Blank raw ∨ Comment raw)) →
      Relaid (above ++ below) (above ++ inserted.flatMap (· ++ ['\n']) ++ below)
  | returns {text : List Char} : '\r' ∉ text →
      Relaid text (text.flatMap fun c => if c = '\n' then ['\r', '\n'] else [c])
  /-- A line that is no comment, or goes on an open one, is cut between `start` and `c`. -/
  | cut {above start gap back : List Char} {c : Char} {feed : List Char} :
      Ended above → '\n' ∉ start → isOpen start = false →
      (unfinished (lines above) = none → ¬ Comment start) →
      Text.hasInk ((unfinished (lines above)).getD [] ++ start) = true →
      Text.isBlank c = false → (feed = ['\n'] ∨ feed = ['\r', '\n']) →
      (∀ g ∈ gap, g = ' ' ∨ g = '\t') →
      Relaid (above ++ start ++ c :: back)
        (above ++ start ++ '\\' :: feed ++ gap ++ c :: back)

variable {raw start text text' : List Char} {c : Char}

/-! ## Lines that hold nothing -/

/-- A line with ink that is no comment starts an entry, whatever follows in it. -/
theorem not_isSkipped_append (hink : Text.hasInk start = true) (hstart : ¬ Comment start)
    (rest : List Char) : isSkipped (Text.trimLeft (start ++ rest)) = false := by
  have hne := Text.hasInk_iff.1 hink
  rw [Text.trimLeft_append hne]
  cases htrim : Text.trimLeft start with
  | nil => exact absurd htrim hne
  | cons sign more =>
    simpa [isSkipped] using fun hsign => hstart (comment_of_trimLeft htrim hsign)

theorem blank_or_comment_dropReturn (h : Blank raw ∨ Comment raw) :
    Blank (dropReturn raw) ∨ Comment (dropReturn raw) := by
  unfold dropReturn
  split_ifs with hlast
  · rcases h with h | ⟨blanks, sign, rest, rfl, hblanks, hsign⟩
    · exact .inl fun c hc => h c (List.dropLast_subset _ hc)
    · have hrest : rest ≠ [] := by
        rintro rfl
        rcases hsign with rfl | rfl <;> simp at hlast
      refine .inr ⟨blanks, sign, rest.dropLast, ?_, hblanks, hsign⟩
      rw [List.dropLast_append_of_ne_nil (by simp), List.dropLast_cons_of_ne_nil hrest]
  · exact h

theorem joined_inserted {inserted : List (List Char)}
    (h : ∀ raw ∈ inserted, '\n' ∉ raw ∧ (Blank raw ∨ Comment raw)) (below : List Char) :
    joined none (lines (inserted.flatMap (· ++ ['\n']) ++ below)) = joined none (lines below) := by
  induction inserted with
  | nil => rfl
  | cons raw inserted ih =>
    obtain ⟨⟨hfeed, hraw⟩, hrest⟩ := List.forall_mem_cons.1 h
    rw [List.flatMap_cons, List.append_assoc, List.append_assoc, List.singleton_append,
      lines_line hfeed, joined_skipped (blank_or_comment_dropReturn hraw), ih hrest]

/-! ## Lines that are cut -/

section Cut

variable {pending : Option (List Char)} {gap line : List Char}

theorem Blank.isOpen (h : Blank raw) : isOpen raw = false := by
  rcases List.eq_nil_or_concat' raw with rfl | ⟨init, b, rfl⟩
  · rfl
  · refine isOpen_concat ?_ init
    rintro rfl
    exact absurd (h '\\' (by simp)) (by decide)

theorem isOpen_trimLeft (raw : List Char) : isOpen (Text.trimLeft raw) = isOpen raw := by
  have hblank : Blank (raw.takeWhile Text.isBlank) := fun c hc => List.mem_takeWhile_imp hc
  conv_rhs => rw [← List.takeWhile_append_dropWhile (p := Text.isBlank) (l := raw)]
  rw [isOpen_append hblank.isOpen, Text.trimLeft]

/-- A line that starts an entry, or goes on an open one, adds its share to what there is. -/
theorem joined_congr_share {pending' : Option (List Char)} {raw' : List Char}
    (h : ¬ (pending = none ∧ isSkipped (Text.trimLeft raw) = true))
    (h' : ¬ (pending' = none ∧ isSkipped (Text.trimLeft raw') = true))
    (hopen : isOpen (Text.trimLeft raw) = isOpen (Text.trimLeft raw'))
    (hshare : pending.getD [] ++ share raw = pending'.getD [] ++ share raw')
    (rest : List (List Char)) :
    joined pending (raw :: rest) = joined pending' (raw' :: rest) := by
  simp only [joined, completed, carry, if_neg h, if_neg h', hopen, hshare]

/-- A line that is cut leaves its start open, and is gone on with behind the gap. -/
theorem joined_cut (hopen : isOpen start = false) (hstart : pending = none → ¬ Comment start)
    (hink : Text.hasInk (pending.getD [] ++ start) = true) (hc : Text.isBlank c = false)
    (hgap : Blank gap) (rest : List (List Char)) :
    joined pending ((start ++ ['\\']) :: (gap ++ c :: line) :: rest) =
      joined pending ((start ++ c :: line) :: rest) := by
  have hnot (more : List Char) :
      ¬ (pending = none ∧ isSkipped (Text.trimLeft (start ++ more)) = true) := by
    rintro ⟨rfl, hskipped⟩
    have hplain : isSkipped (Text.trimLeft (start ++ more)) = false :=
      not_isSkipped_append hink (hstart rfl) more
    rw [hplain] at hskipped
    cases hskipped
  have htrim : Text.trimLeft (start ++ ['\\']) = Text.trimLeft start ++ ['\\'] :=
    Text.trimLeft_append_of_ink start (by decide) []
  rw [← isOpen_trimLeft] at hopen
  have hcut : isOpen (Text.trimLeft (start ++ ['\\'])) = true := by
    rw [htrim, isOpen_concat_backslash hopen]
  rw [joined_of_open (hnot _) hcut, share_of_open hcut, htrim, List.dropLast_concat]
  have htrim' : Text.trimLeft (start ++ c :: line) = Text.trimLeft start ++ c :: line :=
    Text.trimLeft_append_of_ink start hc line
  have hgap' : Text.trimLeft (gap ++ c :: line) = c :: line := by
    rw [Text.trimLeft_of_blank hgap, Text.trimLeft_of_ink hc]
  refine joined_congr_share (by simp) (hnot _) ?_ ?_ rest
  · rw [hgap', htrim', isOpen_append hopen]
  · simp only [share, hgap', htrim', isOpen_append hopen, Option.getD_some]
    split_ifs
    · rw [List.dropLast_append_of_ne_nil (by simp), List.append_assoc]
    · rw [List.append_assoc]

end Cut

/-! ## What a text is read as -/

/-- A line that is cut, with the lines before and behind it. -/
theorem lines_cut_line {above gap feed : List Char} (habove : Ended above)
    (hfeedless : '\n' ∉ start) (hc : Text.isBlank c = false)
    (hfeed : feed = ['\n'] ∨ feed = ['\r', '\n']) (hgap : '\n' ∉ gap) (back : List Char) :
    ∃ line rest, lines (above ++ start ++ c :: back) =
        lines above ++ (start ++ c :: line) :: rest ∧
      lines (above ++ start ++ '\\' :: feed ++ gap ++ c :: back) =
        lines above ++ (start ++ ['\\']) :: (gap ++ c :: line) :: rest := by
  have hink (sign : Char) (hsign : Text.isBlank sign = true) : c ≠ sign := by
    rintro rfl
    rw [hsign] at hc
    cases hc
  have hhead : (c :: back).head? ≠ some '\n' := by simpa using hink '\n' (by decide)
  obtain ⟨line, rest, hline⟩ : ∃ line rest, lines (c :: back) = (c :: line) :: rest := by
    rw [lines_cons (hink '\n' (by decide)) fun hreturn => absurd hreturn (hink '\r' (by decide))]
    split
    · exact ⟨[], [], rfl⟩
    · exact ⟨_, _, rfl⟩
  refine ⟨line, rest, ?_, ?_⟩
  · rw [List.append_assoc, habove.lines_append, lines_front hfeedless hhead hline]
  · have hstart : '\n' ∉ start ++ ['\\'] := by simpa using hfeedless
    have hcut : lines (start ++ ['\\'] ++ feed ++ (gap ++ c :: back)) =
        (start ++ ['\\']) :: lines (gap ++ c :: back) := by
      rcases hfeed with rfl | rfl
      · rw [List.append_assoc, List.singleton_append, lines_line hstart]
        simp [dropReturn]
      · rw [show start ++ ['\\'] ++ ['\r', '\n'] ++ (gap ++ c :: back) =
          start ++ ['\\', '\r'] ++ '\n' :: (gap ++ c :: back) by simp,
          lines_line (by simpa using hfeedless)]
        simp [dropReturn, List.dropLast_append_of_ne_nil]
    rw [show above ++ start ++ '\\' :: feed ++ gap ++ c :: back =
      above ++ (start ++ ['\\'] ++ feed ++ (gap ++ c :: back)) by simp,
      habove.lines_append, hcut, lines_front hgap hhead hline]

theorem Relaid.joined_eq (h : Relaid text text') :
    joined none (lines text') = joined none (lines text) := by
  cases h with
  | @insert above below inserted habove hclosed hinserted =>
    obtain ⟨before, hbefore⟩ := joined_unfinished (lines above)
    rw [List.append_assoc, habove.lines_append, habove.lines_append, hbefore, hbefore, hclosed,
      joined_inserted hinserted]
  | returns hreturn => rw [lines_returned hreturn]
  | @cut above start gap back c feed habove hfeedless hopen hstart hink hc hfeed hgap =>
    have hblank : Blank gap := by
      intro g hg
      rcases hgap g hg with rfl | rfl <;> decide
    have hgap' : '\n' ∉ gap := fun hmem => by
      rcases hgap _ hmem with h | h <;> cases h
    obtain ⟨line, rest, hlines, hlines'⟩ :=
      lines_cut_line habove hfeedless hc hfeed hgap' back
    obtain ⟨before, hbefore⟩ := joined_unfinished (lines above)
    rw [hlines, hlines', hbefore, hbefore, joined_cut hopen hstart hink hc hblank]

/-- A line is read by its text alone; its number only names a fault. -/
theorem mapError_entry {l l' : Logical} (h : l.text = l'.text) :
    l.entry.mapError Fault.reason = l'.entry.mapError Fault.reason := by
  simp only [Logical.entry, h]
  cases unescape (cutKey l'.text).1 with
  | error code => rfl
  | ok key => cases unescape (rawValue (cutKey l'.text).2) <;> rfl

/-- Lines with the same texts give the same entries, or fail for the same reason. -/
theorem mapError_foldlM {ls ls' : List Logical} (h : ls.map Logical.text = ls'.map Logical.text)
    (kept : List (String × String)) :
    (ls.foldlM (fun kept (l : Logical) => l.entry.map fun e => put e.1 e.2 kept) kept).mapError
        Fault.reason =
      (ls'.foldlM (fun kept (l : Logical) => l.entry.map fun e => put e.1 e.2 kept) kept).mapError
        Fault.reason := by
  induction ls generalizing ls' kept with
  | nil =>
    obtain rfl := List.map_eq_nil_iff.1 h.symm
    rfl
  | cons l ls ih =>
    obtain ⟨l', ls', rfl, htext, hrest⟩ := List.map_eq_cons_iff.1 h.symm
    have hentry := mapError_entry htext.symm
    rw [List.foldlM_cons, List.foldlM_cons]
    cases hl : l.entry with
    | error f => cases hl' : l'.entry <;> simp_all [Except.mapError, Except.map, bind, Except.bind]
    | ok e =>
      cases hl' : l'.entry with
      | error f => simp_all [Except.mapError]
      | ok e' =>
        obtain rfl : e = e' := by simpa [hl, hl', Except.mapError] using hentry
        exact ih hrest.symm _

theorem joined_relaid (h : Relation.ReflTransGen Relaid text text') :
    joined none (lines text') = joined none (lines text) := by
  induction h with
  | refl => rfl
  | tail _ hstep ih => rw [hstep.joined_eq, ih]

/-- However often the layout of a text is changed, its entries stay the same, and so does what is
wrong with it. -/
theorem parse_relaid {text text' : String}
    (h : Relation.ReflTransGen Relaid text.toList text'.toList) :
    (parse text').mapError Fault.reason = (parse text).mapError Fault.reason := by
  refine mapError_foldlM ?_ []
  rw [map_text_logicalLines, map_text_logicalLines, joined_relaid h]

/-- A comment that ends in a backslash comes in front, then the entry is cut behind its separator,
and last every line gets a carriage return. -/
theorem parse_relaid_thrice :
    Relation.ReflTransGen Relaid "k = v w\n".toList
      "# \\\r\nk = \\\r\n\tv w\r\n".toList ∧
    (parse "# \\\r\nk = \\\r\n\tv w\r\n").mapError Fault.reason = .ok [("k", "v w")] := by
  have hinsert : Relaid "k = v w\n".toList "# \\\nk = v w\n".toList :=
    @Relaid.insert [] "k = v w\n".toList ["# \\".toList] (.inl rfl) rfl
      (by simpa using .inr ⟨[], '#', " \\".toList, rfl, by simp [Blank], .inl rfl⟩)
  have hcut : Relaid "# \\\nk = v w\n".toList "# \\\nk = \\\n\tv w\n".toList :=
    @Relaid.cut "# \\\n".toList "k = ".toList ['\t'] " w\n".toList 'v' ['\n'] (.inr rfl)
      (by decide) (by decide)
      (fun _ hcomment => by
        obtain ⟨sign, rest, htrim, hsign⟩ := hcomment.trimLeft
        rcases hsign with rfl | rfl <;> cases htrim)
      (by decide) (by decide) (.inl rfl) (by simp)
  have hreturns : Relaid "# \\\nk = \\\n\tv w\n".toList
      "# \\\r\nk = \\\r\n\tv w\r\n".toList := .returns (by decide)
  have hrelaid := ((Relation.ReflTransGen.single hinsert).tail hcut).tail hreturns
  refine ⟨hrelaid, ?_⟩
  rw [parse_relaid hrelaid]
  decide

end KeyRegistry.Properties
