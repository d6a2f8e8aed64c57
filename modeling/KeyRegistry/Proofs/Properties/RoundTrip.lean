import KeyRegistry.Properties
import Mathlib.Data.List.Induction

/-!
# Writing properties text

`write` puts every pair on a line of its own and escapes all but the letters and
digits of ASCII. No character of a pair then ends its line, opens a comment, joins
the line with the next or separates key and value, so a text so written is read
back pair by pair.
-/

namespace KeyRegistry.Properties

def escapeChar (c : Char) : List Char :=
  if c = '\t' then ['\\', 't']
  else if c = '\n' then ['\\', 'n']
  else if c = '\r' then ['\\', 'r']
  else if c = '\x0c' then ['\\', 'f']
  else if c.isAlphanum then [c]
  else ['\\', c]

def escape (s : List Char) : List Char := s.flatMap escapeChar

def writeEntry (e : String × String) : List Char :=
  escape e.1.toList ++ '=' :: escape e.2.toList

def write (entries : List (String × String)) : String :=
  String.ofList (entries.flatMap fun e => writeEntry e ++ ['\n'])

variable {c e x : Char} {s r line : List Char} {n : Nat}

/-! ## Characters -/

/-- What an escaped character looks like: itself, or a backslash with a character that stands for
it and starts no code. -/
theorem escapeChar_cases (c : Char) :
    (c.isAlphanum = true ∧ escapeChar c = [c]) ∨
      ∃ e, escapeChar c = ['\\', e] ∧ escapeValue e = c ∧ e ≠ 'u' ∧ e ≠ '\n' ∧ e ≠ '\r' := by
  unfold escapeChar
  split_ifs with htab hfeed hreturn hform hplain
  · exact .inr ⟨'t', rfl, htab.symm, by decide⟩
  · exact .inr ⟨'n', rfl, hfeed.symm, by decide⟩
  · exact .inr ⟨'r', rfl, hreturn.symm, by decide⟩
  · exact .inr ⟨'f', rfl, hform.symm, by decide⟩
  · exact .inl ⟨hplain, rfl⟩
  · have hne (x : Char) (hx : x.isAlphanum = true) : c ≠ x := by
      rintro rfl
      exact hplain hx
    refine .inr ⟨c, rfl, ?_, hne 'u' rfl, hfeed, hreturn⟩
    simp [escapeValue, hne 't' rfl, hne 'n' rfl, hne 'r' rfl, hne 'f' rfl]

@[simp] theorem escape_nil : escape [] = [] := rfl

theorem escape_cons (c : Char) (s : List Char) : escape (c :: s) = escapeChar c ++ escape s :=
  List.flatMap_cons

theorem ne_of_isAlphanum (h : c.isAlphanum = true) (hx : x.isAlphanum = false) : c ≠ x := by
  rintro rfl
  simp [h] at hx

theorem isBlank_of_isAlphanum (h : c.isAlphanum = true) : Text.isBlank c = false := by
  change ((decide (c.val ≥ 'A'.val ∧ c.val ≤ 'Z'.val) ||
    (decide (c.val ≥ 'a'.val) && decide (c.val ≤ 'z'.val))) ||
    (decide (c.val ≥ '0'.val) && decide (c.val ≤ '9'.val))) = true at h
  simp only [Bool.or_eq_true, Bool.and_eq_true, decide_eq_true_eq, ge_iff_le,
    UInt32.le_iff_toNat_le] at h
  change ((65 ≤ c.toNat ∧ c.toNat ≤ 90) ∨ (97 ≤ c.toNat ∧ c.toNat ≤ 122)) ∨
    (48 ≤ c.toNat ∧ c.toNat ≤ 57) at h
  simp only [Text.isBlank, Bool.or_eq_false_iff, Bool.and_eq_false_iff, decide_eq_false_iff_not,
    beq_eq_false_iff_ne]
  omega

theorem isGap_of_isAlphanum (h : c.isAlphanum = true) : isGap c = false := by
  have hne {x : Char} (hx : x.isAlphanum = false) : c ≠ x := ne_of_isAlphanum h hx
  simp [isGap, hne (x := ' ') rfl, hne (x := '\t') rfl, hne (x := '\x0c') rfl]

/-- A character that a written text may begin with: it is not trimmed, and is no sign of a
comment. -/
structure Firm (c : Char) : Prop where
  inked : Text.isBlank c = false
  gapless : isGap c = false
  entry : c ≠ '#' ∧ c ≠ '!'

theorem firm_of_isAlphanum (h : c.isAlphanum = true) : Firm c :=
  ⟨isBlank_of_isAlphanum h, isGap_of_isAlphanum h, ne_of_isAlphanum h rfl, ne_of_isAlphanum h rfl⟩

theorem escape_cases (s : List Char) : escape s = [] ∨ ∃ c r, escape s = c :: r ∧ Firm c := by
  cases s with
  | nil => exact .inl rfl
  | cons c s =>
    rw [escape_cons]
    rcases escapeChar_cases c with ⟨hplain, heq⟩ | ⟨e, heq, -⟩ <;> rw [heq]
    · exact .inr ⟨c, _, rfl, firm_of_isAlphanum hplain⟩
    · exact .inr ⟨'\\', _, rfl, by decide, by decide, by decide⟩

/-! ## Escapes -/

theorem unescape_plain (h : c ≠ '\\') (r : List Char) :
    unescape (c :: r) = (unescape r).map (c :: ·) := by
  rw [unescape] <;> simp [h]

theorem unescape_backslash (h : e ≠ 'u') (r : List Char) :
    unescape ('\\' :: e :: r) = (unescape r).map (escapeValue e :: ·) := by
  rw [unescape] <;> simp [h]

theorem unescape_escape (s : List Char) : unescape (escape s) = .ok s := by
  induction s with
  | nil => rfl
  | cons c s ih =>
    rw [escape_cons]
    rcases escapeChar_cases c with ⟨hplain, heq⟩ | ⟨e, heq, hvalue, hu, -⟩ <;> rw [heq]
    · rw [List.singleton_append, unescape_plain (ne_of_isAlphanum hplain rfl), ih]
      rfl
    · rw [List.cons_append, List.singleton_append, unescape_backslash hu, ih, hvalue]
      rfl

/-! ## Keys and values -/

theorem cutKey_plain (h : c.isAlphanum = true) (r : List Char) :
    cutKey (c :: r) = (c :: (cutKey r).1, (cutKey r).2) := by
  have hne {x : Char} (hx : x.isAlphanum = false) : c ≠ x := ne_of_isAlphanum h hx
  rw [cutKey]
  · simp [hne (x := '=') rfl, hne (x := ':') rfl, isGap_of_isAlphanum h]
  · simp [hne (x := '\\') rfl]
  · simp [hne (x := '\\') rfl]

theorem cutKey_escape (s r : List Char) :
    cutKey (escape s ++ '=' :: r) = (escape s, '=' :: r) := by
  induction s with
  | nil => simp [cutKey]
  | cons c s ih =>
    rw [escape_cons]
    rcases escapeChar_cases c with ⟨hplain, heq⟩ | ⟨e, heq, -⟩ <;> rw [heq]
    · rw [List.singleton_append, List.cons_append, cutKey_plain hplain, ih]
    · simp only [List.cons_append, List.nil_append, cutKey, ih]

theorem rawValue_escape (s : List Char) : rawValue ('=' :: escape s) = escape s := by
  have hvalue : (escape s).dropWhile isGap = escape s := by
    rcases escape_cases s with heq | ⟨c, r, heq, hfirm⟩ <;> rw [heq]
    · rfl
    · simp [hfirm.gapless]
  have hsign : isGap '=' = false := by decide
  simp [rawValue, hsign, hvalue]

theorem entry_writeEntry (n : Nat) (e : String × String) :
    (⟨n, writeEntry e⟩ : Logical).entry = .ok e := by
  simp only [Logical.entry, writeEntry, cutKey_escape, rawValue_escape, unescape_escape]
  simp [Except.mapError, bind, Except.bind, pure, Except.pure]

/-! ## Lines -/

theorem lines_append (h : ∀ c ∈ line, c ≠ '\n' ∧ c ≠ '\r') (r : List Char) :
    lines (line ++ '\n' :: r) = line :: lines r := by
  induction line with
  | nil => rw [List.nil_append, lines]
  | cons c line ih =>
    obtain ⟨⟨hfeed, hreturn⟩, hrest⟩ := List.forall_mem_cons.1 h
    have hlines := ih hrest
    obtain ⟨d, tail, htail⟩ : ∃ d tail, line ++ '\n' :: r = d :: tail := by
      cases line <;> exact ⟨_, _, rfl⟩
    rw [htail] at hlines
    rw [List.cons_append, htail, lines, hlines]
    all_goals simp [hfeed, hreturn]

theorem isOpen_concat (h : c ≠ '\\') (line : List Char) : isOpen (line ++ [c]) = false := by
  simp [isOpen, h]

theorem isOpen_pair (line : List Char) : isOpen (line ++ ['\\', '\\']) = isOpen line := by
  simp [isOpen, Nat.add_assoc]

theorem isOpen_escaped (e : Char) (h : isOpen line = false) :
    isOpen (line ++ ['\\', e]) = false := by
  by_cases he : e = '\\'
  · rw [he, isOpen_pair, h]
  · simpa using isOpen_concat he (line ++ ['\\'])

/-- Backslashes come in pairs at the end of what is escaped. -/
theorem isOpen_escape (s : List Char) (h : isOpen line = false) :
    isOpen (line ++ escape s) = false := by
  induction s generalizing line with
  | nil => simpa using h
  | cons c s ih =>
    rw [escape_cons, ← List.append_assoc]
    apply ih
    rcases escapeChar_cases c with ⟨hplain, heq⟩ | ⟨e, heq, -⟩ <;> rw [heq]
    · exact isOpen_concat (ne_of_isAlphanum hplain rfl) line
    · exact isOpen_escaped e h

theorem isOpen_writeEntry (e : String × String) : isOpen (writeEntry e) = false := by
  have hkey : isOpen (escape e.1.toList ++ ['=']) = false := isOpen_concat (by decide) _
  have hline := isOpen_escape e.2.toList hkey
  rwa [List.append_assoc, List.singleton_append] at hline

theorem ne_of_mem_escape (s : List Char) : ∀ c ∈ escape s, c ≠ '\n' ∧ c ≠ '\r' := by
  intro c hc
  obtain ⟨x, -, hx⟩ := List.mem_flatMap.1 hc
  rcases escapeChar_cases x with ⟨hplain, heq⟩ | ⟨e, heq, -, -, hfeed, hreturn⟩ <;> rw [heq] at hx
  · obtain rfl := List.mem_singleton.1 hx
    exact ⟨ne_of_isAlphanum hplain rfl, ne_of_isAlphanum hplain rfl⟩
  · simp only [List.mem_cons, List.not_mem_nil, or_false] at hx
    rcases hx with rfl | rfl
    · decide
    · exact ⟨hfeed, hreturn⟩

theorem ne_of_mem_writeEntry (e : String × String) : ∀ c ∈ writeEntry e, c ≠ '\n' ∧ c ≠ '\r' := by
  intro c hc
  simp only [writeEntry, List.mem_append, List.mem_cons] at hc
  rcases hc with hc | rfl | hc
  · exact ne_of_mem_escape _ c hc
  · decide
  · exact ne_of_mem_escape _ c hc

/-- A written line is an entry of its own, and nothing of it is trimmed. -/
theorem writeEntry_cases (e : String × String) :
    Text.trimLeft (writeEntry e) = writeEntry e ∧ isSkipped (writeEntry e) = false := by
  obtain ⟨c, r, heq, hfirm⟩ : ∃ c r, writeEntry e = c :: r ∧ Firm c := by
    unfold writeEntry
    rcases escape_cases e.1.toList with heq | ⟨c, r, heq, hfirm⟩ <;> rw [heq]
    · exact ⟨'=', _, rfl, by decide, by decide, by decide⟩
    · exact ⟨c, _, rfl, hfirm⟩
  rw [heq]
  exact ⟨by simp [Text.trimLeft, hfirm.inked], by simp [isSkipped, hfirm.entry]⟩

theorem joinLines_writeEntry (n : Nat) (e : String × String) (rest : List (List Char)) :
    joinLines n none (writeEntry e :: rest) =
      ⟨n, writeEntry e⟩ :: joinLines (n + 1) none rest := by
  obtain ⟨htrim, hentry⟩ := writeEntry_cases e
  simp [joinLines, htrim, hentry, isOpen_writeEntry]

theorem lines_write (entries : List (String × String)) :
    lines (entries.flatMap fun e => writeEntry e ++ ['\n']) = entries.map writeEntry := by
  induction entries with
  | nil => rfl
  | cons e entries ih =>
    rw [List.flatMap_cons, List.append_assoc, List.singleton_append,
      lines_append (ne_of_mem_writeEntry e), ih, List.map_cons]

/-! ## Entries -/

theorem foldlM_written (entries kept : List (String × String)) (n : Nat) :
    (joinLines n none (entries.map writeEntry)).foldlM
        (fun kept l => l.entry.map fun e => put e.1 e.2 kept) kept =
      .ok (entries.foldl (fun kept e => put e.1 e.2 kept) kept) := by
  induction entries generalizing kept n with
  | nil => rfl
  | cons e entries ih =>
    rw [List.map_cons, joinLines_writeEntry, List.foldlM_cons, entry_writeEntry]
    exact ih _ _

theorem map_fst_put (key value : String) (entries : List (String × String)) :
    (put key value entries).map Prod.fst =
      if key ∈ entries.map Prod.fst then entries.map Prod.fst
      else entries.map Prod.fst ++ [key] := by
  induction entries with
  | nil => rfl
  | cons e entries ih =>
    obtain ⟨k, v⟩ := e
    by_cases hk : k = key
    · simp [put, hk]
    · by_cases hmem : key ∈ entries.map Prod.fst
      · simp_all [put]
      · simp_all [put, Ne.symm hk]

theorem lookup_cons_eq (e : String × String) (entries : List (String × String)) (key : String) :
    (e :: entries).lookup key = if key = e.1 then some e.2 else entries.lookup key := by
  rw [List.lookup_cons]
  by_cases h : key = e.1
  · simp [h]
  · simp [h, beq_eq_false_iff_ne.2 h]

theorem lookup_put (key value other : String) (entries : List (String × String)) :
    (put key value entries).lookup other =
      if other = key then some value else entries.lookup other := by
  induction entries with
  | nil => rw [put, lookup_cons_eq]
  | cons e entries ih =>
    obtain ⟨k, v⟩ := e
    rw [put, lookup_cons_eq]
    by_cases hk : k = key
    · subst hk
      rw [if_pos rfl, lookup_cons_eq]
      split_ifs <;> rfl
    · rw [if_neg hk, lookup_cons_eq, ih]
      by_cases h : other = k
      · simp [h, hk]
      · simp [h]

theorem map_fst_foldl_put (entries : List (String × String)) :
    (entries.foldl (fun kept e => put e.1 e.2 kept) []).map Prod.fst =
      (entries.map Prod.fst).eraseDups := by
  induction entries using List.reverseRecOn with
  | nil => rfl
  | append_singleton entries e ih =>
    rw [List.foldl_append, List.foldl_cons, List.foldl_nil, map_fst_put, ih, List.map_append,
      List.eraseDups_append]
    by_cases hmem : e.1 ∈ entries.map Prod.fst
    · simp [hmem, List.removeAll]
    · simp [hmem, List.removeAll, List.eraseDups_cons]

theorem lookup_foldl_put (entries : List (String × String)) (key : String) :
    (entries.foldl (fun kept e => put e.1 e.2 kept) []).lookup key =
      entries.reverse.lookup key := by
  induction entries using List.reverseRecOn with
  | nil => rfl
  | append_singleton entries e ih =>
    rw [List.foldl_append, List.foldl_cons, List.foldl_nil, lookup_put, ih, List.reverse_concat,
      lookup_cons_eq]

/-- A text that was written is read back: each key once, where it came first, with the value that
came last. -/
theorem parse_write (entries : List (String × String)) :
    ∃ kept, parse (write entries) = .ok kept ∧
      kept.map Prod.fst = (entries.map Prod.fst).eraseDups ∧
      ∀ key, kept.lookup key = entries.reverse.lookup key := by
  refine ⟨_, ?_, map_fst_foldl_put entries, lookup_foldl_put entries⟩
  rw [parse, write, String.toList_ofList, logicalLines, lines_write]
  exact foldlM_written entries [] 1

end KeyRegistry.Properties
