import KeyRegistry.Proofs.Properties.Layout
import KeyRegistry.Proofs.Properties.RoundTrip
import Mathlib.Tactic.IntervalCases

/-!
# Codes in properties text

A backslash that no other backslash escapes starts an escape, and one with `u` behind it asks
for a code: four hexadecimal digits, in either case, that denote a character. A raw key or
value is `Coded` if there is a code wherever one is asked for, and `Decodes` says what it then
stands for. A text is read if all its logical lines are coded; otherwise its fault names the
first that is not, by the physical line on which it starts.

One spelling is let through beside these: a plus sign and three digits in the place of a code.
Texts that hold it (`Signed`) are left out.
-/

namespace KeyRegistry.Properties

def HexDigit (c : Char) (value : Nat) : Prop :=
  "0123456789abcdef".toList[value]? = some c ∨ "0123456789ABCDEF".toList[value]? = some c

inductive Code : List Char → Char → Prop
  | digits {a b c d x i j k l} :
      HexDigit a i → HexDigit b j → HexDigit c k → HexDigit d l →
      x.toNat = ((i * 16 + j) * 16 + k) * 16 + l → Code [a, b, c, d] x

/-- A code is asked for, and `rest` is what stands in its place and behind. -/
def Asks (raw rest : List Char) : Prop :=
  ∃ before, raw = before ++ '\\' :: 'u' :: rest ∧ isOpen before = false

def StartsCoded (rest : List Char) : Prop :=
  ∃ code x more, rest = code ++ more ∧ Code code x

def Coded (raw : List Char) : Prop := ∀ rest, Asks raw rest → StartsCoded rest

def Signed (raw : List Char) : Prop :=
  ∃ a b c i j k more, Asks raw ('+' :: a :: b :: c :: more) ∧
    HexDigit a i ∧ HexDigit b j ∧ HexDigit c k

inductive Decodes : List Char → List Char → Prop
  | nil : Decodes [] []
  | lone : Decodes ['\\'] []
  | plain {c raw out} : c ≠ '\\' → Decodes raw out → Decodes (c :: raw) (c :: out)
  | escape {e raw out} :
      e ≠ 'u' → Decodes raw out → Decodes ('\\' :: e :: raw) (escapeValue e :: out)
  | code {code x raw out} :
      Code code x → Decodes raw out → Decodes ('\\' :: 'u' :: (code ++ raw)) (x :: out)

/-- What stands in the place of the first code that is not there, four characters at most. -/
def Lacks (raw code : List Char) : Prop :=
  ∃ before rest, raw = before ++ '\\' :: 'u' :: rest ∧ isOpen before = false ∧
    Coded before ∧ ¬ StartsCoded rest ∧ code = rest.take 4

variable {a b c d e x : Char} {i n : Nat} {raw rest code out : List Char}

/-! ## Digits -/

theorem hexDigit?_eq_some_iff : Text.hexDigit? c = some i ↔ HexDigit c i := by
  constructor
  · intro h
    have hchar := Char.ofNat_toNat c
    simp only [Text.hexDigit?, Text.isDigit, Text.digitValue, Bool.and_eq_true, decide_eq_true_eq,
      Char.le_def, UInt32.le_iff_toNat_le] at h
    change (if 48 ≤ c.toNat ∧ c.toNat ≤ 57 then some (c.toNat - 48)
      else if 97 ≤ c.toNat ∧ c.toNat ≤ 102 then some (c.toNat - 87)
      else if 65 ≤ c.toNat ∧ c.toNat ≤ 70 then some (c.toNat - 55) else none) = some i at h
    generalize c.toNat = n at h hchar
    subst hchar
    split_ifs at h with hdigit hsmall hlarge
    all_goals
      obtain rfl := Option.some.inj h
      unfold HexDigit
    · obtain ⟨hlow, hhigh⟩ := hdigit
      interval_cases n <;> decide
    · obtain ⟨hlow, hhigh⟩ := hsmall
      interval_cases n <;> decide
    · obtain ⟨hlow, hhigh⟩ := hlarge
      interval_cases n <;> decide
  · intro h
    have hlt : i < 16 := by
      rcases h with h | h <;> exact (List.getElem?_eq_some_iff.1 h).1
    rcases h with h | h <;> interval_cases i <;> obtain rfl := Option.some.inj h <;> decide

theorem HexDigit.ne_backslash (h : HexDigit c i) : c ≠ '\\' := by
  rintro rfl
  exact absurd (hexDigit?_eq_some_iff.2 h) (by simp [show Text.hexDigit? '\\' = none by decide])

theorem HexDigit.ne_plus (h : HexDigit c i) : c ≠ '+' := by
  rintro rfl
  exact absurd (hexDigit?_eq_some_iff.2 h) (by simp [show Text.hexDigit? '+' = none by decide])

theorem hexValue?_three :
    Text.hexValue? [a, b, c] = some n ↔
      ∃ i j k, HexDigit a i ∧ HexDigit b j ∧ HexDigit c k ∧ n = (i * 16 + j) * 16 + k := by
  simp only [Text.hexValue?, List.foldlM_cons, List.foldlM_nil, Option.pure_def,
    Option.bind_eq_bind, Option.bind_eq_some_iff, Option.map_eq_some_iff, hexDigit?_eq_some_iff]
  constructor
  · rintro ⟨_, ⟨i, ha, rfl⟩, _, ⟨j, hb, rfl⟩, _, ⟨k, hc, rfl⟩, hn⟩
    exact ⟨i, j, k, ha, hb, hc, by simpa using hn.symm⟩
  · rintro ⟨i, j, k, ha, hb, hc, rfl⟩
    exact ⟨_, ⟨i, ha, rfl⟩, _, ⟨j, hb, rfl⟩, _, ⟨k, hc, rfl⟩, by simp⟩

theorem hexValue?_four :
    Text.hexValue? [a, b, c, d] = some n ↔
      ∃ i j k l, HexDigit a i ∧ HexDigit b j ∧ HexDigit c k ∧ HexDigit d l ∧
        n = ((i * 16 + j) * 16 + k) * 16 + l := by
  simp only [Text.hexValue?, List.foldlM_cons, List.foldlM_nil, Option.pure_def,
    Option.bind_eq_bind, Option.bind_eq_some_iff, Option.map_eq_some_iff, hexDigit?_eq_some_iff]
  constructor
  · rintro ⟨_, ⟨i, ha, rfl⟩, _, ⟨j, hb, rfl⟩, _, ⟨k, hc, rfl⟩, _, ⟨l, hd, rfl⟩, hn⟩
    exact ⟨i, j, k, l, ha, hb, hc, hd, by simpa using hn.symm⟩
  · rintro ⟨i, j, k, l, ha, hb, hc, hd, rfl⟩
    exact ⟨_, ⟨i, ha, rfl⟩, _, ⟨j, hb, rfl⟩, _, ⟨k, hc, rfl⟩, _, ⟨l, hd, rfl⟩, by simp⟩

/-! ## Codes -/

theorem codeChar?_eq_some_iff (h : a ≠ '+') :
    codeChar? a b c d = some x ↔ Code [a, b, c, d] x := by
  simp only [codeChar?, if_neg h, Option.bind_eq_bind, Option.bind_eq_some_iff, hexValue?_four]
  constructor
  · rintro ⟨n, ⟨i, j, k, l, ha, hb, hc, hd, rfl⟩, hx⟩
    split_ifs at hx with hvalid
    obtain rfl := Option.some.inj hx
    refine .digits ha hb hc hd ?_
    rw [Char.ofNat, dif_pos hvalid]
    rfl
  · rintro ⟨ha, hb, hc, hd, hx⟩
    refine ⟨x.toNat, ⟨_, _, _, _, ha, hb, hc, hd, hx⟩, ?_⟩
    have hvalid : x.toNat.isValidChar := x.valid
    rw [if_pos hvalid, Char.ofNat_toNat]

theorem digits_of_codeChar?_plus (h : codeChar? '+' b c d = some x) :
    ∃ i j k, HexDigit b i ∧ HexDigit c j ∧ HexDigit d k := by
  simp only [codeChar?, if_true, Option.bind_eq_bind, Option.bind_eq_some_iff,
    hexValue?_three] at h
  obtain ⟨_, ⟨i, j, k, hb, hc, hd, -⟩, -⟩ := h
  exact ⟨i, j, k, hb, hc, hd⟩

theorem Code.length (h : Code code x) : code.length = 4 := by
  cases h
  rfl

theorem Code.ne_backslash (h : Code code x) : '\\' ∉ code := by
  obtain ⟨ha, hb, hc, hd, -⟩ := h
  simp [ha.ne_backslash.symm, hb.ne_backslash.symm, hc.ne_backslash.symm, hd.ne_backslash.symm]

theorem startsCoded_of_four (h : StartsCoded (a :: b :: c :: d :: rest)) :
    ∃ x, codeChar? a b c d = some x := by
  obtain ⟨code, x, more, heq, hcode⟩ := h
  cases hcode with
  | digits ha hb hc hd hx =>
    simp only [List.cons_append, List.nil_append, List.cons.injEq] at heq
    obtain ⟨rfl, rfl, rfl, rfl, -⟩ := heq
    exact ⟨x, (codeChar?_eq_some_iff ha.ne_plus).2 (.digits ha hb hc hd hx)⟩

theorem StartsCoded.length (h : StartsCoded rest) : 4 ≤ rest.length := by
  obtain ⟨code, x, more, rfl, hcode⟩ := h
  simp [hcode.length]

theorem StartsCoded.append (h : StartsCoded rest) (raw : List Char) :
    StartsCoded (rest ++ raw) := by
  obtain ⟨code, x, more, rfl, hcode⟩ := h
  exact ⟨code, x, more ++ raw, by rw [List.append_assoc], hcode⟩

/-! ## Where codes are asked for -/

/-- What stands before a backslash escapes it or not, whatever stood before that. -/
theorem isOpen_append (h : isOpen raw = false) (rest : List Char) :
    isOpen (raw ++ rest) = isOpen rest := by
  simp only [isOpen, List.reverse_append, List.takeWhile_append] at h ⊢
  split_ifs with hall
  · simp only [beq_eq_false_iff_ne] at h
    rw [List.length_append, ← hall]
    have hparity (m n : Nat) (hn : n % 2 ≠ 1) : ((m + n) % 2 == 1) = (m % 2 == 1) := by
      rw [show (m + n) % 2 = m % 2 by omega]
    exact hparity _ _ h
  · rfl

theorem isOpen_concat_backslash (h : isOpen raw = false) : isOpen (raw ++ ['\\']) = true := by
  rw [isOpen_append h]
  rfl

theorem asks_append (h : isOpen raw = false) (raw' : List Char) :
    Asks (raw ++ raw') rest ↔ (∃ r, Asks raw r ∧ rest = r ++ raw') ∨ Asks raw' rest := by
  constructor
  · rintro ⟨before, heq, hbefore⟩
    rcases List.append_eq_append_iff.1 heq with ⟨more, rfl, hraw'⟩ | ⟨more, hraw, hmore⟩
    · rw [isOpen_append h] at hbefore
      exact .inr ⟨more, hraw', hbefore⟩
    · match more, hmore with
      | [], hmore => exact .inr ⟨[], hmore.symm, rfl⟩
      | [_], hmore =>
        obtain ⟨rfl, -⟩ := List.cons.inj hmore
        rw [hraw, isOpen_concat_backslash hbefore] at h
        cases h
      | _ :: _ :: r, hmore =>
        simp only [List.cons_append, List.cons.injEq] at hmore
        obtain ⟨rfl, rfl, rfl⟩ := hmore
        exact .inl ⟨r, ⟨before, hraw, hbefore⟩, rfl⟩
  · rintro (⟨r, ⟨before, rfl, hbefore⟩, rfl⟩ | ⟨before, rfl, hbefore⟩)
    · exact ⟨before, by simp, hbefore⟩
    · exact ⟨raw ++ before, by simp, by rw [isOpen_append h, hbefore]⟩

theorem Signed.append (h : isOpen raw = false) {raw' : List Char} (hsigned : Signed raw') :
    Signed (raw ++ raw') := by
  obtain ⟨a, b, c, i, j, k, more, hasks, hdigits⟩ := hsigned
  exact ⟨a, b, c, i, j, k, more, (asks_append h raw').2 (.inr hasks), hdigits⟩

theorem Coded.append (h : isOpen raw = false) (hraw : Coded raw) {raw' : List Char}
    (hraw' : Coded raw') : Coded (raw ++ raw') := by
  intro rest hasks
  rcases (asks_append h raw').1 hasks with ⟨r, hr, rfl⟩ | hrest
  · exact (hraw r hr).append raw'
  · exact hraw' rest hrest

theorem Lacks.append (h : isOpen raw = false) (hraw : Coded raw) {raw' : List Char}
    (hlacks : Lacks raw' code) : Lacks (raw ++ raw') code := by
  obtain ⟨before, rest, rfl, hbefore, hcoded, hnot, rfl⟩ := hlacks
  exact ⟨raw ++ before, rest, by simp, by rw [isOpen_append h, hbefore], hraw.append h hcoded,
    hnot, rfl⟩

theorem Lacks.not_coded (h : Lacks raw code) : ¬ Coded raw := by
  obtain ⟨before, rest, heq, hbefore, -, hnot, -⟩ := h
  exact fun hcoded => hnot (hcoded rest ⟨before, heq, hbefore⟩)

/-! ## The pieces of a raw text -/

theorem not_asks_nil : ¬ Asks [] rest := by
  rintro ⟨before, heq, -⟩
  cases before <;> cases heq

theorem not_asks_singleton (c : Char) : ¬ Asks [c] rest := by
  rintro ⟨before, heq, -⟩
  have hlength := congrArg List.length heq
  simp at hlength
  omega

theorem asks_pair : Asks ['\\', e] rest → e = 'u' := by
  rintro ⟨before, heq, -⟩
  match before, heq with
  | [], heq => cases heq; rfl
  | [_], heq => cases heq
  | _ :: _ :: _, heq => simpa using congrArg List.length heq

theorem coded_nil : Coded [] := fun _ h => absurd h not_asks_nil

theorem coded_singleton (c : Char) : Coded [c] := fun _ h => absurd h (not_asks_singleton c)

theorem coded_pair (h : e ≠ 'u') : Coded ['\\', e] := fun _ hasks => absurd (asks_pair hasks) h

theorem isOpen_pair_left (e : Char) : isOpen ['\\', e] = false := by
  have hnil : isOpen [] = false := rfl
  simpa using isOpen_escaped e hnil

theorem Code.isOpen (h : Code code x) : isOpen ('\\' :: 'u' :: code) = false := by
  obtain ⟨ha, hb, hc, hd, -⟩ := h
  simp [Properties.isOpen, hd.ne_backslash]

theorem Code.coded (h : Code code x) : Coded ('\\' :: 'u' :: code) := by
  rintro rest ⟨before, heq, -⟩
  match before, heq with
  | [], heq =>
    simp only [List.nil_append, List.cons.injEq, true_and] at heq
    exact ⟨code, x, [], by rw [List.append_nil, heq], h⟩
  | [_], heq => simp at heq
  | _ :: _ :: before, heq =>
    simp only [List.cons_append, List.cons.injEq] at heq
    exact absurd (by rw [heq.2.2]; simp) h.ne_backslash

theorem Decodes.coded (h : Decodes raw out) : Coded raw := by
  induction h with
  | nil => exact coded_nil
  | lone => exact coded_singleton _
  | plain hc _ ih => exact (coded_singleton _).append (by simp [Properties.isOpen, hc]) ih
  | escape he _ ih => exact (coded_pair he).append (isOpen_pair_left _) ih
  | code hcode _ ih => exact hcode.coded.append hcode.isOpen ih

/-! ## Reading a key or value -/

/-- The reading of a raw text is right: it is decoded, or the first code missing is named. -/
def Agrees (raw : List Char) : Except (List Char) (List Char) → Prop
  | .ok out => Decodes raw out
  | .error code => Lacks raw code

theorem Agrees.append {piece : List Char} {reading : Except (List Char) (List Char)}
    (h : Agrees raw reading) (hopen : isOpen piece = false) (hcoded : Coded piece)
    (hdecodes : ∀ out, Decodes raw out → Decodes (piece ++ raw) (x :: out)) :
    Agrees (piece ++ raw) (reading.map (x :: ·)) := by
  cases reading with
  | ok out => exact hdecodes out h
  | error code => exact Lacks.append hopen hcoded h

/-- A code that is asked for at the front and is not there is the first one missing. -/
theorem lacks_front (rest : List Char) (h : ¬ StartsCoded rest) :
    Lacks ('\\' :: 'u' :: rest) (rest.take 4) :=
  ⟨[], rest, rfl, rfl, coded_nil, h, rfl⟩

theorem agrees_unescape (h : ¬ Signed raw) : Agrees raw (unescape raw) := by
  fun_induction unescape raw with
  | case1 => exact .nil
  | case2 => exact .lone
  | case3 a b c d r x hx ih =>
    have hplus : a ≠ '+' := by
      rintro rfl
      obtain ⟨i, j, k, hdigits⟩ := digits_of_codeChar?_plus hx
      exact h ⟨b, c, d, i, j, k, r, ⟨[], rfl, rfl⟩, hdigits⟩
    have hcode : Code [a, b, c, d] x := (codeChar?_eq_some_iff hplus).1 hx
    have hagrees := ih fun hsigned => h (hsigned.append hcode.isOpen)
    exact hagrees.append hcode.isOpen hcode.coded fun _ hout => .code hcode hout
  | case4 a b c d r hnone =>
    refine lacks_front (a :: b :: c :: d :: r) fun hstarts => ?_
    obtain ⟨x, hx⟩ := startsCoded_of_four hstarts
    rw [hnone] at hx
    cases hx
  | case5 short hshort =>
    have hlength : short.length < 4 := by
      match short, hshort with
      | [], _ | [_], _ | [_, _], _ | [_, _, _], _ => simp
      | a :: b :: c :: d :: r, hshort => exact absurd rfl (hshort a b c d r)
    have hlacks := lacks_front short fun hstarts => by
      have := hstarts.length
      omega
    rwa [List.take_of_length_le hlength.le] at hlacks
  | case6 e r hfour hu ih =>
    have hne : e ≠ 'u' := by
      rintro rfl
      exact hu rfl
    have hagrees := ih fun hsigned => h (hsigned.append (isOpen_pair_left e))
    exact hagrees.append (isOpen_pair_left e) (coded_pair hne) fun _ hout => .escape hne hout
  | case7 c r hlone hfour hu hescape ih =>
    have hne : c ≠ '\\' := by
      rintro rfl
      cases r with
      | nil => exact hlone rfl rfl
      | cons e r => exact hescape e r rfl rfl
    have hopen : isOpen [c] = false := by simp [isOpen, hne]
    have hagrees := ih fun hsigned => h (hsigned.append hopen)
    exact hagrees.append hopen (coded_singleton c) fun _ hout => .plain hne hout

theorem not_signed_of_not_mem (h : '+' ∉ raw) : ¬ Signed raw := by
  rintro ⟨a, b, c, i, j, k, more, ⟨before, rfl, -⟩, -⟩
  simp at h

/-! ## Reading a line -/

namespace Logical

variable {l : Logical}

def keyText (l : Logical) : List Char := (cutKey l.text).1

def valueText (l : Logical) : List Char := rawValue (cutKey l.text).2

def Coded (l : Logical) : Prop :=
  Properties.Coded l.keyText ∧ Properties.Coded l.valueText

def Signed (l : Logical) : Prop :=
  Properties.Signed l.keyText ∨ Properties.Signed l.valueText

def Decodes (l : Logical) (e : String × String) : Prop :=
  Properties.Decodes l.keyText e.1.toList ∧ Properties.Decodes l.valueText e.2.toList

/-- The first code that a line lacks; the key is looked at before the value. -/
def Lacks (l : Logical) (code : List Char) : Prop :=
  Properties.Lacks l.keyText code ∨
    Properties.Coded l.keyText ∧ Properties.Lacks l.valueText code

theorem Decodes.coded {e : String × String} (h : l.Decodes e) : l.Coded :=
  ⟨Properties.Decodes.coded h.1, Properties.Decodes.coded h.2⟩

theorem Lacks.not_coded {code : List Char} (h : l.Lacks code) : ¬ l.Coded := by
  rintro ⟨hkey, hvalue⟩
  rcases h with h | ⟨-, h⟩
  · exact Properties.Lacks.not_coded h hkey
  · exact Properties.Lacks.not_coded h hvalue

theorem entry_cases (h : ¬ l.Signed) :
    (∃ e, l.entry = .ok e ∧ l.Decodes e) ∨
      ∃ code, l.entry = .error (malformed l.line code) ∧ l.Lacks code := by
  have hkey := agrees_unescape fun hsigned => h (.inl hsigned)
  have hvalue := agrees_unescape fun hsigned => h (.inr hsigned)
  have hentry : l.entry = (do
      let key ← (unescape l.keyText).mapError (malformed l.line)
      let value ← (unescape l.valueText).mapError (malformed l.line)
      return (String.ofList key, String.ofList value)) := rfl
  rw [hentry]
  cases hk : unescape l.keyText with
  | error code =>
    rw [hk] at hkey
    exact .inr ⟨code, rfl, .inl hkey⟩
  | ok key =>
    rw [hk] at hkey
    have hkey : Properties.Decodes l.keyText key := hkey
    cases hv : unescape l.valueText with
    | error code =>
      rw [hv] at hvalue
      exact .inr ⟨code, rfl, .inr ⟨hkey.coded, hvalue⟩⟩
    | ok value =>
      rw [hv] at hvalue
      have hvalue : Properties.Decodes l.valueText value := hvalue
      refine .inl ⟨(String.ofList key, String.ofList value), rfl, ?_, ?_⟩
      · rwa [String.toList_ofList]
      · rwa [String.toList_ofList]

theorem decodes_of_entry (h : ¬ l.Signed) {e : String × String} (he : l.entry = .ok e) :
    l.Decodes e := by
  rcases entry_cases h with ⟨e', he', hdecodes⟩ | ⟨code, herror, -⟩
  · rw [he] at he'
    cases he'
    exact hdecodes
  · rw [he] at herror
    cases herror

theorem lacks_of_entry (h : ¬ l.Signed) {f : Fault} (hf : l.entry = .error f) :
    ∃ code, f = malformed l.line code ∧ l.Lacks code := by
  rcases entry_cases h with ⟨e, he, -⟩ | ⟨code, herror, hlacks⟩
  · rw [hf] at he
    cases he
  · rw [hf] at herror
    cases herror
    exact ⟨code, rfl, hlacks⟩

end Logical

/-! ## Reading a text -/

/-- Either every line gives an entry and these are put one after the other, or the fault of the
first line that gives none is the answer. -/
theorem foldlM_entry (ls : List Logical) (kept : List (String × String)) :
    (∃ pairs, List.Forall₂ (fun l e => l.entry = .ok e) ls pairs ∧
      ls.foldlM (fun kept l => l.entry.map fun e => put e.1 e.2 kept) kept =
        .ok (pairs.foldl (fun kept e => put e.1 e.2 kept) kept)) ∨
      ∃ before l after f, ls = before ++ l :: after ∧
        (∀ m ∈ before, ∃ e, m.entry = .ok e) ∧ l.entry = .error f ∧
        ls.foldlM (fun kept l => l.entry.map fun e => put e.1 e.2 kept) kept = .error f := by
  induction ls generalizing kept with
  | nil => exact .inl ⟨[], .nil, rfl⟩
  | cons l ls ih =>
    rw [List.foldlM_cons]
    cases hentry : l.entry with
    | error f => exact .inr ⟨[], l, ls, f, rfl, by simp, hentry, rfl⟩
    | ok e =>
      rcases ih (put e.1 e.2 kept) with ⟨pairs, hpairs, hfold⟩ |
        ⟨before, m, after, f, rfl, hbefore, hm, hfold⟩
      · exact .inl ⟨e :: pairs, .cons hentry hpairs, hfold⟩
      · exact .inr ⟨l :: before, m, after, f, rfl,
          List.forall_mem_cons.2 ⟨⟨e, hentry⟩, hbefore⟩, hm, hfold⟩

theorem forall₂_decodes {ls : List Logical} {pairs : List (String × String)}
    (hunsigned : ∀ l ∈ ls, ¬ l.Signed)
    (h : List.Forall₂ (fun l e => l.entry = .ok e) ls pairs) :
    List.Forall₂ Logical.Decodes ls pairs ∧ ∀ l ∈ ls, l.Coded := by
  induction h with
  | nil => exact ⟨.nil, by simp⟩
  | cons hentry _ ih =>
    obtain ⟨hl, hls⟩ := List.forall_mem_cons.1 hunsigned
    have hdecodes := Logical.decodes_of_entry hl hentry
    obtain ⟨hall, hcoded⟩ := ih hls
    exact ⟨.cons hdecodes hall, List.forall_mem_cons.2 ⟨hdecodes.coded, hcoded⟩⟩

/-- A text without signed codes is read if and only if there is a code wherever one is asked
for, and each code gives the character that it denotes. Otherwise the answer is the fault of the
first line that lacks a code, with the physical line on which it starts. -/
theorem parse_ok_iff_coded (text : String)
    (hunsigned : ∀ l ∈ logicalLines text.toList, ¬ l.Signed) :
    Layout 1 (lines text.toList) (logicalLines text.toList) ∧
    ((∃ kept, parse text = .ok kept) ↔ ∀ l ∈ logicalLines text.toList, l.Coded) ∧
    (∀ kept, parse text = .ok kept →
      ∃ pairs, List.Forall₂ Logical.Decodes (logicalLines text.toList) pairs ∧
        kept = pairs.foldl (fun kept e => put e.1 e.2 kept) []) ∧
    ((¬ ∀ l ∈ logicalLines text.toList, l.Coded) →
      ∃ before l after code, logicalLines text.toList = before ++ l :: after ∧
        (∀ m ∈ before, m.Coded) ∧ l.Lacks code ∧
        parse text = .error (malformed l.line code)) := by
  refine ⟨layout_logicalLines text.toList, ?_⟩
  generalize hls : logicalLines text.toList = ls at hunsigned
  rw [parse, hls]
  rcases foldlM_entry ls [] with ⟨pairs, hpairs, hfold⟩ |
    ⟨before, l, after, f, hsplit, hbefore, hentry, hfold⟩ <;> rw [hfold]
  · obtain ⟨hall, hcoded⟩ := forall₂_decodes hunsigned hpairs
    refine ⟨⟨fun _ => hcoded, fun _ => ⟨_, rfl⟩⟩, ?_, fun hnot => absurd hcoded hnot⟩
    rintro _ ⟨⟩
    exact ⟨pairs, hall, rfl⟩
  · have hl : l ∈ ls := by simp [hsplit]
    obtain ⟨code, rfl, hcode⟩ := Logical.lacks_of_entry (hunsigned l hl) hentry
    have hnot : ¬ ∀ l ∈ ls, l.Coded := fun hall => hcode.not_coded (hall l hl)
    refine ⟨⟨by rintro ⟨_, ⟨⟩⟩, fun hall => absurd hall hnot⟩, by rintro _ ⟨⟩, fun _ => ?_⟩
    refine ⟨before, l, after, code, hsplit, fun m hm => ?_, hcode, rfl⟩
    obtain ⟨e, he⟩ := hbefore m hm
    exact (Logical.decodes_of_entry (hunsigned m (by simp [hsplit, hm])) he).coded

/-- A surrogate is no character. The entry starts on the second line and goes on on the third. -/
theorem parse_surrogate :
    (∀ l ∈ logicalLines "a\\u0041=1\nb=2,\\\n  \\ud800\n".toList, ¬ l.Signed) ∧
    (¬ ∀ l ∈ logicalLines "a\\u0041=1\nb=2,\\\n  \\ud800\n".toList, l.Coded) ∧
    ∃ l ∈ logicalLines "a\\u0041=1\nb=2,\\\n  \\ud800\n".toList, ∃ code, l.Lacks code ∧
      parse "a\\u0041=1\nb=2,\\\n  \\ud800\n" = .error (malformed l.line code) ∧
      malformed l.line code = ⟨2, "malformed \\u escape '\\ud800'"⟩ := by
  have hplain : ∀ l ∈ logicalLines "a\\u0041=1\nb=2,\\\n  \\ud800\n".toList,
      '+' ∉ l.keyText ∧ '+' ∉ l.valueText := by decide
  have hunsigned : ∀ l ∈ logicalLines "a\\u0041=1\nb=2,\\\n  \\ud800\n".toList, ¬ l.Signed := by
    rintro l hl (hkey | hvalue)
    · exact not_signed_of_not_mem (hplain l hl).1 hkey
    · exact not_signed_of_not_mem (hplain l hl).2 hvalue
  have hparse : parse "a\\u0041=1\nb=2,\\\n  \\ud800\n" =
      .error ⟨2, "malformed \\u escape '\\ud800'"⟩ := by decide
  obtain ⟨-, hread, -, hfault⟩ := parse_ok_iff_coded _ hunsigned
  have hnot : ¬ ∀ l ∈ logicalLines "a\\u0041=1\nb=2,\\\n  \\ud800\n".toList, l.Coded := by
    intro hall
    obtain ⟨kept, hkept⟩ := hread.2 hall
    rw [hparse] at hkept
    cases hkept
  obtain ⟨before, l, after, code, hsplit, -, hlacks, herror⟩ := hfault hnot
  refine ⟨hunsigned, hnot, l, by rw [hsplit]; simp, code, hlacks, herror, ?_⟩
  rw [hparse] at herror
  exact (Except.error.inj herror).symm

/-- A plus sign with three digits passes for a code. -/
theorem parse_signed_code :
    ¬ ∀ text, (∃ kept, parse text = .ok kept) → ∀ l ∈ logicalLines text.toList, l.Coded := by
  intro h
  have hl : (⟨1, "a=\\u+041".toList⟩ : Logical) ∈ logicalLines "a=\\u+041".toList := by decide
  obtain ⟨-, hvalue⟩ := h "a=\\u+041" ⟨[("a", "A")], by decide⟩ _ hl
  obtain ⟨code, x, more, heq, hcode⟩ := hvalue ['+', '0', '4', '1'] ⟨[], by decide, rfl⟩
  cases hcode with
  | digits ha =>
    obtain ⟨rfl, -⟩ := List.cons.inj heq
    exact ha.ne_plus rfl

end KeyRegistry.Properties
