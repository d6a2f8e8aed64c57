import KeyRegistry.Decimal.Reading
import KeyRegistry.Decimal.Shortest
import KeyRegistry.Text.SmallForm
import Mathlib.Data.List.Basic
import Mathlib.Data.List.TakeDrop
import Mathlib.Data.List.TakeWhile

/-!
# Numbers as they are written

Many texts stand for one number, with zeros in front, a plus sign or a minus before zero. One of
them is tidy, and it is the one that the number is written as. The characters of a number, read or
written, are letters, digits, signs and points.
-/

namespace KeyRegistry

namespace Text

variable {c : Char} {cs ds : List Char} {s : String} {n : Int} {m : Nat}

/-! ## Digits -/

structure Tidy (ds : List Char) : Prop where
  ne_nil : ds ≠ []
  digits : ∀ c ∈ ds, isDigit c = true
  lead : ds.head? = some '0' → ds = ['0']

theorem isDigit_iff_toNat : isDigit c = true ↔ 48 ≤ c.toNat ∧ c.toNat ≤ 57 := by
  simp only [isDigit, Bool.and_eq_true, decide_eq_true_eq]
  exact Iff.rfl

theorem isDigit_eq (c : Char) : isDigit c = c.isDigit := by
  rw [Bool.eq_iff_iff, isDigit_iff_toNat]
  simp only [Char.isDigit, Bool.and_eq_true, decide_eq_true_eq]
  exact Iff.rfl

theorem digitValue_lt (h : isDigit c = true) : digitValue c < 10 := by
  have := isDigit_iff_toNat.1 h
  unfold digitValue
  omega

theorem digitChar_digitValue (h : isDigit c = true) : (digitValue c).digitChar = c := by
  have hall : ∀ d < 10, Nat.digitChar d = Char.ofNat (48 + d) := by decide
  have hc := isDigit_iff_toNat.1 h
  rw [hall _ (digitValue_lt h), digitValue, show 48 + (c.toNat - 48) = c.toNat by omega,
    Char.ofNat_toNat]

/-- Digits that follow a number are the last ones of what they make of it. -/
theorem toDigits_foldl (hm : 0 < m) (hcs : ∀ c ∈ cs, isDigit c = true) :
    Nat.toDigits 10 (cs.foldl (fun n c => n * 10 + digitValue c) m) = Nat.toDigits 10 m ++ cs := by
  induction cs generalizing m with
  | nil => simp
  | cons c cs ih =>
    obtain ⟨hc, hcs⟩ := List.forall_mem_cons.1 hcs
    have hpos : 0 < m * 10 + digitValue c := by omega
    calc Nat.toDigits 10 ((c :: cs).foldl (fun n c => n * 10 + digitValue c) m)
      _ = Nat.toDigits 10 (m * 10 + digitValue c) ++ cs := ih hpos hcs
      _ = Nat.toDigits 10 m ++ [c] ++ cs := by
        rw [Nat.mul_comm m, ← Nat.toDigits_append_toDigits (by decide) hm (digitValue_lt hc),
          Nat.toDigits_of_lt_base (digitValue_lt hc), digitChar_digitValue hc]
      _ = Nat.toDigits 10 m ++ c :: cs := by simp

/-- Tidy digits are those that their number is written with. -/
theorem Tidy.toDigits_eq (h : Tidy ds) : Nat.toDigits 10 (decimalValue ds) = ds := by
  obtain ⟨hne, hdigits, hlead⟩ := h
  obtain ⟨c, cs, rfl⟩ := List.exists_cons_of_ne_nil hne
  obtain ⟨hc, hcs⟩ := List.forall_mem_cons.1 hdigits
  by_cases hzero : c = '0'
  · rw [hlead (by rw [hzero]; rfl)]
    decide
  · have hpos : 0 < digitValue c := by
      have hvalue := digitChar_digitValue hc
      rcases Nat.eq_zero_or_pos (digitValue c) with h0 | hpos
      · rw [h0] at hvalue
        exact absurd hvalue.symm hzero
      · exact hpos
    have hfirst : decimalValue (c :: cs) =
        cs.foldl (fun n c => n * 10 + digitValue c) (digitValue c) := by
      simp [decimalValue, valueIn]
    rw [hfirst, toDigits_foldl hpos hcs, Nat.toDigits_of_lt_base (digitValue_lt hc),
      digitChar_digitValue hc]
    rfl

theorem tidy_toDigits (m : Nat) : Tidy (Nat.toDigits 10 m) := by
  refine ⟨Nat.toDigits_ne_nil, fun c hc => ?_, ?_⟩
  · rw [isDigit_eq]
    exact Nat.isDigit_of_mem_toDigits (by decide) (by decide) hc
  · induction m using Nat.strongRecOn with
    | ind m ih =>
      intro hlead
      rw [Nat.toDigits_eq_if (by decide)] at hlead ⊢
      split_ifs at hlead ⊢ with hm
      · rw [List.head?_cons] at hlead
        rw [Option.some.inj hlead]
      · rw [List.head?_append_of_ne_nil _ Nat.toDigits_ne_nil] at hlead
        have hzero := ih (m / 10) (by omega) hlead
        have hvalue := congrArg (Nat.ofDigitChars 10 · 0) hzero
        simp only [Nat.ofDigitChars_toDigits (by decide : 1 < 10) (by decide)] at hvalue
        have : m / 10 = 0 := hvalue
        omega

theorem natural?_eq_some_iff :
    natural? ds = some m ↔ ds ≠ [] ∧ (∀ c ∈ ds, isDigit c = true) ∧ decimalValue ds = m := by
  simp [natural?, and_assoc]

theorem toDigits_eq_iff (h : natural? ds = some m) : Nat.toDigits 10 m = ds ↔ Tidy ds := by
  obtain ⟨-, -, rfl⟩ := natural?_eq_some_iff.1 h
  constructor
  · intro hds
    exact hds ▸ tidy_toDigits _
  · exact Tidy.toDigits_eq

/-! ## Whole numbers -/

def TidyInteger (cs : List Char) : Prop :=
  Tidy cs ∨ ∃ ds, cs = '-' :: ds ∧ Tidy ds ∧ ds ≠ ['0']

theorem toList_toString_natCast (m : Nat) : (toString (m : Int)).toList = Nat.toDigits 10 m := by
  show (String.ofList (Nat.toDigits 10 m)).toList = _
  exact String.toList_ofList

theorem toList_toString_neg (hm : 0 < m) :
    (toString (-(m : Int))).toList = '-' :: Nat.toDigits 10 m := by
  obtain ⟨k, rfl⟩ := Nat.exists_eq_add_one_of_ne_zero (Nat.pos_iff_ne_zero.1 hm)
  show ("-" ++ String.ofList (Nat.toDigits 10 (k + 1))).toList = _
  simp

theorem cutSign_cases (cs : List Char) : (∃ ds, cs = '-' :: ds ∧ cutSign cs = (true, ds)) ∨
    (∃ ds, cs = '+' :: ds ∧ cutSign cs = (false, ds)) ∨ cutSign cs = (false, cs) := by
  unfold cutSign
  split
  · exact .inl ⟨_, rfl, rfl⟩
  · exact .inr (.inl ⟨_, rfl, rfl⟩)
  · exact .inr (.inr rfl)

theorem integer?_cases (h : integer? cs = some n) :
    (∃ ds m, cs = '-' :: ds ∧ natural? ds = some m ∧ n = -(m : Int)) ∨
      (∃ ds m, cs = '+' :: ds ∧ natural? ds = some m ∧ n = m) ∨
      ∃ m, natural? cs = some m ∧ n = m := by
  have hvalue {ds : List Char} {f : Int → Int}
      (h : (natural? ds >>= fun m => pure (m : Int)).map f = some n) :
      ∃ m : Nat, natural? ds = some m ∧ n = f m := by
    cases hm : natural? ds with
    | none => simp [hm] at h
    | some m => exact ⟨m, rfl, by simpa [hm, eq_comm] using h⟩
  unfold integer? at h
  rcases cutSign_cases cs with ⟨ds, hcs, hcut⟩ | ⟨ds, hcs, hcut⟩ | hcut <;> rw [hcut] at h <;>
    obtain ⟨m, hm, rfl⟩ := hvalue h
  · exact .inl ⟨ds, m, hcs, hm, rfl⟩
  · exact .inr (.inl ⟨ds, m, hcs, hm, rfl⟩)
  · exact .inr (.inr ⟨m, hm, rfl⟩)

/-- A text that stands for a whole number is what the number is written as if and only if it is
tidy. -/
theorem toString_eq_iff (h : integer? s.toList = some n) :
    toString n = s ↔ TidyInteger s.toList := by
  have hminus : ¬isDigit '-' = true := by decide
  have hplus : ¬isDigit '+' = true := by decide
  rw [← String.toList_inj]
  rcases integer?_cases h with ⟨ds, m, hs, hm, rfl⟩ | ⟨ds, m, hs, hm, rfl⟩ | ⟨m, hm, rfl⟩
  · have htidy : TidyInteger s.toList ↔ Tidy ds ∧ ds ≠ ['0'] := by
      rw [hs]
      constructor
      · rintro (htidy | ⟨ds', heq, htidy⟩)
        · exact absurd (htidy.digits '-' (by simp)) hminus
        · obtain rfl : ds = ds' := (List.cons.inj heq).2
          exact htidy
      · exact fun htidy => .inr ⟨ds, rfl, htidy⟩
    rw [htidy, hs, ← toDigits_eq_iff hm]
    rcases Nat.eq_zero_or_pos m with rfl | hpos
    · have hzero : (toString (-((0 : Nat) : Int))).toList = ['0'] := by decide
      rw [hzero]
      constructor
      · exact fun heq => absurd (List.cons.inj heq).1 (by decide)
      · rintro ⟨hds, hne⟩
        exact absurd hds.symm hne
    · rw [toList_toString_neg hpos, List.cons.injEq, and_iff_right rfl, iff_self_and]
      rintro hds rfl
      obtain ⟨-, -, hvalue⟩ := natural?_eq_some_iff.1 hm
      have : m = 0 := hvalue.symm
      omega
  · rw [toList_toString_natCast, hs]
    constructor
    · intro heq
      exact absurd ((tidy_toDigits m).digits '+' (by rw [heq]; simp)) hplus
    · rintro (htidy | ⟨ds', heq, -⟩)
      · exact absurd (htidy.digits '+' (by simp)) hplus
      · exact absurd (List.cons.inj heq).1 (by decide)
  · rw [toList_toString_natCast, toDigits_eq_iff hm]
    constructor
    · exact .inl
    · rintro (htidy | ⟨ds, hs, -⟩)
      · exact htidy
      · obtain ⟨-, hdigits, -⟩ := natural?_eq_some_iff.1 hm
        exact absurd (hdigits '-' (by simp [hs])) hminus

theorem mem_of_integer? (h : integer? cs = some n) (hc : c ∈ cs) :
    isDigit c = true ∨ c = '+' ∨ c = '-' := by
  rcases integer?_cases h with ⟨ds, m, rfl, hm, -⟩ | ⟨ds, m, rfl, hm, -⟩ | ⟨m, hm, -⟩ <;>
    obtain ⟨-, hdigits, -⟩ := natural?_eq_some_iff.1 hm
  · rcases List.mem_cons.1 hc with rfl | hc
    · exact .inr (.inr rfl)
    · exact .inl (hdigits c hc)
  · rcases List.mem_cons.1 hc with rfl | hc
    · exact .inr (.inl rfl)
    · exact .inl (hdigits c hc)
  · exact .inl (hdigits c hc)

/-! ## Characters -/

def InNumber (c : Char) : Prop := c.isAlphanum = true ∨ c = '+' ∨ c = '-' ∨ c = '.'

instance (c : Char) : Decidable (InNumber c) := inferInstanceAs (Decidable (_ ∨ _))

theorem inNumber_of_all (h : cs.all (InNumber ·) = true) : ∀ c ∈ cs, InNumber c := by
  simpa using h

theorem inNumber_of_isDigit (h : isDigit c = true) : InNumber c := by
  rw [isDigit_eq] at h
  exact .inl (by simp [Char.isAlphanum, h])

theorem inNumber_of_integer? (h : integer? cs = some n) (hc : c ∈ cs) : InNumber c := by
  rcases mem_of_integer? h hc with hdigit | rfl | rfl
  · exact inNumber_of_isDigit hdigit
  · decide
  · decide

theorem inNumber_of_mem_toDigits (hc : c ∈ Nat.toDigits 10 m) : InNumber c :=
  inNumber_of_isDigit ((tidy_toDigits m).digits c hc)

/-- A whole number is written in digits, with a sign in front or none. -/
theorem exists_toList_toString (n : Int) :
    ∃ sign ⊆ ['-'], ∃ m, (toString n).toList = sign ++ Nat.toDigits 10 m := by
  rcases Int.eq_nat_or_neg n with ⟨m, rfl | rfl⟩
  · exact ⟨[], List.nil_subset _, m, toList_toString_natCast m⟩
  · rcases Nat.eq_zero_or_pos m with rfl | hpos
    · exact ⟨[], List.nil_subset _, 0, rfl⟩
    · exact ⟨['-'], List.Subset.refl _, m, toList_toString_neg hpos⟩

theorem inNumber_of_mem_toString (hc : c ∈ (toString n).toList) : InNumber c := by
  obtain ⟨sign, hsign, m, heq⟩ := exists_toList_toString n
  rw [heq] at hc
  rcases List.mem_append.1 hc with hc | hc
  · rw [List.mem_singleton.1 (hsign hc)]
    decide
  · exact inNumber_of_mem_toDigits hc

theorem toString_ne_empty (n : Int) : toString n ≠ "" := by
  intro hempty
  obtain ⟨sign, -, m, heq⟩ := exists_toList_toString n
  have hlist := congrArg String.toList hempty
  rw [heq] at hlist
  exact Nat.toDigits_ne_nil (List.append_eq_nil_iff.1 hlist).2

theorem inNumber_of_toLower (h : InNumber c.toLower) : InNumber c := by
  by_cases hupper : c.isUpper = true
  · refine .inl ?_
    show (c.isUpper || c.isLower || c.isDigit) = true
    rw [hupper, Bool.true_or, Bool.true_or]
  · have hself : c.toLower = c := by
      unfold Char.toLower
      exact dif_neg fun hsize => hupper (decide_eq_true hsize)
    rwa [hself] at h

/-- A character within ASCII leaves its small form in the small form of a text. -/
theorem toLower_mem_smallBehind (hc : c ∈ cs) (hascii : c.toNat < 0x80) (before : List Char) :
    c.toLower ∈ smallBehind before cs := by
  have hsigma : c ≠ largeSigma := by
    rintro rfl
    exact absurd hascii (by decide)
  induction cs generalizing before with
  | nil => simp at hc
  | cons d r ih =>
    rw [smallBehind]
    rcases List.mem_cons.1 hc with rfl | hc
    · simp [hsigma, smallForm_of_ascii hascii]
    · exact List.mem_append_right _ (ih hc _)

theorem cutSign_inNumber (h : c ∈ cs) : c ∈ (cutSign cs).2 ∨ InNumber c := by
  rcases cutSign_cases cs with ⟨ds, rfl, hcut⟩ | ⟨ds, rfl, hcut⟩ | hcut <;> rw [hcut]
  · exact (List.mem_cons.1 h).symm.imp_right (by rintro rfl; decide)
  · exact (List.mem_cons.1 h).symm.imp_right (by rintro rfl; decide)
  · exact .inl h

end Text

namespace Decimal

open Text (isDigit InNumber cutSign)

variable {c : Char} {cs : List Char} {x : Float}

theorem inNumber_of_exponent? {e : Int} (h : exponent? cs = some e) (hc : c ∈ cs) :
    InNumber c := by
  cases cs with
  | nil => simp at hc
  | cons d r =>
    simp only [exponent?] at h
    split_ifs at h with hd
    rcases List.mem_cons.1 hc with rfl | hc
    · rcases hd with rfl | rfl <;> decide
    · exact Text.inNumber_of_integer? h hc

theorem inNumber_of_unsigned? (h : unsigned? cs = some x) (hc : c ∈ cs) : InNumber c := by
  have hcut {cs : List Char} {c : Char} (hc : c ∈ cs) : c ∈ (cs.span isDigit).2 ∨ InNumber c := by
    rw [← List.takeWhile_append_dropWhile (p := isDigit) (l := cs)] at hc
    rw [List.span_eq_takeWhile_dropWhile]
    exact (List.mem_append.1 hc).symm.imp_right fun hc =>
      Text.inNumber_of_isDigit (List.mem_takeWhile_imp hc)
  simp only [unsigned?] at h
  split_ifs at h with hempty
  · cases h
  obtain ⟨e, he, -⟩ := Option.bind_eq_some_iff.1 h
  rcases hcut hc with hrest | hin
  · split at he <;> rename_i hspan
    · rw [hspan] at hrest
      rcases List.mem_cons.1 hrest with rfl | hrest
      · decide
      · exact (hcut hrest).elim (inNumber_of_exponent? he) id
    · exact inNumber_of_exponent? he hrest
  · exact hin

theorem inNumber_of_float? (h : float? cs = some x) (hc : c ∈ cs) : InNumber c := by
  have hword {size : List Char} {word : String}
      (hsize : String.ofList (size.map Char.toLower) = word)
      (hletters : ∀ c ∈ word.toList, InNumber c) (hc : c ∈ size) : InNumber c := by
    refine Text.inNumber_of_toLower (hletters _ ?_)
    rw [← hsize, String.toList_ofList]
    exact List.mem_map_of_mem hc
  simp only [float?] at h
  rcases Text.cutSign_inNumber hc with hc | hin
  · split at h
    · rename_i hinf
      rcases hinf with hinf | hinf <;>
        exact hword hinf (Text.inNumber_of_all (by decide)) hc
    · split at h
      · rename_i hnan
        exact hword hnan (Text.inNumber_of_all (by decide)) hc
      · obtain ⟨y, hy, -⟩ := Option.bind_eq_some_iff.1 h
        exact inNumber_of_unsigned? hy hc
  · exact hin

theorem inNumber_of_positional {n : Nat} {place : Int} (hc : c ∈ positional n place) :
    InNumber c := by
  have hzeros {k : Nat} (hc : c ∈ List.replicate k '0') : InNumber c := by
    rw [List.eq_of_mem_replicate hc]
    decide
  unfold positional at hc
  cases place with
  | ofNat k => exact (List.mem_append.1 hc).elim Text.inNumber_of_mem_toDigits hzeros
  | negSucc k =>
    have hpadded {r : List Char}
        (hr : r ⊆ List.replicate (k + 2 - (Nat.toDigits 10 n).length) '0' ++ Nat.toDigits 10 n)
        (hc : c ∈ r) : InNumber c :=
      (List.mem_append.1 (hr hc)).elim hzeros Text.inNumber_of_mem_toDigits
    rcases List.mem_append.1 hc with hc | hc
    · exact hpadded (List.take_subset ..) hc
    · rcases List.mem_cons.1 hc with rfl | hc
      · decide
      · exact hpadded (List.drop_subset ..) hc

theorem positional_ne_nil (n : Nat) (place : Int) : positional n place ≠ [] := by
  cases place with
  | ofNat k => exact List.append_ne_nil_of_left_ne_nil Nat.toDigits_ne_nil _
  | negSucc k => exact List.append_ne_nil_of_right_ne_nil _ (List.cons_ne_nil _ _)

/-- A float is written as a size, with a sign in front or none. -/
theorem exists_text_eq_signed (x : Float) :
    ∃ negative size, text x = signed negative size ∧ size ≠ [] ∧ ∀ c ∈ size, InNumber c := by
  unfold text
  cases read x with
  | finite negative size =>
    refine ⟨negative, size.text, rfl, ?_⟩
    unfold Magnitude.text
    split_ifs
    · exact ⟨List.cons_ne_nil _ _, Text.inNumber_of_all (by decide)⟩
    · exact ⟨positional_ne_nil _ _, fun c hc => inNumber_of_positional hc⟩
  | infinite negative =>
    exact ⟨negative, _, rfl, List.cons_ne_nil _ _, Text.inNumber_of_all (by decide)⟩
  | undefined =>
    exact ⟨false, _, rfl, List.cons_ne_nil _ _, Text.inNumber_of_all (by decide)⟩

theorem inNumber_of_mem_text (hc : c ∈ text x) : InNumber c := by
  obtain ⟨negative, size, htext, -, hsize⟩ := exists_text_eq_signed x
  rw [htext] at hc
  cases negative with
  | false => exact hsize c hc
  | true =>
    rcases List.mem_cons.1 hc with rfl | hc
    · decide
    · exact hsize c hc

theorem text_ne_nil (x : Float) : text x ≠ [] := by
  obtain ⟨negative, size, htext, hsize, -⟩ := exists_text_eq_signed x
  rw [htext]
  cases negative with
  | false => exact hsize
  | true => exact List.cons_ne_nil _ _

end Decimal

end KeyRegistry
