import KeyRegistry.Proofs.Path.Names
import KeyRegistry.Text.Utf8
import KeyRegistry.Tree
import Mathlib.Algebra.Group.Nat.Defs

/-!
# Numbered names

The number behind a sequential name is made of digits, perhaps behind a sign, so
the numbered path is valid again and has the same parent. Numbers that are not
negative have ten digits, so their names are ordered as they are.
-/

namespace KeyRegistry

open KeyRegistry.Path

def IsFigure (c : Char) : Prop := c = '-' ∨ ∃ d < 10, c = Text.digitChar d

theorem IsFigure.of_isDigit {c : Char} (h : c.isDigit = true) : IsFigure c := by
  simp only [Char.isDigit, Bool.and_eq_true, decide_eq_true_eq] at h
  have h₁ : 48 ≤ c.toNat := UInt32.le_iff_toNat_le.1 h.1
  have h₂ : c.toNat ≤ 57 := UInt32.le_iff_toNat_le.1 h.2
  refine .inr ⟨c.toNat - 48, by omega, ?_⟩
  rw [Text.digitChar, show 48 + (c.toNat - 48) = c.toNat by omega, Char.ofNat_toNat]

theorem IsFigure.cases {P : Char → Prop} (hsign : P '-')
    (hdigit : ∀ d < 10, P (Text.digitChar d)) {c : Char} (h : IsFigure c) : P c := by
  rcases h with rfl | ⟨d, hd, rfl⟩
  · exact hsign
  · exact hdigit d hd

theorem IsFigure.ne_separator {c : Char} (h : IsFigure c) : c ≠ separator :=
  h.cases (P := (· ≠ separator)) (by decide) (by decide)

theorem IsFigure.ne_dot {c : Char} (h : IsFigure c) : c ≠ '.' :=
  h.cases (P := (· ≠ '.')) (by decide) (by decide)

theorem IsFigure.not_isControl {c : Char} (h : IsFigure c) : Text.isControl c = false :=
  h.cases (P := fun c => Text.isControl c = false) (by decide) (by decide)

theorem isFigure_of_mem_lastDigits {c : Char} {width n : Nat} (h : c ∈ Text.lastDigits width n) :
    IsFigure c := by
  induction width generalizing n with
  | zero => simp at h
  | succ width ih =>
    rw [Text.lastDigits_succ, List.mem_append] at h
    rcases h with h | h
    · exact ih h
    · exact .inr ⟨n % 10, Nat.mod_lt _ (by decide), by simpa using h⟩

theorem isFigure_of_mem_sequenceSuffix {n : Int32} {c : Char}
    (h : c ∈ (sequenceSuffix n).toList) : IsFigure c := by
  unfold sequenceSuffix at h
  dsimp only at h
  split_ifs at h with hn
  · exact isFigure_of_mem_lastDigits (by simpa using h)
  · simp only [String.toList_ofList, List.mem_cons, List.mem_append, List.mem_replicate] at h
    rcases h with (rfl | ⟨-, rfl⟩) | h
    · exact .inl rfl
    · exact .inr ⟨0, by decide, rfl⟩
    · exact .of_isDigit (Nat.isDigit_of_mem_toDigits (by decide) (by decide) h)

/-! ## The order of numbers -/

namespace Text

/-- Of two numbers with as many digits, the first digit in which they differ tells the order. -/
theorem exists_first_difference {width m k : Nat} (h : m < k) (hk : k < 10 ^ width) :
    ∃ same a b r s, a < b ∧ b < 10 ∧ lastDigits width m = same ++ digitChar a :: r ∧
      lastDigits width k = same ++ digitChar b :: s := by
  induction width generalizing m k with
  | zero => simp at hk; omega
  | succ width ih =>
    rw [lastDigits_succ, lastDigits_succ]
    rcases Nat.lt_or_ge (m / 10) (k / 10) with hlt | hge
    · obtain ⟨same, a, b, r, s, hab, hb, hm, hk⟩ := ih hlt (by rw [Nat.pow_succ] at hk; omega)
      exact ⟨same, a, b, r ++ [digitChar (m % 10)], s ++ [digitChar (k % 10)], hab, hb,
        by simp [hm], by simp [hk]⟩
    · have heq : m / 10 = k / 10 := by omega
      exact ⟨lastDigits width (k / 10), m % 10, k % 10, [], [], by omega, by omega,
        by rw [heq], rfl⟩

theorem digitChar_lt {a b : Nat} (h : a < b) (hb : b < 10) : digitChar a < digitChar b := by
  have hall : ∀ b < 10, ∀ a < b, digitChar a < digitChar b := by decide
  exact hall b hb a h

theorem encodeChar_digitChar {d : Nat} (h : d < 10) :
    Utf8.encodeChar (digitChar d) = [(48 + d).toUInt8] := by
  have hall : ∀ d < 10, Utf8.encodeChar (digitChar d) = [(48 + d).toUInt8] := by decide
  exact hall d h

theorem digitByte_lt {a b : Nat} (h : a < b) (hb : b < 10) :
    (48 + a).toUInt8 < (48 + b).toUInt8 := by
  have hall : ∀ b < 10, ∀ a < b, (48 + a).toUInt8 < (48 + b).toUInt8 := by decide
  exact hall b hb a h

/-- Whether a text comes before another one, by its characters as well as by its bytes. -/
def Precedes (x y : String) : Prop := x < y ∧ Utf8.encode x < Utf8.encode y

theorem Precedes.ne {x y : String} (h : Precedes x y) : x ≠ y := by
  rintro rfl
  exact String.lt_irrefl x h.1

end Text

theorem sequenceSuffix_ofNat {n : Nat} (h : n < 2 ^ 31) :
    sequenceSuffix (Int32.ofNat n) = String.ofList (Text.lastDigits 10 n) := by
  unfold sequenceSuffix
  rw [Int32.toInt_ofNat_of_lt h]
  simp

theorem length_sequenceSuffix_ofNat {n : Nat} (h : n < 2 ^ 31) :
    (sequenceSuffix (Int32.ofNat n)).toList.length = 10 := by
  simp [sequenceSuffix_ofNat h]

/-- Behind one and the same text, numbers are ordered as texts. -/
theorem precedes_numbered (x : String) {m k : Nat} (h : m < k) (hk : k < 2 ^ 31) :
    Text.Precedes (x ++ sequenceSuffix (Int32.ofNat m)) (x ++ sequenceSuffix (Int32.ofNat k)) := by
  have hwidth : k < 10 ^ 10 := by omega
  obtain ⟨same, a, b, r, s, hab, hb, hm, hk'⟩ := Text.exists_first_difference h hwidth
  rw [sequenceSuffix_ofNat (Nat.lt_trans h hk), sequenceSuffix_ofNat hk, hm, hk']
  constructor
  · show String.toList _ < String.toList _
    simp only [String.toList_append, String.toList_ofList]
    exact List.append_left_lt (List.append_left_lt
      (List.cons_lt_cons_iff.2 (.inl (Text.digitChar_lt hab hb))))
  · simp only [Text.Utf8.encode, String.toList_append, String.toList_ofList, List.flatMap_append,
      List.flatMap_cons, Text.encodeChar_digitChar (Nat.lt_trans hab hb),
      Text.encodeChar_digitChar hb]
    exact List.append_left_lt (List.append_left_lt
      (List.cons_lt_cons_iff.2 (.inl (Text.digitByte_lt hab hb))))

namespace Path

/-- A name stays a name with figures behind it. -/
theorem IsName.append_figures {n s : String} (hn : IsName n) (hs : ∀ c ∈ s.toList, IsFigure c) :
    IsName (n ++ s) := by
  by_cases hnil : s.toList = []
  · have : s = "" := String.toList_inj.1 (by simpa using hnil)
    simpa [this] using hn
  · obtain ⟨c, cs, hc⟩ := List.exists_cons_of_ne_nil hnil
    have hfig : IsFigure c := hs c (by simp [hc])
    have hdots : ¬((n ++ s).toList = ['.'] ∨ (n ++ s).toList = ['.', '.']) := by
      intro h
      have hmem : c ∈ (n ++ s).toList := by simp [hc]
      rcases h with h | h <;> exact hfig.ne_dot (by simpa [h] using hmem)
    obtain ⟨hfault, hsep⟩ := hn
    unfold segmentFault? at hfault
    split_ifs at hfault with h₁ h₂ h₃
    refine ⟨?_, ?_⟩
    · unfold segmentFault?
      rw [if_neg (by simp [h₁]), if_neg hdots, if_neg]
      simp only [String.toList_append, List.any_append, Bool.or_eq_true, not_or]
      refine ⟨h₃, ?_⟩
      rw [List.any_eq_true]
      rintro ⟨d, hd, hctl⟩
      simp [(hs d hd).not_isControl] at hctl
    · simp only [String.toList_append, List.mem_append, not_or]
      exact ⟨hsep, fun h => (hs _ h).ne_separator rfl⟩

theorem join_append (q n s : String) : join q n ++ s = join q (n ++ s) := by
  unfold join
  split_ifs <;> simp [String.append_assoc]

end Path

namespace Tree

theorem actualPath_of_not_sequential {mode : Mode} (h : mode.sequential = false) (p : String)
    (parent : Node) : actualPath p mode parent = p := by
  simp [actualPath, h]

/-- A numbered path lies beside the path that was asked for. -/
theorem actualPath_eq_join {p q n : String} (hn : IsName n) (hp : join q n = p)
    (mode : Mode) (parent : Node) :
    ∃ m, IsName m ∧ actualPath p mode parent = join q m := by
  unfold actualPath
  split_ifs
  · exact ⟨_, hn.append_figures fun c => isFigure_of_mem_sequenceSuffix,
      hp ▸ join_append q n _⟩
  · exact ⟨n, hn, hp.symm⟩

theorem valid_actualPath {p q : String} (hp : Valid p) (hq : parent? p = some q) (mode : Mode)
    (parent : Node) : Valid (actualPath p mode parent) := by
  obtain ⟨hqv, hn, hj⟩ := (parent?_eq_some_iff hp).1 hq
  obtain ⟨m, hm, he⟩ := actualPath_eq_join hn hj mode parent
  exact he ▸ valid_join hqv hm

theorem parent?_actualPath {p q : String} (hp : Valid p) (hq : parent? p = some q) (mode : Mode)
    (parent : Node) : parent? (actualPath p mode parent) = some q := by
  obtain ⟨hqv, hn, hj⟩ := (parent?_eq_some_iff hp).1 hq
  obtain ⟨m, hm, he⟩ := actualPath_eq_join hn hj mode parent
  exact he ▸ parent?_join hqv hm

end Tree

end KeyRegistry
