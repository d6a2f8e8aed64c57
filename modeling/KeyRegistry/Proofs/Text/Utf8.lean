import KeyRegistry.Text.Utf8
import Mathlib.Tactic.Common

/-!
# Reading back what was encoded

Every character is read back from its bytes, so a text survives the way to the
service and back.
-/

namespace KeyRegistry.Text.Utf8

theorem toNat_toUInt8 {n : Nat} (h : n < 256) : n.toUInt8.toNat = n :=
  Nat.mod_eq_of_lt h

theorem toNat_lt (c : Char) : c.toNat < 0x110000 ∧ ¬(0xd800 ≤ c.toNat ∧ c.toNat ≤ 0xdfff) := by
  have h := c.valid
  simp only [UInt32.isValidChar, Nat.isValidChar] at h
  have : c.toNat = c.val.toNat := rfl
  omega

/-! ## The first byte -/

theorem lead?_two {n : Nat} (h : 0x80 ≤ n) (h' : n < 0x800) :
    lead? (0xc0 + n / 64) = some ⟨n / 64, 0x80, 0xbf, 0⟩ := by
  rw [lead?, if_pos (by omega), Nat.add_sub_cancel_left]

theorem lead?_three {n : Nat} (h : 0x800 ≤ n) (h' : n < 0x10000)
    (hgap : ¬(0xd800 ≤ n ∧ n ≤ 0xdfff)) :
    ∃ low high, lead? (0xe0 + n / 4096) = some ⟨n / 4096, low, high, 1⟩ ∧
      low ≤ 0x80 + n / 64 % 64 ∧ 0x80 + n / 64 % 64 ≤ high := by
  rw [lead?, if_neg (by omega)]
  split_ifs with h₀ h₁
  · exact ⟨0xa0, 0xbf, by rw [show n / 4096 = 0 by omega], by omega, by omega⟩
  · exact ⟨0x80, 0x9f, by rw [show n / 4096 = 0xd by omega], by omega, by omega⟩
  · exact ⟨0x80, 0xbf, by rw [Nat.add_sub_cancel_left], by omega, by omega⟩
  all_goals omega

theorem lead?_four {n : Nat} (h : 0x10000 ≤ n) (h' : n < 0x110000) :
    ∃ low high, lead? (0xf0 + n / 262144) = some ⟨n / 262144, low, high, 2⟩ ∧
      low ≤ 0x80 + n / 4096 % 64 ∧ 0x80 + n / 4096 % 64 ≤ high := by
  rw [lead?, if_neg (by omega), if_neg (by omega), if_neg (by omega), if_neg (by omega)]
  split_ifs with h₀ h₁ h₂
  · exact ⟨0x90, 0xbf, by rw [show n / 262144 = 0 by omega], by omega, by omega⟩
  · exact ⟨0x80, 0xbf, by rw [Nat.add_sub_cancel_left], by omega, by omega⟩
  · exact ⟨0x80, 0x8f, by rw [show n / 262144 = 4 by omega], by omega, by omega⟩
  · omega

theorem isTail_tail (n : Nat) : isTail (0x80 + n % 64).toUInt8 = true := by
  rw [isTail, toNat_toUInt8 (by omega), Bool.and_eq_true, decide_eq_true_eq, decide_eq_true_eq]
  omega

theorem tailBits_tail (n : Nat) : tailBits (0x80 + n % 64).toUInt8 = n % 64 := by
  have h : (0x80 + n % 64).toUInt8.toNat = 0x80 + n % 64 := toNat_toUInt8 (by omega)
  unfold tailBits
  omega

/-! ## A whole character -/

theorem pieces_encodeChar (c : Char) (r : List UInt8) :
    pieces (encodeChar c ++ r) = some c :: pieces r := by
  obtain ⟨hlt, hgap⟩ := toNat_lt c
  have hc : Char.ofNat c.toNat = c := Char.ofNat_toNat c
  unfold encodeChar
  dsimp only
  split_ifs with h₁ h₂ h₃
  · rw [List.singleton_append, pieces, toNat_toUInt8 (by omega), if_pos h₁, hc]
  · have hlead := lead?_two (by omega) h₂
    have hn : c.toNat / 64 * 64 + c.toNat % 64 = c.toNat := by omega
    rw [List.cons_append, List.singleton_append, pieces, toNat_toUInt8 (by omega),
      if_neg (by omega), hlead]
    dsimp only
    rw [toNat_toUInt8 (by omega), if_neg (by omega), tailBits_tail, if_pos rfl, hn, hc]
  · obtain ⟨low, high, hlead, hlow, hhigh⟩ := lead?_three (by omega) h₃ hgap
    have hn : (c.toNat / 4096 * 64 + c.toNat / 64 % 64) * 64 + c.toNat % 64 = c.toNat := by omega
    rw [List.cons_append, List.cons_append, List.singleton_append, pieces,
      toNat_toUInt8 (by omega), if_neg (by omega), hlead]
    dsimp only
    rw [toNat_toUInt8 (by omega), if_neg (by omega), if_neg (by decide), isTail_tail,
      if_neg (by decide), if_pos rfl, tailBits_tail, tailBits_tail, hn, hc]
  · obtain ⟨low, high, hlead, hlow, hhigh⟩ := lead?_four (by omega) hlt
    have hn : ((c.toNat / 262144 * 64 + c.toNat / 4096 % 64) * 64 + c.toNat / 64 % 64) * 64 +
        c.toNat % 64 = c.toNat := by omega
    rw [List.cons_append, List.cons_append, List.cons_append, List.singleton_append, pieces,
      toNat_toUInt8 (by omega), if_neg (by omega), hlead]
    dsimp only
    rw [toNat_toUInt8 (by omega), if_neg (by omega), if_neg (by decide), isTail_tail,
      if_neg (by decide), if_neg (by decide), isTail_tail, if_neg (by decide), tailBits_tail,
      tailBits_tail, tailBits_tail, hn, hc]

theorem pieces_encode (s : String) : pieces (encode s) = s.toList.map some := by
  unfold encode
  induction s.toList with
  | nil => simp
  | cons c cs ih => rw [List.flatMap_cons, pieces_encodeChar, ih, List.map_cons]

/-- A text is read back as it was written. -/
theorem decodeLossy_encode (s : String) : decodeLossy (encode s) = s := by
  rw [decodeLossy, pieces_encode, List.map_map]
  exact (congrArg String.ofList (List.map_id _)).trans String.ofList_toList

theorem mapM_id_some (cs : List Char) : (cs.map some).mapM id = some cs := by
  induction cs with
  | nil => rfl
  | cons c cs ih => simp [List.mapM_cons, ih]

/-- The strict reading agrees with the lossy one on what was written. -/
theorem decode?_encode (s : String) : decode? (encode s) = some s := by
  rw [decode?, pieces_encode, mapM_id_some, Option.map_some, String.ofList_toList]

end KeyRegistry.Text.Utf8
