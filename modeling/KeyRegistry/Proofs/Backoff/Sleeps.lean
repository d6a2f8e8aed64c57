import KeyRegistry.Backoff
import Mathlib.Algebra.Group.Nat.Defs
import Mathlib.Tactic.Common

/-!
# The sleeps of a backoff

Before a retry a factor is drawn from a range whose bound fits into its word, and the sleep is so
many times the base, or the cap if that is longer. No duration that is asked for in milliseconds
is longer than the longest there is, so the cap sees to it that the product is exact.
-/

namespace KeyRegistry

namespace Duration

/-- What is cut off at the longest duration is cut off at any cap. -/
theorem min_nanos_times (d : Duration) (k : Nat) {c : Nat} (hc : c ≤ longest.nanos) :
    min (d.times k).nanos c = min (d.nanos * k) c := by
  simp only [times]
  omega

theorem nanos_ofMillis_le_longest (ms : UInt64) : (ofMillis ms.toNat).nanos ≤ longest.nanos := by
  have hword := ms.toNat_lt
  simp only [ofMillis, longest, ofParts]
  omega

theorem ofMillis_min_mul (base k cap : Nat) :
    ofMillis (min (base * k) cap) =
      ⟨min ((ofMillis base).nanos * k) (ofMillis cap).nanos⟩ := by
  rw [ofMillis, ← Nat.mul_min_mul_right, Nat.mul_right_comm]
  rfl

end Duration

namespace Backoff

open Duration

variable {b : Backoff} {n draw : Nat} {d : Duration}

/-! ## The draw -/

theorem toNat_bound (n : Nat) : (bound n).toNat = 2 ^ shift n := by
  have hshift := shift_le n
  have hword : (UInt32.ofNat (shift n)).toNat = shift n :=
    UInt32.toNat_ofNat_of_lt (Nat.lt_of_le_of_lt hshift (by decide))
  have hpow : 2 ^ shift n < 2 ^ 32 := Nat.pow_lt_pow_right (by omega) (by omega)
  rw [bound, UInt32.toNat_shiftLeft, hword, Nat.mod_eq_of_lt (by omega : shift n < 32),
    UInt32.toNat_one, Nat.one_shiftLeft, Nat.mod_eq_of_lt hpow]

theorem toNat_bound_le_succ (n : Nat) : (bound n).toNat ≤ (bound (n + 1)).toNat := by
  rw [toNat_bound, toNat_bound]
  refine Nat.pow_le_pow_right (by omega) ?_
  simp only [shift]
  omega

theorem one_lt_toNat_bound (n : Nat) : 1 < (bound n).toNat := by
  rw [toNat_bound]
  exact Nat.one_lt_two_pow (Nat.succ_ne_zero _)

/-- The factor is within the range too, as one always is. -/
theorem factor_lt (h : draw < (bound n).toNat) : max draw 1 < (bound n).toNat :=
  Nat.max_lt.2 ⟨h, one_lt_toNat_bound n⟩

theorem factor_of_first (h : draw < (bound 0).toNat) : max draw 1 = 1 := by
  rw [toNat_bound] at h
  exact Nat.max_eq_right (Nat.le_of_lt_succ h)

/-! ## The sleep -/

theorem sleep_factor (b : Backoff) (draw : Nat) : b.sleep (max draw 1) = b.sleep draw := by
  rw [sleep, sleep, Nat.max_assoc, Nat.max_self]

theorem sleep_eq (hcap : b.cap.nanos ≤ longest.nanos) (draw : Nat) :
    b.sleep draw = ⟨min (b.base.nanos * max draw 1) b.cap.nanos⟩ := by
  rw [sleep, min_nanos_times _ _ hcap]

theorem sleep_of_le (hcap : b.cap.nanos ≤ longest.nanos)
    (h : b.cap.nanos ≤ b.base.nanos * max draw 1) : b.sleep draw = b.cap := by
  rw [sleep_eq hcap, Nat.min_eq_right h]

/-- A factor is too large for the cap from the first on that the rest of the cap has no room for. -/
theorem div_lt_iff {base cap k : Nat} (hbase : 0 < base) (hk : 0 < k) :
    (cap - 1) / base < k ↔ cap ≤ base * k := by
  have hpos : 0 < k * base := Nat.mul_pos hk hbase
  rw [Nat.div_lt_iff_lt_mul hbase, Nat.mul_comm base k]
  omega

/-- The list has the sleeps that the draws lead to, and no other. -/
theorem mem_sleeps_iff (hcap : b.cap.nanos ≤ longest.nanos) :
    d ∈ b.sleeps n ↔ ∃ draw < (bound n).toNat, b.sleep draw = d := by
  have hone := one_lt_toNat_bound n
  by_cases hbase : b.base.nanos = 0
  · have hsame (draw : Nat) : b.sleep draw = b.sleep 1 := by
      rw [sleep_eq hcap, sleep_eq hcap, hbase, Nat.zero_mul, Nat.zero_mul]
    simp only [sleeps, if_pos hbase, List.mem_singleton, hsame, eq_comm (a := d)]
    exact ⟨fun h => ⟨1, hone, h⟩, fun ⟨_, _, h⟩ => h⟩
  · have hfull {k : Nat} (hk : 0 < k) : (b.cap.nanos - 1) / b.base.nanos < k ↔
        b.cap.nanos ≤ b.base.nanos * k := div_lt_iff (Nat.pos_of_ne_zero hbase) hk
    simp only [sleeps, if_neg hbase, List.mem_append, List.mem_map, List.mem_range]
    constructor
    · rintro (⟨i, hi, rfl⟩ | hd)
      · exact ⟨i + 1, by omega, rfl⟩
      · split_ifs at hd with hbelow
        -- some factor of the range is too large for the cap, and then so is the last one
        · obtain rfl := List.mem_singleton.1 hd
          refine ⟨(bound n).toNat - 1, by omega, sleep_of_le hcap ?_⟩
          exact (hfull (by omega)).1 (by omega)
        · cases hd
    · rintro ⟨draw, hdraw, rfl⟩
      have hlt := factor_lt hdraw
      have hpos : 0 < max draw 1 := by omega
      rcases Nat.lt_or_ge ((b.cap.nanos - 1) / b.base.nanos) (max draw 1) with hover | hunder
      · right
        rw [if_pos (by omega), sleep_of_le hcap ((hfull hpos).1 hover)]
        exact List.mem_singleton_self _
      · left
        refine ⟨max draw 1 - 1, by omega, ?_⟩
        rw [Nat.sub_add_cancel hpos, sleep_factor]

theorem sleeps_subset_succ (hcap : b.cap.nanos ≤ longest.nanos) (n : Nat) :
    b.sleeps n ⊆ b.sleeps (n + 1) := by
  intro d hd
  obtain ⟨draw, hdraw, hsleep⟩ := (mem_sleeps_iff hcap).1 hd
  exact (mem_sleeps_iff hcap).2 ⟨draw, Nat.lt_of_lt_of_le hdraw (toNat_bound_le_succ n), hsleep⟩

/-- In milliseconds the sleep is the base times a factor that the bound allows, or the cap. -/
theorem sleep_make (base cap : UInt64) (requested draw : Nat) :
    (make (ofMillis base.toNat) requested (ofMillis cap.toNat)).sleep draw =
      ofMillis (min (base.toNat * max draw 1) cap.toNat) := by
  rw [sleep_eq (nanos_ofMillis_le_longest cap), ofMillis_min_mul]
  rfl

theorem nanos_le_sleep_make (base cap : UInt64) (requested draw : Nat) :
    (ofMillis (min base.toNat cap.toNat)).nanos ≤
      ((make (ofMillis base.toNat) requested (ofMillis cap.toNat)).sleep draw).nanos := by
  have hfactor : base.toNat ≤ base.toNat * max draw 1 :=
    Nat.le_mul_of_pos_right _ (Nat.le_max_right ..)
  rw [sleep_make]
  simp only [ofMillis]
  omega

/-- Base and cap may be any words of milliseconds, and any number of retries may be asked for.
Before a retry, a sleep is the base times a factor within the range, computed exactly, and at most
the cap; the first is the base. With each retry the sleeps that may be drawn can only become more. -/
theorem sleep_scaled_within_cap (base cap : UInt64) (requested : Nat)
    (hb : b = make (ofMillis base.toNat) requested (ofMillis cap.toNat)) :
    (∀ n, shift n ≤ 30 ∧ (bound n).toNat = 2 ^ (min n 29 + 1)) ∧
    (∀ n draw, draw < (bound n).toNat →
      (∃ k, 1 ≤ k ∧ k < 2 ^ (min n 29 + 1) ∧
        b.sleep draw = ofMillis (min (base.toNat * k) cap.toNat)) ∧
      (ofMillis (min base.toNat cap.toNat)).nanos ≤ (b.sleep draw).nanos ∧
      (b.sleep draw).nanos ≤ (ofMillis cap.toNat).nanos) ∧
    (∀ draw, draw < (bound 0).toNat → b.sleep draw = ofMillis (min base.toNat cap.toNat)) ∧
    (∀ n d, d ∈ b.sleeps n ↔ ∃ draw < (bound n).toNat, b.sleep draw = d) ∧
    (∀ n, b.sleeps n ⊆ b.sleeps (n + 1)) ∧
    b.maxRetries ≤ 29 ∧ ∀ retries, b.allowsRetry retries = true ↔ retries < min requested 29 := by
  subst hb
  have hcap := nanos_ofMillis_le_longest cap
  refine ⟨fun n => ⟨shift_le n, toNat_bound n⟩, fun n draw hdraw => ?_, fun draw hdraw => ?_,
    fun n d => mem_sleeps_iff hcap, sleeps_subset_succ hcap, Nat.min_le_right .., fun retries => ?_⟩
  · have hlt : max draw 1 < 2 ^ (min n 29 + 1) := toNat_bound n ▸ factor_lt hdraw
    exact ⟨⟨max draw 1, Nat.le_max_right .., hlt, sleep_make ..⟩, nanos_le_sleep_make ..,
      nanos_sleep_le ..⟩
  · rw [sleep_make, factor_of_first hdraw, Nat.mul_one]
  · rw [allowsRetry, decide_eq_true_iff, maxRetries_make]
    rfl

/-- The largest base, cap and draw: the product is longer than the longest duration, and the sleep
is the cap. With a small base some sleeps are told apart, and are still possible later. -/
theorem sleep_scaled_within_cap_filled :
    (ofMillis 18446744073709551615).times 1073741823 = longest ∧
    1073741823 < (bound 4294967295).toNat ∧
    (make (ofMillis 18446744073709551615) 4294967295 (ofMillis 18446744073709551615)).sleep
      1073741823 = ofMillis 18446744073709551615 ∧
    ofMillis 30 ∈ (make (ofMillis 10) 3 (ofMillis 45)).sleeps 1 ∧
    ofMillis 30 ∈ (make (ofMillis 10) 3 (ofMillis 45)).sleeps 2 := by
  obtain ⟨hbound, hsleep, -⟩ :=
    sleep_scaled_within_cap 18446744073709551615 18446744073709551615 4294967295 rfl
  obtain ⟨-, -, -, hmem, hmore, -⟩ := sleep_scaled_within_cap 10 45 3 rfl
  have hdraw : 1073741823 < (bound 4294967295).toNat := by
    rw [(hbound _).2]
    decide
  have hthird := (hmem 1 (ofMillis 30)).2 ⟨3, by decide, by decide⟩
  refine ⟨by simp [times, ofMillis, longest, ofParts], hdraw, ?_, hthird, hmore 1 hthird⟩
  obtain ⟨⟨k, hk, -, hscaled⟩, -⟩ := hsleep _ _ hdraw
  have hcapped : min (18446744073709551615 * k) 18446744073709551615 = 18446744073709551615 := by
    omega
  exact hscaled.trans (congrArg ofMillis hcapped)

end Backoff

end KeyRegistry
