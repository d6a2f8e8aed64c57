import KeyRegistry.Proofs.Path.Containment
import Mathlib.Data.List.Chain
import Mathlib.Order.Defs.Unbundled
import Mathlib.Order.Preorder.Chain

/-!
# Lines of parents

A lineage goes down from a path, each path being a child of the one before. Up from a path there
is one way, from parent to parent, and it comes to the root: what is met on it are the paths that
contain the path, and below the root these are its ancestors.
-/

namespace KeyRegistry

open KeyRegistry.Path

def Lineage : String → List String → Prop
  | _, [] => True
  | top, p :: ps => Valid p ∧ parent? p = some top ∧ Lineage p ps

def foot : String → List String → String
  | top, [] => top
  | _, p :: ps => foot p ps

theorem foot_concat (top p : String) (ps : List String) : foot top (ps ++ [p]) = p := by
  induction ps generalizing top with
  | nil => rfl
  | cons q ps ih => exact ih q

theorem foot_mem (top : String) (ps : List String) : foot top ps ∈ top :: ps := by
  induction ps generalizing top with
  | nil => simp [foot]
  | cons p ps ih => exact List.mem_cons_of_mem _ (ih p)

theorem lineage_append {top : String} {ps qs : List String} :
    Lineage top (ps ++ qs) ↔ Lineage top ps ∧ Lineage (foot top ps) qs := by
  induction ps generalizing top with
  | nil => simp [Lineage, foot]
  | cons p ps ih =>
    rw [List.cons_append, Lineage, Lineage, ih, foot]
    tauto

theorem lineage_iff {top : String} {ps : List String} :
    Lineage top ps ↔
      (∀ p ∈ ps, Valid p) ∧ (top :: ps).IsChain fun a b => parent? b = some a := by
  induction ps generalizing top with
  | nil => simp [Lineage]
  | cons p ps ih =>
    rw [Lineage, ih, List.forall_mem_cons, List.isChain_cons_cons]
    tauto

theorem Lineage.valid {top : String} {ps : List String} (h : Lineage top ps) :
    ∀ p ∈ ps, Valid p := (lineage_iff.1 h).1

/-- Everything in a lineage lies strictly under its top. -/
theorem Lineage.isWithin {top : String} {ps : List String} (h : Lineage top ps) (ht : Valid top) :
    ∀ p ∈ ps, isWithin top p = true ∧ p ≠ top := by
  induction ps generalizing top with
  | nil => simp
  | cons p ps ih =>
    obtain ⟨hp, hpar, hps⟩ := h
    obtain ⟨-, hn, hj⟩ := (parent?_eq_some_iff hp).1 hpar
    have hwithin : Path.isWithin top p = true := hj ▸ isWithin_join ht hn
    have hne : p ≠ top := by
      rintro rfl
      exact lt_irrefl _ (length_lt_of_parent? hpar)
    intro q hq
    rcases List.mem_cons.1 hq with rfl | hq
    · exact ⟨hwithin, hne⟩
    · have hq' := (ih hps hp q hq).1
      refine ⟨isWithin_trans ht hp (hps.valid q hq) hwithin hq', fun he => ?_⟩
      subst he
      exact hne (isWithin_antisymm hp ht hq' hwithin)

theorem Lineage.nodup {top : String} {ps : List String} (h : Lineage top ps) : ps.Nodup := by
  induction ps generalizing top with
  | nil => exact List.nodup_nil
  | cons p ps ih =>
    exact List.nodup_cons.2 ⟨fun hmem => (h.2.2.isWithin h.1 p hmem).2 rfl, ih h.2.2⟩

/-- From the root the ancestors of a path lead down to it. -/
theorem lineage_ancestors {p : String} (hp : Valid p) (hr : p ≠ root) :
    Lineage root (ancestors p ++ [p]) := by
  induction hp using Valid.induction with
  | top => exact absurd rfl hr
  | child q n hq hn ih =>
    have hpar := parent?_join hq hn
    rw [ancestors_join hq hn]
    split_ifs with h
    · subst h
      exact ⟨valid_join hq hn, hpar, trivial⟩
    · refine lineage_append.2 ⟨ih h, valid_join hq hn, ?_, trivial⟩
      rw [hpar, foot_concat]

theorem Lineage.isWithin_foot {top : String} {ps : List String} (h : Lineage top ps) :
    ∀ p ∈ ps, Path.isWithin p (foot top ps) = true := by
  induction ps generalizing top with
  | nil => simp
  | cons p ps ih =>
    intro q hq
    rcases List.mem_cons.1 hq with rfl | hq
    · rcases List.mem_cons.1 (foot_mem q ps) with heq | hmem
      · exact (congrArg (Path.isWithin q) heq).trans (isWithin_refl h.1)
      · exact (h.2.2.isWithin h.1 _ hmem).1
    · exact ih h.2.2 q hq

namespace Path

/-! ## Up from a path -/

variable {p q r : String}

/-- The paths met on going to the parent again and again, nearest first. -/
def parents (p : String) : List String :=
  match _ : parent? p with
  | none => []
  | some q => q :: parents q
termination_by p.toList.length
decreasing_by exact length_lt_of_parent? ‹_›

theorem parents_root : parents root = [] := by
  rw [parents]
  split <;> simp_all

theorem parents_of_parent? (h : parent? p = some q) : parents p = q :: parents q := by
  rw [parents]
  split <;> simp_all

theorem parents_eq_reverse_above (hp : Valid p) : parents p = (above p).reverse := by
  induction hp using Valid.induction with
  | top => rw [parents_root, above_root, List.reverse_nil]
  | child q n hq hn ih =>
    rw [parents_of_parent? (parent?_join hq hn), above_join hq hn, ih, List.reverse_concat']

/-- The way up ends at the root. -/
theorem parents_eq_reverse_ancestors (hp : Valid p) (hr : p ≠ root) :
    parents p = (ancestors p).reverse ++ [root] := by
  rw [parents_eq_reverse_above hp, above, if_neg hr, List.reverse_cons]

theorem getLast?_ancestors (hp : Valid p) (hq : parent? p = some q) (hr : q ≠ root) :
    (ancestors p).getLast? = some q := by
  obtain ⟨hqv, hn, hj⟩ := (parent?_eq_some_iff hp).1 hq
  rw [← hj, ancestors_join hqv hn, if_neg hr, List.getLast?_concat]

theorem isWithin_iff_mem_parents (hr : Valid r) (hp : Valid p) :
    isWithin r p = true ↔ r = p ∨ r ∈ parents p := by
  rw [parents_eq_reverse_above hp, List.mem_reverse, mem_above_iff hr hp]
  by_cases he : r = p
  · simp [he, isWithin_refl hp]
  · simp [he]

theorem isPartialOrder_isWithin :
    IsPartialOrder {p // Valid p} fun a b => isWithin a.1 b.1 = true where
  refl a := isWithin_refl a.2
  trans a b c := isWithin_trans a.2 b.2 c.2
  antisymm a b hab hba := Subtype.ext (isWithin_antisymm a.2 b.2 hab hba)

theorem isChain_isWithin (hp : Valid p) :
    IsChain (fun a b => isWithin a b = true) {a | Valid a ∧ isWithin a p = true} :=
  fun _ ha _ hb _ => isWithin_or_isWithin ha.1 hb.1 hp ha.2 hb.2

/-- Up from a path to its parent, again and again, one meets its ancestors and at last the root.
From the top down each of them is the parent of the next. The paths that contain a path are the
path and those met; so containment orders the paths, and those that contain one path in a line. -/
theorem paths_ordered_by_parents :
    ancestors "/" = [] ∧
    (∀ p, Valid p → p ≠ "/" → parents p = (ancestors p).reverse ++ ["/"]) ∧
    (∀ p, Valid p →
      (∀ a, (ancestors p).head? = some a → parent? a = some "/") ∧
      (ancestors p).IsChain (fun a b => parent? b = some a) ∧
      (∀ q, parent? p = some q → q ≠ "/" → (ancestors p).getLast? = some q) ∧
      ∀ a ∈ ancestors p, Valid a) ∧
    (∀ r p, Valid r → Valid p → (isWithin r p = true ↔ r = p ∨ r ∈ parents p)) ∧
    IsPartialOrder {p // Valid p} (fun a b => isWithin a.1 b.1 = true) ∧
    ∀ p, Valid p →
      IsChain (fun a b => isWithin a b = true) {a | Valid a ∧ isWithin a p = true} := by
  refine ⟨ancestors_root, fun p => parents_eq_reverse_ancestors, fun p hp => ?_,
    fun r p => isWithin_iff_mem_parents, isPartialOrder_isWithin, fun p => isChain_isWithin⟩
  by_cases hr : p = root
  · subst hr
    simp [ancestors_root]
  · obtain ⟨hline, -⟩ := lineage_append.1 (lineage_ancestors hp hr)
    obtain ⟨hvalid, hchain⟩ := lineage_iff.1 hline
    obtain ⟨hfirst, hnext⟩ := List.isChain_cons.1 hchain
    exact ⟨fun a ha => hfirst a ha, hnext, fun q => getLast?_ancestors hp, hvalid⟩

/-- Names that begin alike: going up from a path under `/a/ab` one does not meet `/a/a`. -/
theorem paths_ordered_by_parents_prefixed :
    Valid "/a/ab/abc" ∧ "/a/ab/abc" ≠ "/" ∧ parents "/a/ab/abc" = ["/a/ab", "/a", "/"] ∧
    parent? "/a" = some "/" ∧ (ancestors "/a/ab/abc").getLast? = some "/a/ab" ∧
    isWithin "/a" "/a/ab/abc" = true ∧ "/a/a" ∉ parents "/a/ab/abc" := by
  have hp : Valid "/a/ab/abc" := by decide
  have hancestors : ancestors "/a/ab/abc" = ["/a", "/a/ab"] := by decide
  obtain ⟨-, hup, hline, hwithin, -, -⟩ := paths_ordered_by_parents
  obtain ⟨hfirst, -, hlast, -⟩ := hline _ hp
  have hparents : parents "/a/ab/abc" = ["/a/ab", "/a", "/"] := by
    rw [hup _ hp (by decide), hancestors]
    rfl
  refine ⟨hp, by decide, hparents, hfirst _ (by rw [hancestors]; rfl),
    hlast _ (by decide) (by decide), (hwithin _ _ (by decide) hp).2 ?_, fun hmem => ?_⟩
  · exact .inr (by simp [hparents])
  · have h := (hwithin "/a/a" _ (by decide) hp).2 (.inr hmem)
    exact absurd h (by decide)

end Path

end KeyRegistry
