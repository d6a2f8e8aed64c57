import KeyRegistry.Proofs.Path.Names
import Mathlib.Data.List.Infix

/-!
# Containment and ancestors

Containment of valid paths is the prefix order on their sequences of names, and
the ancestors of a path are found by going to the parent again and again.
-/

namespace KeyRegistry.Path

theorem pieces_spell_append {m : String} {ms : List String} (h : ∀ n ∈ m :: ms, IsName n)
    (r : List Char) :
    pieces (m.toList ++ spell ms ++ separator :: r) = (m :: ms).map String.toList ++ pieces r := by
  induction ms generalizing m with
  | nil => simpa using pieces_append_separator (h m (by simp)).2 r
  | cons n ns ih =>
    have hn := ih (m := n) fun k hk => h k (by simp_all)
    simp only [spell_cons, List.cons_append, List.append_assoc] at hn ⊢
    rw [pieces_append_separator (h m (by simp)).2, hn]
    simp

theorem isWithin_ofNames {ms ns : List String} (hm : ∀ n ∈ ms, IsName n)
    (hn : ∀ n ∈ ns, IsName n) : isWithin (ofNames ms) (ofNames ns) = true ↔ ms <+: ns := by
  by_cases hms : ms = []
  · subst hms
    by_cases hns : ns = []
    · simp [hns, isWithin, toList_root]
    · obtain ⟨n, ns, rfl⟩ := List.exists_cons_of_ne_nil hns
      simp [isWithin, toList_ofNames]
  · obtain ⟨m, ms, rfl⟩ := List.exists_cons_of_ne_nil hms
    unfold isWithin
    rw [if_neg (ofNames_ne_root hm hms), toList_ofNames hms]
    simp only [Bool.or_eq_true, beq_iff_eq, List.isPrefixOf_iff_prefix]
    constructor
    · rintro (he | ⟨r, hr⟩)
      · rw [ofNames_injective hn hm he]
      · cases ns with
        | nil => simp [toList_root] at hr
        | cons n ns =>
          rw [toList_ofNames (by simp)] at hr
          have ht : m.toList ++ spell ms ++ separator :: r = n.toList ++ spell ns := by
            simpa using hr
          have hp := congrArg pieces ht
          rw [pieces_spell_append hm, pieces_spell hn] at hp
          obtain ⟨l₁, l₂, hl, h₁, -⟩ := List.map_eq_append_iff.1 hp.symm
          have hl₁ : l₁ = m :: ms :=
            List.map_injective_iff.2 (fun _ _ => String.toList_inj.1) h₁
          exact ⟨l₂, by rw [hl, hl₁]⟩
    · rintro ⟨ks, rfl⟩
      cases ks with
      | nil => simp
      | cons k ks =>
        refine .inr ⟨k.toList ++ spell ks, ?_⟩
        rw [toList_ofNames (by simp)]
        simp

theorem isWithin_refl {p : String} (h : Valid p) : isWithin p p = true := by
  obtain ⟨ns, hns, rfl⟩ := exists_names_of_valid h
  exact (isWithin_ofNames hns hns).2 List.prefix_rfl

theorem isWithin_root {p : String} (h : Valid p) : isWithin root p = true := by
  obtain ⟨ns, hns, rfl⟩ := exists_names_of_valid h
  exact (@isWithin_ofNames [] ns (by simp) hns).2 List.nil_prefix

theorem isWithin_trans {a b c : String} (ha : Valid a) (hb : Valid b) (hc : Valid c)
    (hab : isWithin a b = true) (hbc : isWithin b c = true) : isWithin a c = true := by
  obtain ⟨as, has, rfl⟩ := exists_names_of_valid ha
  obtain ⟨bs, hbs, rfl⟩ := exists_names_of_valid hb
  obtain ⟨cs, hcs, rfl⟩ := exists_names_of_valid hc
  rw [isWithin_ofNames has hbs] at hab
  rw [isWithin_ofNames hbs hcs] at hbc
  exact (isWithin_ofNames has hcs).2 (hab.trans hbc)

theorem isWithin_antisymm {a b : String} (ha : Valid a) (hb : Valid b)
    (hab : isWithin a b = true) (hba : isWithin b a = true) : a = b := by
  obtain ⟨as, has, rfl⟩ := exists_names_of_valid ha
  obtain ⟨bs, hbs, rfl⟩ := exists_names_of_valid hb
  rw [isWithin_ofNames has hbs] at hab
  rw [isWithin_ofNames hbs has] at hba
  rw [hab.eq_of_length_le hba.length_le]

/-- Of two paths that contain a third one contains the other. -/
theorem isWithin_or_isWithin {a b p : String} (ha : Valid a) (hb : Valid b) (hp : Valid p)
    (hap : isWithin a p = true) (hbp : isWithin b p = true) :
    isWithin a b = true ∨ isWithin b a = true := by
  obtain ⟨as, has, rfl⟩ := exists_names_of_valid ha
  obtain ⟨bs, hbs, rfl⟩ := exists_names_of_valid hb
  obtain ⟨ps, hps, rfl⟩ := exists_names_of_valid hp
  rw [isWithin_ofNames has hps] at hap
  rw [isWithin_ofNames hbs hps] at hbp
  rw [isWithin_ofNames has hbs, isWithin_ofNames hbs has]
  exact List.prefix_or_prefix_of_prefix hap hbp

/-- A path lies within another just if it is that path or its parent lies within it. -/
theorem isWithin_join_iff {a q n : String} (ha : Valid a) (hq : Valid q) (hn : IsName n) :
    isWithin a (join q n) = true ↔ a = join q n ∨ isWithin a q = true := by
  obtain ⟨as, has, rfl⟩ := exists_names_of_valid ha
  obtain ⟨qs, hqs, rfl⟩ := exists_names_of_valid hq
  have hqn : ∀ m ∈ qs ++ [n], IsName m := by simpa [or_imp, forall_and] using ⟨hqs, hn⟩
  rw [join_ofNames hqs, isWithin_ofNames has hqn, isWithin_ofNames has hqs,
    List.prefix_concat_iff]
  exact or_congr ⟨fun h => h ▸ rfl, fun h => ofNames_injective has hqn h⟩ Iff.rfl

theorem isWithin_join {q n : String} (hq : Valid q) (hn : IsName n) :
    isWithin q (join q n) = true :=
  (isWithin_join_iff hq hq hn).2 (.inr (isWithin_refl hq))

theorem not_isWithin_join {q n : String} (hq : Valid q) (hn : IsName n) :
    isWithin (join q n) q = false := by
  obtain ⟨qs, hqs, rfl⟩ := exists_names_of_valid hq
  have hqn : ∀ m ∈ qs ++ [n], IsName m := by simpa [or_imp, forall_and] using ⟨hqs, hn⟩
  rw [join_ofNames hqs, ← Bool.not_eq_true, isWithin_ofNames hqn hqs]
  intro hprefix
  have hlen := hprefix.length_le
  simp only [List.length_append, List.length_singleton] at hlen
  omega

/-- The parent of a path does not lie within it. -/
theorem not_isWithin_of_parent? {p q : String} (hp : Valid p) (hq : parent? p = some q) :
    isWithin p q = false := by
  obtain ⟨hqv, hn, hj⟩ := (parent?_eq_some_iff hp).1 hq
  exact hj ▸ not_isWithin_join hqv hn

/-- A path strictly within another lies within one of the other's children. -/
theorem exists_child_of_isWithin {a p : String} (ha : Valid a) (hp : Valid p)
    (h : isWithin a p = true) (hne : a ≠ p) :
    ∃ n, IsName n ∧ isWithin (join a n) p = true := by
  obtain ⟨as, has, rfl⟩ := exists_names_of_valid ha
  obtain ⟨ps, hps, rfl⟩ := exists_names_of_valid hp
  obtain ⟨ks, rfl⟩ := (isWithin_ofNames has hps).1 h
  cases ks with
  | nil => simp at hne
  | cons k ks =>
    have hk : IsName k := hps k (by simp)
    refine ⟨k, hk, ?_⟩
    rw [join_ofNames has]
    have hak : ∀ m ∈ as ++ [k], IsName m := by simpa [or_imp, forall_and] using ⟨has, hk⟩
    exact (isWithin_ofNames hak hps).2 ⟨ks, by simp⟩

/-! ## Ancestors -/

theorem cuts_append_of_notMem {s : List Char} (h : separator ∉ s) (r : List Char) :
    cuts (s ++ r) = (cuts r).map (s ++ ·) := by
  induction s with
  | nil => simp
  | cons c s ih =>
    obtain ⟨hc, hs⟩ := not_or.1 (mt List.mem_cons.2 h)
    simp [cuts, ih hs, Ne.symm hc]

theorem cuts_spell_concat {ns : List String} (hns : ∀ n ∈ ns, IsName n) {n : String}
    (hn : IsName n) : cuts (spell (ns ++ [n])) = cuts (spell ns) ++ [spell ns] := by
  induction ns with
  | nil => simpa [cuts] using cuts_append_of_notMem hn.2 []
  | cons m ms ih =>
    have hm := (hns m (by simp)).2
    have ih := ih fun k hk => hns k (by simp [hk])
    simp only [List.cons_append, spell_cons, cuts, if_pos]
    rw [cuts_append_of_notMem hm, cuts_append_of_notMem hm, ih]
    simp

theorem ancestors_root : ancestors root = [] := by decide

/-- The ancestors of a child are those of its parent, and the parent unless it is the root. -/
theorem ancestors_ofNames_concat {ns : List String} (hns : ∀ n ∈ ns, IsName n) {n : String}
    (hn : IsName n) :
    ancestors (ofNames (ns ++ [n])) =
      ancestors (ofNames ns) ++ if ns = [] then [] else [ofNames ns] := by
  unfold ancestors
  rw [toList_ofNames (by simp), cuts_spell_concat hns hn]
  by_cases h : ns = []
  · subst h
    simp [cuts, toList_root]
  · have hs : spell ns ≠ [] := by
      obtain ⟨m, ms, rfl⟩ := List.exists_cons_of_ne_nil h
      simp
    simp [h, hs, ofNames]

theorem ancestors_join {q n : String} (hq : Valid q) (hn : IsName n) :
    ancestors (join q n) = ancestors q ++ if q = root then [] else [q] := by
  obtain ⟨ns, hns, rfl⟩ := exists_names_of_valid hq
  rw [join_ofNames hns, ancestors_ofNames_concat hns hn]
  by_cases h : ns = []
  · simp [h]
  · simp [h, ofNames_ne_root hns h]

def above (p : String) : List String :=
  if p = root then [] else root :: ancestors p

theorem above_root : above root = [] := by simp [above]

theorem above_join {q n : String} (hq : Valid q) (hn : IsName n) :
    above (join q n) = above q ++ [q] := by
  rw [above, if_neg (join_ne_root hq hn), ancestors_join hq hn, above]
  split_ifs with h
  · simp [h, ancestors_root]
  · simp

/-- The paths above a path are those that contain it, itself apart. -/
theorem mem_above_iff {a p : String} (ha : Valid a) (hp : Valid p) :
    a ∈ above p ↔ isWithin a p = true ∧ a ≠ p := by
  induction hp using Valid.induction with
  | top =>
    simp only [above_root, List.not_mem_nil, false_iff, not_and, not_not]
    exact fun hw => isWithin_antisymm ha valid_root hw (isWithin_root ha)
  | child q n hq hn ih =>
    rw [above_join hq hn, List.mem_append, List.mem_singleton, ih, isWithin_join_iff ha hq hn]
    have hself : a = q → isWithin a q = true := by
      rintro rfl
      exact isWithin_refl hq
    have hchild : a = join q n → ¬isWithin a q = true := by
      rintro rfl
      simp [not_isWithin_join hq hn]
    tauto

theorem valid_of_mem_above {a p : String} (hp : Valid p) (ha : a ∈ above p) : Valid a := by
  induction hp using Valid.induction with
  | top => simp [above_root] at ha
  | child q n hq hn ih =>
    rw [above_join hq hn] at ha
    rcases List.mem_append.1 ha with ha | ha
    · exact ih ha
    · exact List.mem_singleton.1 ha ▸ hq

theorem nodup_above {p : String} (hp : Valid p) : (above p).Nodup := by
  induction hp using Valid.induction with
  | top => simp [above_root]
  | child q n hq hn ih =>
    rw [above_join hq hn, List.nodup_append]
    refine ⟨ih, by simp, fun a ha b hb => ?_⟩
    rw [List.mem_singleton.1 hb]
    exact ((mem_above_iff (valid_of_mem_above hq ha) hq).1 ha).2

theorem mem_above_of_mem_ancestors {a p : String} (ha : a ∈ ancestors p) : a ∈ above p := by
  have hr : p ≠ root := by
    rintro rfl
    simp [ancestors_root] at ha
  rw [above, if_neg hr]
  exact List.mem_cons_of_mem _ ha

/-- The ancestors of a path are those that contain it, itself and the root apart. -/
theorem mem_ancestors_iff {a p : String} (ha : Valid a) (hp : Valid p) :
    a ∈ ancestors p ↔ isWithin a p = true ∧ a ≠ p ∧ a ≠ root := by
  by_cases hr : p = root
  · subst hr
    simpa [ancestors_root, above_root] using mt (mem_above_iff ha hp).2
  · have hnodup := nodup_above hp
    rw [above, if_neg hr, List.nodup_cons] at hnodup
    have hroot : a ∈ ancestors p → a ≠ root := by
      rintro hmem rfl
      exact hnodup.1 hmem
    rw [← and_assoc, ← mem_above_iff ha hp, above, if_neg hr, List.mem_cons]
    tauto

/-- What lies above a path within `top` lies within `top` or above it. -/
theorem isWithin_or_mem_ancestors {top a p : String} (htop : Valid top) (hp : Valid p)
    (hw : isWithin top p = true) (ha : a ∈ ancestors p) :
    isWithin top a = true ∨ a ∈ ancestors top := by
  have hav := valid_of_mem_above hp (mem_above_of_mem_ancestors ha)
  obtain ⟨hap, -, har⟩ := (mem_ancestors_iff hav hp).1 ha
  rcases isWithin_or_isWithin htop hav hp hw hap with hin | habove
  · exact .inl hin
  · by_cases heq : a = top
    · exact .inl (heq ▸ isWithin_refl hav)
    · exact .inr ((mem_ancestors_iff hav htop).2 ⟨habove, heq, har⟩)

end KeyRegistry.Path
