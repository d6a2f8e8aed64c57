import KeyRegistry.Proofs.Tree.Ancestry
import Mathlib.Data.List.Perm.Subperm

/-!
# Taking out a subtree

A walk from a node lists the nodes under it level by level, each behind its
parent. Read backwards, the list takes out every node when nothing is left under
it.
-/

namespace KeyRegistry

open KeyRegistry.Path

namespace Tree

variable {t t' : Tree} {p x : String} {n : Node} {visited pending ps : List String}
  {who : Caller} {identity : Option String}

/-! ## Listing -/

/-- How far a walk from `p` has come: the children of what was visited are listed, and nothing
else under `p` is. -/
structure Walk (t : Tree) (p : String) (visited pending : List String) : Prop where
  nodup : (visited ++ pending).Nodup
  stored : ∀ x ∈ visited ++ pending, t.Stored x
  within : ∀ x ∈ visited ++ pending, isWithin p x = true
  top : p ∈ visited ++ pending
  above : ∀ x ∈ visited ++ pending, x ≠ p → ∃ v ∈ visited, parent? x = some v
  below : ∀ v ∈ visited, ∀ x, t.Stored x → parent? x = some v → x ∈ visited ++ pending
  ordered : (visited ++ pending).Pairwise fun x y => parent? x ≠ some y

theorem walk_start (hp : Valid p) (hstored : t.Stored p) : t.Walk p [] [p] where
  nodup := by simp
  stored := by simpa using hstored
  within := by simpa using isWithin_refl hp
  top := by simp
  above := by simp
  below := by simp
  ordered := by simp

section Step

variable {rest : List String} (h : t.WellFormed) (hwalk : t.Walk p visited (x :: rest))
  (hn : t.node? x = some n)

include h hwalk hn

theorem Walk.child_notMem {c : String} (hc : c ∈ n.children) :
    join x c ∉ visited ++ x :: rest := by
  obtain ⟨hname, -⟩ := (h.mem_children_iff hn c).1 hc
  have hx := h.valid hn
  have hpar := parent?_join hx hname
  intro hmem
  by_cases hp : join x c = p
  · have hwithin := hwalk.within x (by simp)
    rw [← hp, not_isWithin_of_parent? (valid_join hx hname) hpar] at hwithin
    cases hwithin
  · obtain ⟨v, hv, hvpar⟩ := hwalk.above _ hmem hp
    obtain rfl : x = v := Option.some.inj (hpar.symm.trans hvpar)
    exact (List.nodup_append.1 hwalk.nodup).2.2 x hv x (by simp) rfl

theorem Walk.child {c : String} (hc : c ∈ n.children) : t.Stored (join x c) ∧
    parent? (join x c) = some x ∧ isWithin p (join x c) = true := by
  have hx := h.valid hn
  have hp : Valid p := (hwalk.stored p hwalk.top).elim fun _ hm => h.valid hm
  obtain ⟨hname, hst⟩ := (h.mem_children_iff hn c).1 hc
  exact ⟨hst, parent?_join hx hname,
    (isWithin_join_iff hp hx hname).2 (.inr (hwalk.within x (by simp)))⟩

/-- What is listed before a child does not lie right under it. -/
theorem Walk.parent_ne_child {a c : String} (ha : a ∈ visited ++ x :: rest)
    (hc : c ∈ n.children) : parent? a ≠ some (join x c) := by
  intro hpar
  by_cases hne : a = p
  · obtain ⟨m, hm⟩ := hwalk.stored a ha
    have hout := not_isWithin_of_parent? (h.valid hm) hpar
    rw [hne, (hwalk.child h hn hc).2.2] at hout
    cases hout
  · obtain ⟨v, hv, hparv⟩ := hwalk.above a ha hne
    rw [hparv] at hpar
    obtain rfl := Option.some.inj hpar
    exact hwalk.child_notMem h hn hc (List.mem_append_left _ hv)

theorem Walk.next : t.Walk p (visited ++ [x]) (rest ++ n.children.map (join x)) := by
  have hx := h.valid hn
  have hlist : visited ++ [x] ++ (rest ++ n.children.map (join x)) =
      (visited ++ x :: rest) ++ n.children.map (join x) := by simp
  have hchild (c : String) (hc : c ∈ n.children) := hwalk.child h hn hc
  constructor <;> rw [hlist]
  case nodup =>
    refine hwalk.nodup.append ((List.nodup_map_iff_inj_on (h.children_nodup hn)).2 ?_) ?_
    · intro a ha b hb hab
      exact (join_injective hx hx ((h.mem_children_iff hn a).1 ha).1
        ((h.mem_children_iff hn b).1 hb).1 hab).2
    · intro y hy hy'
      obtain ⟨c, hc, rfl⟩ := List.mem_map.1 hy'
      exact hwalk.child_notMem h hn hc hy
  case stored =>
    exact List.forall_mem_append.2
      ⟨hwalk.stored, List.forall_mem_map.2 fun c hc => (hchild c hc).1⟩
  case within =>
    exact List.forall_mem_append.2
      ⟨hwalk.within, List.forall_mem_map.2 fun c hc => (hchild c hc).2.2⟩
  case top => exact List.mem_append_left _ hwalk.top
  case above =>
    refine List.forall_mem_append.2 ⟨fun y hy hne => ?_, List.forall_mem_map.2 fun c hc _ =>
      ⟨x, by simp, (hchild c hc).2.1⟩⟩
    obtain ⟨v, hv, hpar⟩ := hwalk.above y hy hne
    exact ⟨v, List.mem_append_left _ hv, hpar⟩
  case below =>
    refine List.forall_mem_append.2 ⟨fun v hv y hst hpar =>
      List.mem_append_left _ (hwalk.below v hv y hst hpar), ?_⟩
    rw [List.forall_mem_singleton]
    rintro y ⟨m, hm⟩ hpar
    obtain ⟨-, -, hj⟩ := (parent?_eq_some_iff (h.valid hm)).1 hpar
    exact List.mem_append_right _ (List.mem_map.2 ⟨_, h.nodeName_mem_children hm hpar hn, hj⟩)
  case ordered =>
    refine List.pairwise_append.2 ⟨hwalk.ordered, ?_, fun a ha => ?_⟩
    · refine List.pairwise_of_forall_mem_list (List.forall_mem_map.2 fun a ha =>
        List.forall_mem_map.2 fun b hb hpar => ?_)
      obtain ⟨⟨m, hm⟩, hparb, -⟩ := hchild b hb
      rw [(hchild a ha).2.1] at hpar
      exact ne_of_parent? (h.valid hm) hparb (Option.some.inj hpar).symm
    · exact List.forall_mem_map.2 fun b hb => hwalk.parent_ne_child h hn ha hb

end Step

/-- A walk that has come to its end has listed everything. -/
theorem Walk.complete (h : t.WellFormed) (hwalk : t.Walk p visited []) (hx : t.Stored x)
    (hw : isWithin p x = true) : x ∈ visited := by
  have hp : Valid p := (hwalk.stored p hwalk.top).elim fun _ hm => h.valid hm
  obtain ⟨n, hn⟩ := hx
  have hxv := h.valid hn
  induction hxv using Valid.induction generalizing n with
  | top =>
    obtain rfl : p = root := isWithin_antisymm hp valid_root hw (isWithin_root hp)
    simpa using hwalk.top
  | child a m ha hm ih =>
    have hpar := parent?_join ha hm
    rcases (isWithin_join_iff hp ha hm).1 hw with rfl | hw
    · simpa using hwalk.top
    · obtain ⟨k, hk⟩ := h.parent_stored hn hpar
      simpa using hwalk.below _ (ih hw k hk) _ ⟨n, hn⟩ hpar

theorem Walk.mem_iff (h : t.WellFormed) (hwalk : t.Walk p visited []) :
    x ∈ visited ↔ t.Stored x ∧ isWithin p x = true := by
  refine ⟨fun hx => ?_, fun hx => hwalk.complete h hx.1 hx.2⟩
  exact ⟨hwalk.stored x (by simpa using hx), hwalk.within x (by simpa using hx)⟩

/-- Every visit is of another node. -/
theorem Walk.length_lt {rest : List String} (hwalk : t.Walk p visited (x :: rest)) :
    visited.length < t.nodes.length := by
  have hsub : visited ++ x :: rest ⊆ t.nodes.map Prod.fst := by
    intro y hy
    by_contra hnot
    exact not_stored_iff.2 (node?_eq_none_iff.2 hnot) (hwalk.stored y hy)
  have hle := (List.subperm_of_subset hwalk.nodup hsub).length_le
  simp only [List.length_append, List.length_cons, List.length_map] at hle
  omega

/-! ## Taking out -/

/-- Nodes that can be taken out one after the other: what is stored under one of them comes
before it. -/
structure Strippable (t : Tree) (who : Caller) (ps : List String) : Prop where
  nodup : ps.Nodup
  stored : ∀ x ∈ ps, t.Stored x
  permitted : ∀ x ∈ ps, ∃ q, parent? x = some q ∧ t.Readable who.identity q
  below : ∀ x ∈ ps, ∀ y, t.Stored y → parent? y = some x → y ∈ ps
  ordered : ps.Pairwise fun x y => parent? y ≠ some x

theorem Readable.step {q : String} {ev : Event} (h : t.WellFormed) (hs : Step who t ev t')
    (hq : t.Readable identity q) (hq' : t'.Stored q) : t'.Readable identity q := by
  obtain ⟨n, hn, hperm⟩ := hq
  obtain ⟨m, hm⟩ := hq'
  exact ⟨m, hm, by rw [(hs.origin_eq h hn hm).2.1, hperm]⟩

theorem Strippable.first (h : t.WellFormed) (hs : t.Strippable who (p :: ps)) :
    ∃ t', t.delete p none who = .ok ⟨t', [⟨.deleted, p⟩], ()⟩ ∧ Step who t ⟨.deleted, p⟩ t' ∧
      t'.Strippable who ps ∧ t.unlink p = (t', [⟨.deleted, p⟩]) := by
  obtain ⟨n, hn⟩ := hs.stored p (by simp)
  obtain ⟨q, hq, hread⟩ := hs.permitted p (by simp)
  obtain ⟨hpnot, hnodup⟩ := List.nodup_cons.1 hs.nodup
  obtain ⟨hlast, hordered⟩ := List.pairwise_cons.1 hs.ordered
  have hchildless : n.children = [] := by
    refine List.eq_nil_iff_forall_not_mem.2 fun c hc => ?_
    obtain ⟨hname, hst⟩ := (h.mem_children_iff hn c).1 hc
    have hpar := parent?_join (h.valid hn) hname
    rcases List.mem_cons.1 (hs.below p (by simp) _ hst hpar) with heq | hmem
    · exact ne_of_parent? (valid_join (h.valid hn) hname) hpar heq
    · exact hlast _ hmem hpar
  have hperm : ∀ m, t.node? q = some m → m.acl.permits who.identity = true := by
    intro m hm
    obtain ⟨k, hk, hperm⟩ := hread
    obtain rfl : m = k := Option.some.inj (hm.symm.trans hk)
    exact hperm
  have hstep : Step who t ⟨.deleted, p⟩ (t.without q p) := .removed hq hn hchildless (.inl hperm)
  have hleft (x : String) : (t.without q p).Stored x ↔ x ≠ p ∧ t.Stored x := hstep.stored_iff h x
  refine ⟨_, delete_of_permitted hq hn (expects_none n) hchildless hperm, hstep, ?_,
    unlink_of_stored hq hn⟩
  have hstored : ∀ x ∈ ps, (t.without q p).Stored x := fun x hx =>
    (hleft x).2 ⟨fun he => hpnot (he ▸ hx), hs.stored x (by simp [hx])⟩
  refine ⟨hnodup, hstored, fun x hx => ?_, fun x hx y hy hpar => ?_, hordered⟩
  · obtain ⟨a, ha, hread⟩ := hs.permitted x (by simp [hx])
    refine ⟨a, ha, hread.step h hstep ((hleft a).2 ⟨fun he => ?_, hread.stored⟩)⟩
    exact hlast x hx (he ▸ ha)
  · obtain ⟨hne, hy⟩ := (hleft y).1 hy
    exact (List.mem_cons.1 (hs.below x (by simp [hx]) y hy hpar)).resolve_left hne

/-- What is left after several deletions. -/
theorem Steps.stored_iff_of_deleted (h : t.WellFormed)
    (hs : Steps who t (ps.map (Event.mk .deleted)) t') :
    t'.Stored x ↔ x ∉ ps ∧ t.Stored x := by
  induction ps generalizing t with
  | nil =>
    cases hs
    simp
  | cons p ps ih =>
    cases hs with
    | cons first rest =>
      rw [ih (first.wellFormed h) rest, first.stored_iff h, List.mem_cons]
      tauto

/-- What a walk has listed can be taken out from the end. -/
theorem Walk.strippable (h : t.WellFormed) (hwalk : t.Walk p visited []) (hr : p ≠ root)
    (hread : ∀ x, t.Stored x → isWithin p x = true → t.Readable who.identity x) :
    t.Strippable who visited.reverse where
  nodup := List.nodup_reverse.2 (by simpa using hwalk.nodup)
  stored x hx := hwalk.stored x (by simpa using hx)
  permitted x hx := by
    obtain ⟨⟨n, hn⟩, hw⟩ := (hwalk.mem_iff h).1 (List.mem_reverse.1 hx)
    have hp : Valid p := (hwalk.stored p hwalk.top).elim fun _ hm => h.valid hm
    have hne : x ≠ root := by
      rintro rfl
      exact hr (isWithin_antisymm hp valid_root hw (isWithin_root hp))
    obtain ⟨q, -, -, -, hq, -⟩ := exists_parent_name (h.valid hn) hne
    exact ⟨q, hq, h.readable_parent (hread x ⟨n, hn⟩ hw) hq⟩
  below x hx y hy hpar := by
    simpa using hwalk.below x (List.mem_reverse.1 hx) y hy hpar
  ordered := List.pairwise_reverse.2 (by simpa using hwalk.ordered)

end Tree

end KeyRegistry
