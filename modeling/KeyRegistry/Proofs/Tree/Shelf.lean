import KeyRegistry.Proofs.Tree.Growth

/-!
# What a tree shows under a root

The nodes under a root, in the order of their creation, with their data and
whether they are ephemeral. Every elementary change shows as one change of this
list, and the children of a node are listed in its order.
-/

namespace KeyRegistry

open KeyRegistry.Path

namespace Tree

variable {t t' : Tree} {p q root : String} {n m : Node} {who : Caller} {ev : Event}

/-! ## The order of children -/

def namesUnder (p : String) (paths : List String) : List String :=
  (paths.filter fun x => parent? x = some p).map nodeName

/-- Whether every node lists its children in the order of the nodes. -/
def Listed (t : Tree) : Prop :=
  ∀ p n, t.node? p = some n → n.children = namesUnder p (t.nodes.map Prod.fst)

theorem listed_empty : empty.Listed := by
  intro p n h
  obtain ⟨rfl, rfl⟩ := eq_of_node?_empty h
  rfl

theorem namesUnder_concat (p x : String) (paths : List String) :
    namesUnder p (paths ++ [x]) =
      namesUnder p paths ++ if parent? x = some p then [nodeName x] else [] := by
  unfold namesUnder
  rw [List.filter_append, List.map_append]
  split_ifs with h <;> simp [h]

theorem namesUnder_filter {paths : List String} (hvalid : ∀ x ∈ paths, Valid x) (hp : Valid p)
    (q : String) :
    namesUnder q (paths.filter (· ≠ p)) =
      if parent? p = some q then (namesUnder q paths).filter (· ≠ nodeName p)
      else namesUnder q paths := by
  unfold namesUnder
  rw [List.filter_filter]
  split_ifs with hpar
  · rw [List.filter_map, List.filter_filter]
    congr 1
    refine List.filter_congr fun x hx => ?_
    by_cases hxpar : parent? x = some q
    · have hiff : x = p ↔ nodeName x = nodeName p := by
        refine ⟨fun he => he ▸ rfl, fun he => ?_⟩
        obtain ⟨-, -, hj⟩ := (parent?_eq_some_iff (hvalid x hx)).1 hxpar
        obtain ⟨-, -, hj'⟩ := (parent?_eq_some_iff hp).1 hpar
        rw [← hj, ← hj', he]
      simp [hxpar, hiff]
    · simp [hxpar]
  · congr 1
    refine List.filter_congr fun x _ => ?_
    by_cases hx : x = p <;> simp [hx, hpar]

theorem mem_paths_iff {x : String} : x ∈ t.nodes.map Prod.fst ↔ t.Stored x := by
  rw [← not_iff_not, ← node?_eq_none_iff, not_stored_iff]

theorem WellFormed.namesUnder_absent (h : t.WellFormed) (habsent : ¬t.Stored p) :
    namesUnder p (t.nodes.map Prod.fst) = [] := by
  unfold namesUnder
  rw [List.map_eq_nil_iff, List.filter_eq_nil_iff]
  intro x hx hpar
  obtain ⟨n, hn⟩ := mem_paths_iff.1 hx
  exact habsent (h.parent_stored hn (by simpa using hpar))

theorem Step.listed (h : t.WellFormed) (hl : t.Listed) (hs : Step who t ev t') : t'.Listed := by
  intro x k hk
  cases hs with
  | @created p q parent data owner valid above stored persistent permitted fresh owned =>
    have hnone := h.node?_eq_none_of_fresh above stored fresh
    rw [node?_withNode hnone (ne_of_parent? valid above)] at hk
    rw [paths_withNode, namesUnder_concat]
    split_ifs at hk with hx hxq
    · obtain rfl := Option.some.inj hk
      rw [hx, h.namesUnder_absent (not_stored_iff.2 hnone),
        if_neg fun he => ne_of_parent? valid he rfl]
      rfl
    · obtain ⟨n, hn, rfl⟩ := Option.map_eq_some_iff.1 hk
      rw [if_pos (by rw [above, hxq]), children_gainChild, hl x n hn]
    · rw [if_neg fun he => hxq (Option.some.inj (he.symm.trans above)), List.append_nil, hl x k hk]
  | @written p n data stored permitted =>
    rw [node?_withData stored] at hk
    rw [paths_withData]
    split_ifs at hk with hx
    · obtain rfl := Option.some.inj hk
      rw [hx]
      exact hl p n stored
    · exact hl x k hk
  | @removed p q n above stored childless permitted =>
    rw [node?_without (ne_of_parent? (h.valid stored) above)] at hk
    have hvalid : ∀ y ∈ t.nodes.map Prod.fst, Valid y := fun y hy =>
      (mem_paths_iff.1 hy).elim fun _ hn => h.valid hn
    rw [paths_without, namesUnder_filter hvalid (h.valid stored)]
    by_cases hx : x = p
    · simp [hx] at hk
    · rw [if_neg hx] at hk
      by_cases hxq : x = q
      · rw [if_pos hxq] at hk
        obtain ⟨n', hn', rfl⟩ := Option.map_eq_some_iff.1 hk
        rw [if_pos (hxq ▸ above), children_loseChild, hl x n' hn']
      · rw [if_neg hxq] at hk
        rw [if_neg fun he => hxq (Option.some.inj (he.symm.trans above)), hl x k hk]

/-! ## The shelf -/

structure Spine where
  path : String
  data : List UInt8
  ephemeral : Bool
  deriving DecidableEq, Repr

def spine (e : String × Node) : Spine := ⟨e.1, e.2.data, e.2.stat.owner.isSome⟩

def shelf (root : String) (t : Tree) : List Spine :=
  (t.nodes.filter fun e => isWithin root e.1).map spine

theorem map_path_shelf (root : String) (t : Tree) :
    (shelf root t).map Spine.path = (t.nodes.map Prod.fst).filter fun x => isWithin root x := by
  rw [shelf, List.map_map, List.filter_map]
  rfl

/-- Names are listed under a node of the shelf as they stand there. -/
theorem WellFormed.namesUnder_shelf (h : t.WellFormed) (hroot : Valid root)
    (hp : isWithin root p = true) :
    namesUnder p (t.nodes.map Prod.fst) = namesUnder p ((shelf root t).map Spine.path) := by
  rw [map_path_shelf, namesUnder, namesUnder, List.filter_filter]
  congr 1
  refine List.filter_congr fun x hx => ?_
  by_cases hpar : parent? x = some p
  · obtain ⟨n, hn⟩ := mem_paths_iff.1 hx
    obtain ⟨hpv, hname, hj⟩ := (parent?_eq_some_iff (h.valid hn)).1 hpar
    have hw : isWithin root x = true := hj ▸ (isWithin_join_iff hroot hpv hname).2 (.inr hp)
    simp [hw]
  · simp [hpar]

theorem shelf_modify {f : Node → Node}
    (hf : ∀ e ∈ t.nodes, e.1 = p → spine (e.1, f e.2) = spine e) :
    shelf root (t.modify p f) = shelf root t := by
  unfold shelf modify
  rw [List.filter_map, List.map_map]
  have hcomp : (fun e : String × Node => isWithin root e.1) ∘
      (fun e => if e.1 = p then (e.1, f e.2) else e) = fun e => isWithin root e.1 := by
    funext e
    dsimp only [Function.comp_apply]
    split_ifs <;> rfl
  rw [hcomp]
  refine List.map_congr_left fun e he => ?_
  dsimp only [Function.comp_apply]
  split_ifs with hp
  · exact hf e (List.mem_of_mem_filter he) hp
  · rfl

theorem shelf_withNode (t : Tree) (q p : String) (n : Node) :
    shelf root (t.withNode q p n) =
      shelf root t ++ if isWithin root p then [spine (p, n)] else [] := by
  have hgain : shelf root (t.modify q (gainChild (nodeName p))) = shelf root t :=
    shelf_modify fun _ _ _ => rfl
  rw [← hgain]
  simp only [shelf, withNode, insert, List.filter_append, List.map_append, List.filter_cons,
    List.filter_nil]
  split_ifs <;> rfl

theorem shelf_withData (h : t.WellFormed) (hn : t.node? p = some n) (data : List UInt8) :
    shelf root (t.withData p n data) =
      (shelf root t).map fun b => if b.path = p then { b with data := data } else b := by
  unfold shelf withData modify
  simp only [List.filter_map, List.map_map]
  have hcomp : (fun e : String × Node => isWithin root e.1) ∘
      (fun e => if e.1 = p then (e.1, { e.2 with
        data := data, stat := writtenStat n.stat data (t.zxid + 1) }) else e) =
      fun e => isWithin root e.1 := by
    funext e
    dsimp only [Function.comp_apply]
    split_ifs <;> rfl
  rw [hcomp]
  refine List.map_congr_left fun e he => ?_
  by_cases hp : e.1 = p
  · have hlookup := (mem_iff_lookup h.paths_nodup).1 (List.mem_of_mem_filter he)
    obtain rfl : n = e.2 := Option.some.inj (hn.symm.trans (hp ▸ hlookup))
    simp [spine, hp, writtenStat]
  · simp [spine, hp]

theorem shelf_erase (t : Tree) (p : String) :
    shelf root (t.erase p) = (shelf root t).filter fun b => b.path ≠ p := by
  simp only [shelf, erase, List.filter_map, List.filter_filter]
  congr 1
  refine List.filter_congr fun e _ => ?_
  exact Bool.and_comm _ _

theorem shelf_unlink (t : Tree) (p : String) :
    shelf root (t.unlink p).1 = (shelf root t).filter fun b => b.path ≠ p := by
  unfold unlink
  cases hn : t.node? p with
  | none =>
    symm
    refine List.filter_eq_self.2 fun b hb => ?_
    obtain ⟨e, he, rfl⟩ := List.mem_map.1 hb
    have hmem := List.mem_map_of_mem (f := Prod.fst) (List.mem_of_mem_filter he)
    refine decide_eq_true fun hep => ?_
    exact node?_eq_none_iff.1 hn (hep ▸ hmem)
  | some n =>
    rw [← shelf_erase]
    cases hq : parent? p with
    | none => rfl
    | some q => exact shelf_modify fun _ _ _ => rfl

theorem shelf_unlinkAll (t : Tree) (ps : List String) :
    shelf root (t.unlinkAll ps).1 = (shelf root t).filter fun b => b.path ∉ ps := by
  induction ps generalizing t with
  | nil => simp
  | cons p ps ih =>
    rw [show (t.unlinkAll (p :: ps)).1 = ((t.unlink p).1.unlinkAll ps).1 from rfl, ih, shelf_unlink,
      List.filter_filter]
    refine List.filter_congr fun b _ => ?_
    simp [Bool.and_comm]

theorem shelf_sprout (who : Caller) (t : Tree) (ps : List String) :
    shelf root (t.sprout who ps) = shelf root t ++
      (ps.filter fun p => isWithin root p).map fun p => ⟨p, [], false⟩ := by
  induction ps generalizing t with
  | nil => simp [sprout]
  | cons p ps ih =>
    rw [sprout, ih, shelf_withNode, List.append_assoc]
    congr 1
    by_cases hp : isWithin root p = true
    · simp [hp, spine, Node.new]
    · simp [hp]

theorem mem_shelf_iff (h : t.WellFormed) {b : Spine} :
    b ∈ shelf root t ↔ isWithin root b.path = true ∧
      ∃ n, t.node? b.path = some n ∧ b = spine (b.path, n) := by
  simp only [shelf, List.mem_map, List.mem_filter]
  constructor
  · rintro ⟨e, ⟨he, hw⟩, rfl⟩
    exact ⟨hw, e.2, (mem_iff_lookup h.paths_nodup).1 he, rfl⟩
  · rintro ⟨hw, n, hn, hb⟩
    exact ⟨_, ⟨(mem_iff_lookup h.paths_nodup).2 hn, hw⟩, hb.symm⟩

end Tree

end KeyRegistry
