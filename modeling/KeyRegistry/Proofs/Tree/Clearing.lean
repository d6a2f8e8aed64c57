import KeyRegistry.Proofs.Tree.Account

/-!
# The tree after a session

The ephemeral nodes of a session are taken out one after the other. What is found
at a path afterwards depends on which nodes were taken out and not on their order,
and a tree is known by its paths and by what is found at them.
-/

namespace KeyRegistry

open KeyRegistry.Path

namespace Tree

variable {t t' : Tree} {p q x : String} {n : Node} {s : Nat} {ps ps' : List String}

/-! ## A tree is known by its lookups -/

theorem eq_filterMap_lookup {es : List (String × Node)} (h : (es.map Prod.fst).Nodup) :
    es = (es.map Prod.fst).filterMap fun p => (es.lookup p).map (p, ·) := by
  induction es with
  | nil => rfl
  | cons e es ih =>
    obtain ⟨k, n⟩ := e
    rw [List.map_cons, List.nodup_cons] at h
    have hrest : ∀ p ∈ es.map Prod.fst,
        (((k, n) :: es).lookup p).map (p, ·) = (es.lookup p).map (p, ·) := by
      intro p hp
      have hne : p ≠ k := fun he => h.1 (he ▸ hp)
      rw [lookup_cons_ite, if_neg hne]
    rw [List.map_cons, List.filterMap_cons_some (by rw [lookup_cons_ite, if_pos rfl]; rfl),
      List.filterMap_congr hrest, ← ih h.2]

theorem eq_of_node?_eq (h : (t.nodes.map Prod.fst).Nodup)
    (hpaths : t'.nodes.map Prod.fst = t.nodes.map Prod.fst)
    (hnode : ∀ p, t'.node? p = t.node? p) (hzxid : t'.zxid = t.zxid) : t' = t := by
  have hnodes : t'.nodes = t.nodes := by
    calc t'.nodes
        = (t'.nodes.map Prod.fst).filterMap fun p => (t'.node? p).map (p, ·) :=
          eq_filterMap_lookup (hpaths ▸ h)
      _ = (t.nodes.map Prod.fst).filterMap fun p => (t.node? p).map (p, ·) := by
          simp only [hpaths, hnode]
      _ = t.nodes := (eq_filterMap_lookup h).symm
  obtain ⟨nodes, zxid⟩ := t
  obtain ⟨nodes', zxid'⟩ := t'
  simp_all

/-! ## Taking out several nodes -/

def bereft (p : String) (gone : List String) (n : Node) : Node :=
  { n with
    children := n.children.filter fun c => join p c ∉ gone
    stat := { n.stat with
      cversion := n.stat.cversion + Int32.ofNat (n.children.countP fun c => join p c ∈ gone)
      numChildren :=
        n.stat.numChildren - Int32.ofNat (n.children.countP fun c => join p c ∈ gone) } }

@[simp] theorem bereft_nil (p : String) (n : Node) : bereft p [] n = n := by
  have h0 : Int32.ofNat 0 = 0 := rfl
  simp [bereft, h0]

theorem bereft_congr (h : ∀ c ∈ n.children, join p c ∈ ps ↔ join p c ∈ ps') :
    bereft p ps n = bereft p ps' n := by
  have hfilter : (n.children.filter fun c => join p c ∉ ps) =
      n.children.filter fun c => join p c ∉ ps' :=
    List.filter_congr fun c hc => by simp [h c hc]
  have hcount : (n.children.countP fun c => join p c ∈ ps) =
      n.children.countP fun c => join p c ∈ ps' :=
    List.countP_congr fun c hc => by simp [h c hc]
  simp only [bereft, hfilter, hcount]

section

variable {name : String} (hnd : n.children.Nodup) (hmem : name ∈ n.children)
  (hname : ∀ c ∈ n.children, join q c = p ↔ c = name)

include hnd hmem hname

theorem countP_mem_cons (ps : List String) : (n.children.countP fun c => join q c ∈ p :: ps) =
    ((loseChild name n).children.countP fun c => join q c ∈ ps) + 1 := by
  have hself : join q name = p := (hname name hmem).2 rfl
  have hothers : ∀ c ∈ n.children.erase name, join q c ∈ p :: ps ↔ join q c ∈ ps := by
    intro c hc
    obtain ⟨hne, hc⟩ := hnd.mem_erase_iff.1 hc
    simp [hname c hc, hne]
  rw [(List.perm_cons_erase hmem).countP_eq, List.countP_cons_of_pos (by simp [hself]),
    children_loseChild, filter_ne_eq_erase hnd]
  exact congrArg (· + 1) (List.countP_congr fun c hc => by simpa using hothers c hc)

/-- The node at `q` loses its child `p` first and others later, or all at once. -/
theorem bereft_loseChild (ps : List String) :
    bereft q ps (loseChild name n) = bereft q (p :: ps) n := by
  have hchildren : (n.children.filter fun c => join q c ∉ p :: ps) =
      (loseChild name n).children.filter fun c => join q c ∉ ps := by
    rw [children_loseChild, List.filter_filter]
    exact List.filter_congr fun c hc => by simp [hname c hc, Bool.and_comm]
  have hgrown (a : Int32) (k : Nat) : a + Int32.ofNat (k + 1) = a + 1 + Int32.ofNat k := by
    rw [← numChildren_gain]
    grind
  have hshrunk (a : Int32) (k : Nat) : a - Int32.ofNat (k + 1) = a - 1 - Int32.ofNat k := by
    rw [← numChildren_gain]
    grind
  unfold bereft
  rw [hchildren, countP_mem_cons hnd hmem hname, hgrown, hshrunk]
  rfl

end

theorem paths_unlink (t : Tree) (p : String) :
    (t.unlink p).1.nodes.map Prod.fst = (t.nodes.map Prod.fst).filter (· ≠ p) := by
  cases hn : t.node? p with
  | none =>
    rw [unlink_of_absent hn, eq_comm, List.filter_eq_self]
    intro x hx
    have hne : x ≠ p := fun he => node?_eq_none_iff.1 hn (he ▸ hx)
    simp [hne]
  | some n =>
    have herase : (t.erase p).nodes.map Prod.fst = (t.nodes.map Prod.fst).filter (· ≠ p) := by
      simp [erase, List.filter_map, Function.comp_def]
    unfold unlink
    rw [hn]
    dsimp only
    split
    · rw [map_fst_modify, herase]
    · exact herase

theorem paths_unlinkAll (t : Tree) (ps : List String) :
    (t.unlinkAll ps).1.nodes.map Prod.fst = (t.nodes.map Prod.fst).filter (· ∉ ps) := by
  induction ps generalizing t with
  | nil => simp
  | cons p ps ih =>
    rw [unlinkAll, ih, paths_unlink, List.filter_filter]
    exact List.filter_congr fun x _ => by simp [Bool.and_comm]

namespace WellFormed

/-- Where one child is struck off, the node at its parent's path is as after a loss of it alone. -/
theorem node?_without_map (h : t.WellFormed) (hq : parent? p = some q) (hn : t.node? p = some n)
    (hx : x ≠ p) (ps : List String) :
    ((t.without q p).node? x).map (bereft x ps) = (t.node? x).map (bereft x (p :: ps)) := by
  rw [node?_without (ne_of_parent? (h.valid hn) hq), if_neg hx]
  cases hm : t.node? x with
  | none => simp
  | some m =>
    by_cases hxq : x = q
    · subst hxq
      have hiff := h.join_eq_iff hm (h.valid hn) hq
      simp [bereft_loseChild (h.children_nodup hm) (h.nodeName_mem_children hn hq hm) hiff]
    · have hne : ∀ c ∈ m.children, join x c ≠ p := fun c hc he => by
        have hname := ((h.mem_children_iff hm c).1 hc).1
        exact hxq (Option.some.inj ((parent?_join (h.valid hm) hname).symm.trans (he ▸ hq)))
      rw [if_neg hxq, Option.map_some, Option.map_some]
      exact congrArg some (bereft_congr fun c hc => by simp [hne c hc])

/-- What is found at a path after several nodes of a session were taken out. -/
theorem node?_unlinkAll (h : t.WellFormed) (hps : ps.Nodup)
    (howned : ∀ p ∈ ps, ∃ n, t.node? p = some n ∧ n.stat.owner = some s) (x : String) :
    (t.unlinkAll ps).1.node? x = if x ∈ ps then none else (t.node? x).map (bereft x ps) := by
  induction ps generalizing t with
  | nil =>
    have hid : bereft x [] = id := funext (bereft_nil x)
    simp [hid]
  | cons p ps ih =>
    obtain ⟨hp, hps⟩ := List.nodup_cons.1 hps
    obtain ⟨t', hu, hs⟩ := h.unlink_of_owned (howned p (by simp))
    have howned' : ∀ x ∈ ps, ∃ n, t'.node? x = some n ∧ n.stat.owner = some s :=
      fun x hx => hs.owned h (by rintro rfl; exact hp hx) (howned x (by simp [hx]))
    have hrest := ih (hs.wellFormed h) hps howned'
    cases hs with
    | removed hq hn =>
      rw [unlinkAll, hu, hrest]
      by_cases hx : x = p
      · have hne := ne_of_parent? (h.valid hn) hq
        simp [hx, hp, node?_without hne]
      · rw [h.node?_without_map hq hn hx]
        simp [hx]

theorem zxid_unlinkAll (h : t.WellFormed) (hps : ps.Nodup)
    (howned : ∀ p ∈ ps, ∃ n, t.node? p = some n ∧ n.stat.owner = some s) :
    (t.unlinkAll ps).1.zxid = t.zxid + ps.length := by
  have hsteps : Steps ⟨s, none⟩ t (t.unlinkAll ps).2 (t.unlinkAll ps).1 := by
    refine h.steps_unlinkAll fun p hp n hn => ?_
    obtain ⟨m, hm, howner⟩ := howned p hp
    obtain rfl : m = n := by simpa [hm] using hn
    exact howner
  rw [hsteps.zxid, h.events_unlinkAll hps howned, List.length_map]

/-- The order in which the nodes of a session are taken out makes no difference. -/
theorem unlinkAll_perm (h : t.WellFormed) (hps : ps.Perm (t.ephemeralsOf s)) :
    (t.unlinkAll ps).1 = (t.unlinkAll (t.ephemeralsOf s)).1 := by
  have hnd := h.nodup_ephemeralsOf s
  have howned : ∀ p ∈ t.ephemeralsOf s, ∃ n, t.node? p = some n ∧ n.stat.owner = some s :=
    fun p hp => h.mem_ephemeralsOf_iff.1 hp
  have howned' : ∀ p ∈ ps, ∃ n, t.node? p = some n ∧ n.stat.owner = some s :=
    fun p hp => howned p (hps.mem_iff.1 hp)
  refine eq_of_node?_eq ?_ ?_ (fun p => ?_) ?_
  · rw [paths_unlinkAll]
    exact h.paths_nodup.filter _
  · rw [paths_unlinkAll, paths_unlinkAll]
    exact List.filter_congr fun x _ => by simp [hps.mem_iff]
  · rw [h.node?_unlinkAll (hps.nodup_iff.2 hnd) howned', h.node?_unlinkAll hnd howned]
    have hbereft : bereft p ps = bereft p (t.ephemeralsOf s) :=
      funext fun n => bereft_congr fun c _ => hps.mem_iff
    simp only [hps.mem_iff, hbereft]
  · rw [h.zxid_unlinkAll (hps.nodup_iff.2 hnd) howned', h.zxid_unlinkAll hnd howned,
      hps.length_eq]

end WellFormed

/-! ## What the end of a session leaves -/

/-- The tree once the nodes of a session are gone, and nothing but them. -/
structure Cleared (s : Nat) (t t' : Tree) : Prop where
  gone {p : String} {n : Node} : t.node? p = some n → n.stat.owner = some s → t'.node? p = none
  absent {p : String} : t.node? p = none → t'.node? p = none
  /-- A node of nobody or of another session loses the children that are gone. -/
  kept {p : String} {n : Node} : t.node? p = some n → n.stat.owner ≠ some s →
    t'.node? p = some (bereft p (t.ephemeralsOf s) n)
  zxid : t'.zxid = t.zxid + (t.ephemeralsOf s).length

theorem WellFormed.cleared (h : t.WellFormed) (s : Nat) :
    Cleared s t (t.unlinkAll (t.ephemeralsOf s)).1 := by
  have howned : ∀ p ∈ t.ephemeralsOf s, ∃ n, t.node? p = some n ∧ n.stat.owner = some s :=
    fun p hp => h.mem_ephemeralsOf_iff.1 hp
  have hnode := h.node?_unlinkAll (h.nodup_ephemeralsOf s) howned
  refine ⟨fun {p n} hn howner => ?_, fun {p} hn => ?_, fun {p n} hn howner => ?_,
    h.zxid_unlinkAll (h.nodup_ephemeralsOf s) howned⟩
  · rw [hnode, if_pos (h.mem_ephemeralsOf_iff.2 ⟨n, hn, howner⟩)]
  · rw [hnode, hn]
    simp
  · have hmem : p ∉ t.ephemeralsOf s := by
      rw [h.mem_ephemeralsOf_iff]
      rintro ⟨m, hm, hmo⟩
      obtain rfl : n = m := by simpa [hn] using hm
      exact howner hmo
    rw [hnode, if_neg hmem, hn, Option.map_some]

end Tree

end KeyRegistry
