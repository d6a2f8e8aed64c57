import KeyRegistry.Proofs.Center.Reference
import KeyRegistry.Proofs.Text.Utf8
import KeyRegistry.Proofs.Tree.Shelf

/-!
# The tree behind a registry

A tree represents a registry if the shelf under the root of the namespace shows
the keys with their items, in the same order. Everything else is about who may do
what with the nodes: all of them are open to the identity, and the ephemeral ones
belong to the session and stand in the namespace.
-/

namespace KeyRegistry

open KeyRegistry.Path

namespace Tree

variable {t t' : Tree} {who : Caller} {ev : Event} {session : Option Nat} {top : String}

/-- A tree that only sessions of one identity have changed, the last of which is `session`. -/
structure Tended (top : String) (identity : Option String) (session : Option Nat) (t : Tree) :
    Prop where
  wellFormed : t.WellFormed
  listed : t.Listed
  permitted {p : String} {n : Node} : t.node? p = some n → n.acl.permits identity = true
  owned {p : String} {n : Node} : t.node? p = some n → n.stat.owner ≠ none →
    n.stat.owner = session ∧ isWithin top p = true

theorem tended_empty (top : String) (identity : Option String) :
    empty.Tended top identity none where
  wellFormed := wellFormed_empty
  listed := listed_empty
  permitted hn := by simp [(eq_of_node?_empty hn).2, Node.new]
  owned hn howner := by simp [(eq_of_node?_empty hn).2, Node.new] at howner

theorem Tended.readable {identity : Option String} (h : t.Tended top identity session)
    {p : String} (hp : t.Stored p) : t.Readable identity p :=
  hp.imp fun _ hn => ⟨hn, h.permitted hn⟩

theorem Tended.step (h : t.Tended top who.identity session) (hs : Step who t ev t')
    (hnew : ∀ n, ev.kind = .created → t'.node? ev.path = some n → n.stat.owner ≠ none →
      n.stat.owner = session ∧ isWithin top ev.path = true) :
    t'.Tended top who.identity session where
  wellFormed := hs.wellFormed h.wellFormed
  listed := hs.listed h.wellFormed h.listed
  permitted hm := by
    rcases hs.old_or_new h.wellFormed hm with ⟨n, hn⟩ | ⟨-, -, -, data, owner, rfl⟩
    · rw [(hs.origin_eq h.wellFormed hn hm).2.1]
      exact h.permitted hn
    · exact permits_acl who
  owned hm howner := by
    rcases hs.old_or_new h.wellFormed hm with ⟨n, hn⟩ | ⟨rfl, -, -, -⟩
    · obtain ⟨-, -, heq⟩ := hs.origin_eq h.wellFormed hn hm
      rw [heq] at howner ⊢
      exact h.owned hn howner
    · exact hnew _ rfl hm howner

theorem Tended.steps_of_deleted {evs : List Event} (h : t.Tended top who.identity session)
    (hs : Steps who t evs t') (hevs : ∀ ev ∈ evs, ev.kind = .deleted) :
    t'.Tended top who.identity session := by
  induction hs with
  | nil => exact h
  | cons first _ ih =>
    refine ih (h.step first fun n hk => ?_) fun ev hev => hevs ev (by simp [hev])
    rw [hevs _ (by simp)] at hk
    cases hk

theorem unlinkAll_deleted (t : Tree) (ps : List String) :
    ∀ ev ∈ (t.unlinkAll ps).2, ev.kind = .deleted := by
  induction ps generalizing t with
  | nil => simp
  | cons p ps ih =>
    intro ev hev
    rcases List.mem_append.1 hev with hev | hev
    · split at hev
      · simp at hev
      · rw [List.mem_singleton.1 hev]
    · exact ih _ ev hev

theorem Tended.sprout (h : t.Tended top who.identity session) {a : String} {ps : List String}
    (hps : Lineage a ps) (hopen : t.Open who a) (habsent : ∀ x ∈ ps, ¬t.Stored x) :
    (sprout who t ps).Tended top who.identity session := by
  induction ps generalizing t a with
  | nil => exact h
  | cons p ps ih =>
    obtain ⟨t', -, hstep, hopen', habsent', heq⟩ :=
      exists_first_sprout h.wellFormed hps hopen habsent
    rw [heq]
    refine ih (h.step hstep fun n _ hn howner => absurd ?_ howner) hps.2.2 hopen' habsent'
    obtain ⟨k, hk, hpersistent, -⟩ := hopen'
    rwa [Option.some.inj (hn.symm.trans hk)]

structure Represents (ns : Namespace) (identity : Option String) (session : Option Nat)
    (t : Tree) (r : Registry) : Prop extends Tended ns.root identity session t where
  valid : ∀ x ∈ r.items, Valid x.1
  shelf : t.shelf ns.root = r.items.map fun x =>
    ⟨ns.place x.1, Text.Utf8.encode x.2.value, x.2.ephemeral⟩

namespace Represents

variable {ns : Namespace} {identity : Option String} {r : Registry} {key p : String} {n : Node}
  {item : Item}

theorem exists_node (h : t.Represents ns identity session r) (hitem : r.item? key = some item) :
    ∃ n, t.node? (ns.place key) = some n ∧ n.data = Text.Utf8.encode item.value ∧
      n.stat.owner.isSome = item.ephemeral := by
  obtain ⟨before, after, heq, -⟩ := List.lookup_eq_some_iff.1 hitem
  have hmem : (⟨ns.place key, Text.Utf8.encode item.value, item.ephemeral⟩ : Spine) ∈
      t.shelf ns.root := by
    rw [h.shelf]
    exact List.mem_map.2 ⟨(key, item), by simp [heq], rfl⟩
  obtain ⟨-, n, hn, hspine⟩ := (mem_shelf_iff h.wellFormed).1 hmem
  simp only [spine, Spine.mk.injEq, true_and] at hspine
  exact ⟨n, hn, hspine.1.symm, hspine.2.symm⟩

section

variable (hns : ns.Proper) (h : t.Represents ns identity session r) (hk : Valid key)

include hns h hk

theorem node?_eq_none (hitem : r.item? key = none) : t.node? (ns.place key) = none := by
  cases hn : t.node? (ns.place key) with
  | none => rfl
  | some n =>
    have hmem : spine (ns.place key, n) ∈ t.shelf ns.root :=
      (mem_shelf_iff h.wellFormed).2 ⟨Namespace.isWithin_root_place hns hk, n, hn, rfl⟩
    rw [h.shelf] at hmem
    obtain ⟨x, hx, heq⟩ := List.mem_map.1 hmem
    have hkey := Namespace.place_injective hns (h.valid x hx) hk (congrArg Spine.path heq)
    have := List.lookup_eq_none_iff.1 hitem x hx
    simp [hkey] at this

theorem exists_item (hn : t.node? (ns.place key) = some n) :
    ∃ item, r.item? key = some item ∧ n.data = Text.Utf8.encode item.value ∧
      n.stat.owner.isSome = item.ephemeral := by
  cases hitem : r.item? key with
  | none => simp [h.node?_eq_none hns hk hitem] at hn
  | some item =>
    obtain ⟨m, hm, hdata⟩ := h.exists_node hitem
    obtain rfl : n = m := Option.some.inj (hn.symm.trans hm)
    exact ⟨item, rfl, hdata⟩

theorem stored_iff : t.Stored (ns.place key) ↔ r.has key = true := by
  constructor
  · rintro ⟨n, hn⟩
    obtain ⟨item, hitem, -⟩ := h.exists_item hns hk hn
    simp [Registry.has, hitem]
  · intro hhas
    obtain ⟨item, hitem⟩ := Option.isSome_iff_exists.1 hhas
    exact (h.exists_node hitem).imp fun _ hn => hn.1

theorem isNone_eq : (t.node? (ns.place key)).isNone = !r.has key := by
  rw [Bool.eq_iff_iff, Option.isNone_iff_eq_none, ← not_stored_iff, h.stored_iff hns hk]
  simp

/-- The names of the keys under a key are those of the nodes under its place. -/
theorem namesUnder_eq : namesUnder (ns.place key) (t.nodes.map Prod.fst) = r.names key := by
  have hw := Namespace.isWithin_root_place hns hk
  have hparent (x : String × Item) (hx : x ∈ r.items) :
      parent? (ns.place x.1) = some (ns.place key) ↔ parent? x.1 = some key := by
    have hxv := h.valid x hx
    by_cases hroot : x.1 = root
    · rw [hroot, Namespace.place_root hns, parent?_root]
      refine iff_of_false (fun hpar => ?_) (by simp)
      simp [not_isWithin_of_parent? hns.valid hpar] at hw
    · obtain ⟨q, m, hq, -, hpar, -⟩ := exists_parent_name hxv hroot
      rw [Namespace.parent?_place hns hxv hroot, hpar, Option.map_some, Option.some.injEq,
        Option.some.injEq]
      exact ⟨Namespace.place_injective hns hq hk, fun he => he ▸ rfl⟩
  rw [h.wellFormed.namesUnder_shelf hns.valid hw, h.shelf, List.map_map, namesUnder,
    Registry.names, List.filter_map, List.map_map]
  rw [List.filter_congr (q := fun x => decide (parent? x.1 = some key))]
  · refine List.map_congr_left fun x hx => ?_
    obtain ⟨hx, hpar⟩ := List.mem_filter.1 hx
    refine Namespace.nodeName_place hns (h.valid x hx) fun hroot => ?_
    simp [hroot] at hpar
  · intro x hx
    exact decide_eq_decide.2 (hparent x hx)

theorem children_eq (hn : t.node? (ns.place key) = some n) : n.children = r.names key :=
  (h.listed _ n hn).trans (h.namesUnder_eq hns hk)

theorem names_absent (habsent : r.has key = false) : r.names key = [] := by
  rw [← h.namesUnder_eq hns hk]
  refine h.wellFormed.namesUnder_absent fun hstored => ?_
  simp [(h.stored_iff hns hk).1 hstored] at habsent

end

/-! ## Changes -/

theorem write (hns : ns.Proper) (h : t.Represents ns who.identity session r)
    (hk : Valid key) (hn : t.node? (ns.place key) = some n) (value : String) :
    (t.withData (ns.place key) n (Text.Utf8.encode value)).Represents ns who.identity session
      (r.write key value) where
  toTended := h.toTended.step (.written _ hn (h.permitted hn)) fun _ hkind => nomatch hkind
  valid := by
    simp only [Registry.write, List.forall_mem_map]
    intro x hx
    split_ifs <;> exact h.valid x hx
  shelf := by
    rw [shelf_withData h.wellFormed hn, h.shelf, Registry.write, List.map_map, List.map_map]
    refine List.map_congr_left fun x hx => ?_
    have hiff : ns.place x.1 = ns.place key ↔ x.1 = key :=
      ⟨Namespace.place_injective hns (h.valid x hx) hk, fun he => he ▸ rfl⟩
    simp only [Function.comp_apply, hiff]
    split_ifs <;> rfl

theorem cut (hns : ns.Proper) (h : t.Represents ns who.identity session r)
    (hk : Valid key) {found : List String}
    (hfound : ∀ x, x ∈ found ↔ t.Stored x ∧ isWithin (ns.place key) x = true)
    (hsteps : Steps who t (found.map fun p => ⟨.deleted, p⟩) (t.unlinkAll found).1) :
    (t.unlinkAll found).1.Represents ns who.identity session (r.cut key) where
  toTended := h.toTended.steps_of_deleted hsteps (by simp)
  valid x hx := h.valid x (List.mem_of_mem_filter hx)
  shelf := by
    have hshown : ∀ b ∈ t.shelf ns.root,
        decide (b.path ∉ found) = !isWithin (ns.place key) b.path := by
      intro b hb
      obtain ⟨-, n, hn, -⟩ := (mem_shelf_iff h.wellFormed).1 hb
      have hst : t.Stored b.path := ⟨n, hn⟩
      rw [Bool.eq_iff_iff]
      simp [hfound, hst]
    rw [shelf_unlinkAll, List.filter_congr hshown, h.shelf, Registry.cut, List.filter_map]
    congr 1
    refine List.filter_congr fun x hx => ?_
    rw [Function.comp_apply, Namespace.isWithin_place_iff hns hk (h.valid x hx)]

/-! ## Additions -/

theorem isWithin_root_of_mem_ancestors (hns : ns.Proper) {a : String}
    (ha : a ∈ ancestors ns.root) : isWithin ns.root a = false := by
  have habove : a ∈ above ns.root := by
    rw [above, if_neg hns.ne_root]
    exact List.mem_cons_of_mem _ ha
  have hav := valid_of_mem_above hns.valid habove
  obtain ⟨hw, hne⟩ := (mem_above_iff hav hns.valid).1 habove
  by_contra hin
  exact hne (isWithin_antisymm hav hns.valid hw (by simpa using hin))

/-- The missing nodes in the namespace are the places of the missing keys. -/
theorem filter_missing (hns : ns.Proper) (h : t.Represents ns identity session r)
    (hk : Valid key) {m : Node} {missing : List String}
    (hnear : t.Nearest (ns.place key) top m missing) :
    (missing.filter fun x => isWithin ns.root x) =
      ((above key).filter fun a => !r.has a).map ns.place := by
  rw [hnear.missing_eq, Namespace.ancestors_place hns hk, List.filter_append,
    List.filter_append, List.filter_filter, List.filter_eq_nil_iff.2, List.nil_append,
    List.filter_map, List.filter_map, List.filter_filter]
  · congr 1
    refine List.filter_congr fun a ha => ?_
    have hav := valid_of_mem_above hk ha
    simp [Namespace.isWithin_root_place hns hav, h.isNone_eq hns hav]
  · intro a ha
    simp [isWithin_root_of_mem_ancestors hns ha]

theorem add (hns : ns.Proper) (h : t.Represents ns who.identity (some who.session) r)
    (hk : Valid key) {m : Node} {missing : List String}
    (hnear : t.Nearest (ns.place key) top m missing) (howner : m.stat.owner = none)
    (habsent : r.has key = false) {mode : Mode} (hmode : mode.sequential = false)
    (value : String) :
    (t.planted who top missing (ns.place key) (Text.Utf8.encode value) mode).Represents ns
      who.identity (some who.session) (r.add key ⟨value, mode.ephemeral⟩) where
  toTended := by
    have hp := Namespace.valid_place hns hk
    have hperm := h.permitted hnear.stored
    have hnot : ¬t.Stored (ns.place key) := by simp [h.stored_iff hns hk, habsent]
    have hcreate := hnear.create_sprout h.wellFormed hp howner hperm hnot hmode
      (Text.Utf8.encode value)
    have hsprout := h.toTended.sprout (lineage_append.1 hnear.lineage).1
      ⟨m, hnear.stored, howner, hperm⟩ hnear.absent
    refine hsprout.step (step_of_create hcreate).2 fun n _ hn hnowner => ?_
    have hnew := hnear.node?_planted h.wellFormed hp howner hperm hnot mode
      (Text.Utf8.encode value)
    obtain rfl := Option.some.inj (hn.symm.trans hnew)
    refine ⟨?_, Namespace.isWithin_root_place hns hk⟩
    simp only [Node.new, ownerOf] at hnowner ⊢
    split_ifs at hnowner ⊢
    · rfl
    · exact absurd rfl hnowner
  valid := by
    simp only [Registry.add, List.forall_mem_append, List.forall_mem_map, List.mem_filter]
    exact ⟨⟨h.valid, fun a ha => valid_of_mem_above hk ha.1⟩, by simpa using hk⟩
  shelf := by
    have hspine : spine (ns.place key, Node.new (Text.Utf8.encode value) who.acl
        ((t.sprout who missing).zxid + 1) (ownerOf mode who)) =
        ⟨ns.place key, Text.Utf8.encode value, mode.ephemeral⟩ := by
      simp only [spine, Node.new, ownerOf]
      split_ifs with hmode <;> simp [hmode]
    rw [planted, shelf_withNode, if_pos (Namespace.isWithin_root_place hns hk), hspine,
      shelf_sprout, filter_missing hns h hk hnear, h.shelf, Registry.add, List.map_append,
      List.map_append, List.map_map, List.map_map]
    rfl

/-! ## Keys under ephemeral keys -/

/-- A key is blocked just if the nearest node above its place is ephemeral. -/
theorem blocker?_eq (hns : ns.Proper) (h : t.Represents ns identity session r)
    (hk : Valid key) {m : Node} {missing : List String}
    (hnear : t.Nearest (ns.place key) top m missing) :
    (r.blocker? key).map ns.place = if m.stat.owner = none then none else some top := by
  have hanc (a : String) (ha : a ∈ above key) : ns.place a ∈ ancestors (ns.place key) := by
    rw [Namespace.ancestors_place hns hk]
    exact List.mem_append_right _ (List.mem_map_of_mem ha)
  have hblocked (a : String) (hblock : r.blocker? key = some a) : ns.place a = top ∧
      m.stat.owner ≠ none := by
    have hmem := List.mem_of_find?_eq_some hblock
    have hfound := List.find?_some hblock
    obtain ⟨item, hitem, hitemeph⟩ : ∃ item, r.item? a = some item ∧ item.ephemeral = true := by
      cases hitem : r.item? a with
      | none => simp [hitem] at hfound
      | some item => exact ⟨item, rfl, by simpa [hitem] using hfound⟩
    obtain ⟨n, hn, -, heph⟩ := h.exists_node hitem
    have hnowner : n.stat.owner ≠ none := by
      rintro hnone
      simp [hnone, hitemeph] at heph
    have htop := hnear.eq_top_of_ephemeral h.wellFormed (hanc a hmem) hn hnowner
    refine ⟨htop, ?_⟩
    rw [htop] at hn
    rwa [Option.some.inj (hnear.stored.symm.trans hn)]
  split_ifs with howner
  · cases hblock : r.blocker? key with
    | none => rfl
    | some a => exact absurd howner (hblocked a hblock).2
  · obtain ⟨howned, hw⟩ := h.owned hnear.stored howner
    have htop : top ∈ ancestors (ns.place key) := by
      refine hnear.top_mem.resolve_left ?_
      rintro rfl
      exact hns.ne_root (isWithin_antisymm hns.valid valid_root hw (isWithin_root hns.valid))
    rw [Namespace.ancestors_place hns hk, List.mem_append] at htop
    obtain ⟨a, ha, rfl⟩ := List.mem_map.1 (htop.resolve_left fun hmem => by
      simp [isWithin_root_of_mem_ancestors hns hmem] at hw)
    obtain ⟨item, hitem, -, heph⟩ := h.exists_item hns (valid_of_mem_above hk ha) hnear.stored
    have hisSome : (r.blocker? key).isSome := by
      rw [Registry.blocker?, List.find?_isSome]
      refine ⟨a, ha, ?_⟩
      rw [hitem, Option.map_some, Option.getD_some, ← heph]
      exact Option.isSome_iff_ne_none.2 howner
    obtain ⟨b, hb⟩ := Option.isSome_iff_exists.1 hisSome
    rw [hb, Option.map_some, (hblocked b hb).1]

/-! ## The sessions of a center -/

theorem fresh (hns : ns.Proper) (identity : Option String) :
    empty.Represents ns identity none {} where
  toTended := tended_empty ns.root identity
  valid := by simp
  shelf := by
    have hw : isWithin ns.root root = false := by
      by_contra hin
      exact hns.ne_root (isWithin_antisymm hns.valid valid_root (by simpa using hin)
        (isWithin_root hns.valid))
    simp [Tree.shelf, empty, hw]

/-- A new session takes over a tree in which none has left an ephemeral node. -/
theorem adopt (h : t.Represents ns identity none r) (session : Option Nat) :
    t.Represents ns identity session r where
  toTended := { h.toTended with
    owned := fun hn howner => absurd (h.owned hn howner).1 howner }
  valid := h.valid
  shelf := h.shelf

/-- The end of the session leaves the persistent keys. -/
theorem endSession {s : Nat} (h : t.Represents ns identity (some s) r) {order : List String}
    (hperm : order.Perm (t.ephemeralsOf s)) :
    (t.unlinkAll order).1.Represents ns identity none
      ⟨false, r.items.filter fun x => !x.2.ephemeral⟩ := by
  have hmem (p : String) : p ∈ order ↔ ∃ n, t.node? p = some n ∧
      n.stat.owner = some s :=
    hperm.mem_iff.trans h.wellFormed.mem_ephemeralsOf_iff
  have hsteps : Steps ⟨s, identity⟩ t (t.unlinkAll order).2 (t.unlinkAll order).1 := by
    refine h.wellFormed.steps_unlinkAll fun p hp n hn => ?_
    obtain ⟨m, hm, howner⟩ := (hmem p).1 hp
    rwa [Option.some.inj (hn.symm.trans hm)]
  have htended : (t.unlinkAll order).1.Tended ns.root identity (some s) :=
    Tended.steps_of_deleted (h.toTended) hsteps (unlinkAll_deleted t order)
  have hkept : ∀ b ∈ t.shelf ns.root, decide (b.path ∉ order) = !b.ephemeral := by
    intro b hb
    obtain ⟨-, n, hn, hspine⟩ := (mem_shelf_iff h.wellFormed).1 hb
    have heph : b.ephemeral = n.stat.owner.isSome := congrArg Spine.ephemeral hspine
    have hiff : b.path ∈ order ↔ n.stat.owner.isSome = true := by
      rw [hmem, Option.isSome_iff_ne_none]
      constructor
      · rintro ⟨m, hm, howner⟩
        rw [Option.some.inj (hn.symm.trans hm), howner]
        exact Option.some_ne_none _
      · exact fun howner => ⟨n, hn, (h.owned hn howner).1⟩
    rw [heph, Bool.eq_iff_iff, decide_eq_true_iff, hiff]
    simp
  have hshelf : (t.unlinkAll order).1.shelf ns.root =
      (t.shelf ns.root).filter fun b => !b.ephemeral := by
    rw [shelf_unlinkAll, List.filter_congr hkept]
  refine ⟨{ htended with owned := fun {p n} hn howner => ?_ }, fun x hx => ?_, ?_⟩
  · obtain ⟨-, hw⟩ := htended.owned hn howner
    have hb : spine (p, n) ∈ (t.unlinkAll order).1.shelf ns.root :=
      (mem_shelf_iff htended.wellFormed).2 ⟨hw, n, hn, rfl⟩
    rw [hshelf] at hb
    have heph : (!n.stat.owner.isSome) = true := (List.mem_filter.1 hb).2
    simp [howner] at heph
  · exact h.valid x (List.mem_of_mem_filter hx)
  · rw [hshelf, h.shelf, List.filter_map]
    rfl

end Represents

end Tree

end KeyRegistry
