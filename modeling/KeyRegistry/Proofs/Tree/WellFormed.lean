import KeyRegistry.Proofs.Tree.Operations

/-!
# Well-formed trees

Child lists, counters and transaction numbers are kept at several places of a
tree. They agree in the empty tree, and every elementary change keeps them in
agreement.
-/

namespace KeyRegistry

open KeyRegistry.Path

theorem Caller.acl_of_permits_creator {who : Caller} {o : String}
    (h : (Acl.creator o).permits who.identity = true) : who.acl = .creator o := by
  have hid : who.identity = some o := by simpa [Acl.permits] using h
  simp [Caller.acl, hid]

/-- Whoever is permitted and is not the creator is permitted by another rule. -/
theorem Acl.ne_creator_of_permits {acl : Acl} {identity : Option String} {o : String}
    (h : acl.permits identity = true) (hid : identity ≠ some o) : acl ≠ .creator o := by
  rintro rfl
  simp [Acl.permits, hid] at h

theorem Caller.acl_ne_creator {who : Caller} {o : String} (hid : who.identity ≠ some o) :
    who.acl ≠ .creator o := by
  unfold Caller.acl
  split <;> simp_all

namespace Tree

/-- The agreement between the redundant parts of a tree. -/
structure WellFormed (t : Tree) : Prop where
  paths_nodup : (t.nodes.map Prod.fst).Nodup
  root_stored : ∃ n, t.node? root = some n ∧ n.stat.owner = none ∧ n.acl = .anyone
  valid {p : String} {n : Node} : t.node? p = some n → Valid p
  parent_stored {p q : String} {n : Node} : t.node? p = some n → parent? p = some q →
    t.Stored q
  children_nodup {p : String} {n : Node} : t.node? p = some n → n.children.Nodup
  mem_children_iff {p : String} {n : Node} : t.node? p = some n →
    ∀ c, c ∈ n.children ↔ IsName c ∧ t.Stored (join p c)
  numChildren_eq {p : String} {n : Node} : t.node? p = some n →
    n.stat.numChildren = Int32.ofNat n.children.length
  ephemeral_childless {p : String} {n : Node} : t.node? p = some n → n.stat.owner ≠ none →
    n.children = []
  /-- Children are listed in the order of their creation. -/
  children_ordered {p : String} {n : Node} : t.node? p = some n →
    n.children.Pairwise fun a b => ∀ m k, t.node? (join p a) = some m →
      t.node? (join p b) = some k → m.stat.czxid < k.stat.czxid
  czxid_le_mzxid {p : String} {n : Node} : t.node? p = some n → n.stat.czxid ≤ n.stat.mzxid
  mzxid_le {p : String} {n : Node} : t.node? p = some n → n.stat.mzxid ≤ t.zxid
  czxid_injective {p q : String} {n m : Node} : t.node? p = some n → t.node? q = some m →
    n.stat.czxid = m.stat.czxid → p = q
  /-- What lies under the node of a creator is the same creator's. -/
  creator_inherited {p q o : String} {n m : Node} : t.node? p = some n → parent? p = some q →
    t.node? q = some m → m.acl = .creator o → n.acl = .creator o
  dataLength_eq {p : String} {n : Node} : t.node? p = some n →
    n.stat.dataLength = wordLength n.data

theorem node?_eq_none_iff {t : Tree} {p : String} :
    t.node? p = none ↔ p ∉ t.nodes.map Prod.fst := by
  rw [node?, List.lookup_eq_none_iff]
  simp only [List.mem_map, not_exists, not_and, bne_iff_ne, ne_eq]
  exact ⟨fun h e he hp => h e he hp.symm, fun h e he hp => h e he hp.symm⟩

theorem map_fst_modify (t : Tree) (p : String) (f : Node → Node) :
    (t.modify p f).nodes.map Prod.fst = t.nodes.map Prod.fst := by
  simp only [modify, List.map_map]
  apply List.map_congr_left
  intro e _
  simp only [Function.comp_apply]
  split_ifs <;> rfl

theorem paths_withNode (t : Tree) (q p : String) (n : Node) :
    (t.withNode q p n).nodes.map Prod.fst = t.nodes.map Prod.fst ++ [p] := by
  simp [withNode, insert, map_fst_modify]

theorem paths_withData (t : Tree) (p : String) (n : Node) (data : List UInt8) :
    (t.withData p n data).nodes.map Prod.fst = t.nodes.map Prod.fst := by
  simp [withData, map_fst_modify]

theorem paths_without (t : Tree) (q p : String) :
    (t.without q p).nodes.map Prod.fst = (t.nodes.map Prod.fst).filter (· ≠ p) := by
  simp [without, map_fst_modify, erase, List.filter_map, Function.comp_def]

theorem eq_of_node?_empty {p : String} {n : Node} (h : empty.node? p = some n) :
    p = root ∧ n = Node.new [] .anyone 0 none := by
  unfold node? empty at h
  rw [lookup_cons_ite] at h
  split_ifs at h with hp
  · exact ⟨hp, (Option.some.inj h).symm⟩
  · simp at h

theorem wellFormed_empty : empty.WellFormed where
  paths_nodup := by simp [empty]
  root_stored := ⟨_, node?_empty_root, rfl, rfl⟩
  valid h := (eq_of_node?_empty h).1 ▸ valid_root
  parent_stored h hq := by simp [(eq_of_node?_empty h).1] at hq
  children_nodup h := by simp [(eq_of_node?_empty h).2]
  mem_children_iff h c := by
    obtain ⟨rfl, rfl⟩ := eq_of_node?_empty h
    simp only [Node.children_new, List.not_mem_nil, false_iff, not_and]
    rintro hc ⟨m, hm⟩
    exact join_ne_root valid_root hc (eq_of_node?_empty hm).1
  numChildren_eq h := by rw [(eq_of_node?_empty h).2]; rfl
  ephemeral_childless h := by simp [(eq_of_node?_empty h).2]
  children_ordered h := by simp [(eq_of_node?_empty h).2]
  czxid_le_mzxid h := by simp [(eq_of_node?_empty h).2, Node.new]
  mzxid_le h := by simp [(eq_of_node?_empty h).2, Node.new, empty]
  czxid_injective h h' _ := by rw [(eq_of_node?_empty h).1, (eq_of_node?_empty h').1]
  creator_inherited h hq := by simp [(eq_of_node?_empty h).1] at hq
  dataLength_eq h := by rw [(eq_of_node?_empty h).2]; rfl

namespace WellFormed

variable {t : Tree} {p q : String} {n m parent : Node}

theorem nodeName_mem_children (h : t.WellFormed) (hn : t.node? p = some n)
    (hq : parent? p = some q) (hm : t.node? q = some m) : nodeName p ∈ m.children := by
  obtain ⟨-, hname, hj⟩ := (parent?_eq_some_iff (h.valid hn)).1 hq
  exact (h.mem_children_iff hm _).2 ⟨hname, n, by rwa [hj]⟩

/-- Among the children of a node a path is told by its name. -/
theorem join_eq_iff (h : t.WellFormed) (hm : t.node? q = some m) (hp : Valid p)
    (hq : parent? p = some q) : ∀ c ∈ m.children, join q c = p ↔ c = nodeName p := by
  intro c hc
  obtain ⟨hqv, hname, hj⟩ := (parent?_eq_some_iff hp).1 hq
  refine ⟨fun he => ?_, fun he => he ▸ hj⟩
  exact (join_injective hqv hqv ((h.mem_children_iff hm c).1 hc).1 hname (he.trans hj.symm)).2

theorem czxid_le (h : t.WellFormed) (hn : t.node? p = some n) : n.stat.czxid ≤ t.zxid :=
  Nat.le_trans (h.czxid_le_mzxid hn) (h.mzxid_le hn)

/-- A name that the parent does not list belongs to no stored node. -/
theorem node?_eq_none_of_fresh (h : t.WellFormed) (hq : parent? p = some q)
    (hparent : t.node? q = some parent) (hfresh : nodeName p ∉ parent.children) :
    t.node? p = none := by
  cases hn : t.node? p with
  | none => rfl
  | some n => exact absurd (h.nodeName_mem_children hn hq hparent) hfresh

end WellFormed

theorem ne_of_parent? {p q : String} (hp : Valid p) (hq : parent? p = some q) : p ≠ q := by
  rintro rfl
  obtain ⟨ns, hns, rfl⟩ := exists_names_of_valid hp
  rcases List.eq_nil_or_concat' ns with rfl | ⟨ms, n, rfl⟩
  · simp at hq
  · have hms : ∀ k ∈ ms, IsName k := fun k hk => hns k (by simp [hk])
    rw [parent?_ofNames_concat ms (hns n (by simp))] at hq
    simpa using ofNames_injective hms hns (Option.some.inj hq)

/-! ## One change -/

section Step

variable {t t' : Tree} {ev : Event} {who : Caller}

theorem Step.zxid (hs : Step who t ev t') : t'.zxid = t.zxid + 1 := by
  cases hs <;> rfl

/-- Beyond the path of its event a change is seen in child lists and their counters alone. -/
theorem Step.core_eq (h : t.WellFormed) (hs : Step who t ev t') {x : String} (hx : x ≠ ev.path) :
    (t'.node? x).map core = (t.node? x).map core := by
  cases hs with
  | created data valid above stored persistent permitted fresh owned =>
    have hnone := h.node?_eq_none_of_fresh above stored fresh
    rw [node?_withNode hnone (ne_of_parent? valid above), if_neg hx]
    split_ifs
    · simp [Option.map_map, Function.comp_def]
    · rfl
  | written data stored permitted => rw [node?_withData stored, if_neg hx]
  | removed above stored childless permitted =>
    rw [node?_without (ne_of_parent? (h.valid stored) above), if_neg hx]
    split_ifs
    · simp [Option.map_map, Function.comp_def]
    · rfl

/-- Beyond its path a change is seen at the parent alone, if the path gets or loses its node. -/
theorem Step.node?_eq (h : t.WellFormed) (hs : Step who t ev t') {x : String} (hx : x ≠ ev.path)
    (hparent : ev.kind ≠ .dataChanged → parent? ev.path ≠ some x) : t'.node? x = t.node? x := by
  cases hs with
  | created data valid above stored persistent permitted fresh owned =>
    have hnone := h.node?_eq_none_of_fresh above stored fresh
    have hq := hparent (by simp)
    rw [node?_withNode hnone (ne_of_parent? valid above), if_neg hx, if_neg]
    rintro rfl
    exact hq above
  | written data stored permitted => rw [node?_withData stored, if_neg hx]
  | removed above stored childless permitted =>
    have hq := hparent (by simp)
    rw [node?_without (ne_of_parent? (h.valid stored) above), if_neg hx, if_neg]
    rintro rfl
    exact hq above

/-- A node after a change: one that was there, or written, or created by the change. -/
theorem Step.node_cases (h : t.WellFormed) (hs : Step who t ev t') {x : String} {m : Node}
    (hm : t'.node? x = some m) :
    (x ≠ ev.path ∧ ∃ n, t.node? x = some n ∧ core m = core n) ∨
    (ev = ⟨.dataChanged, x⟩ ∧ ∃ n data, t.node? x = some n ∧ m = rewritten n data (t.zxid + 1)) ∨
    (ev = ⟨.created, x⟩ ∧ t.node? x = none ∧ Valid x ∧ ∃ q parent data owner,
      parent? x = some q ∧ t.node? q = some parent ∧ parent.stat.owner = none ∧
      parent.acl.permits who.identity = true ∧ (owner = none ∨ owner = some who.session) ∧
      m = Node.new data who.acl (t.zxid + 1) owner) := by
  by_cases hx : x = ev.path
  · cases hs with
    | created data valid above stored persistent permitted fresh owned =>
      have hnone := h.node?_eq_none_of_fresh above stored fresh
      obtain rfl : x = _ := hx
      rw [node?_withNode hnone (ne_of_parent? valid above), if_pos rfl] at hm
      exact .inr (.inr ⟨rfl, hnone, valid, _, _, data, _, above, stored, persistent, permitted,
        owned, (Option.some.inj hm).symm⟩)
    | written data stored permitted =>
      obtain rfl : x = _ := hx
      rw [node?_withData stored, if_pos rfl] at hm
      exact .inr (.inl ⟨rfl, _, data, stored, (Option.some.inj hm).symm⟩)
    | removed above stored childless permitted =>
      obtain rfl : x = _ := hx
      rw [node?_without (ne_of_parent? (h.valid stored) above), if_pos rfl] at hm
      simp at hm
  · have hcore := hs.core_eq h hx
    rw [hm, Option.map_some, eq_comm, Option.map_eq_some_iff] at hcore
    obtain ⟨n, hn, hc⟩ := hcore
    exact .inl ⟨hx, n, hn, hc.symm⟩

theorem stored_congr {t t' : Tree} {x : String}
    (h : (t'.node? x).map core = (t.node? x).map core) : t'.Stored x ↔ t.Stored x := by
  have hs := congrArg Option.isSome h
  simp only [Option.isSome_map] at hs
  rw [Stored, Stored, ← Option.isSome_iff_exists, ← Option.isSome_iff_exists, hs]

theorem Step.stored_iff (h : t.WellFormed) (hs : Step who t ev t') (x : String) :
    t'.Stored x ↔ match ev.kind with
      | .created => x = ev.path ∨ t.Stored x
      | .dataChanged => t.Stored x
      | .deleted => x ≠ ev.path ∧ t.Stored x := by
  by_cases hx : x = ev.path
  · cases hs with
    | created data valid above stored persistent permitted fresh owned =>
      have hnone := h.node?_eq_none_of_fresh above stored fresh
      simp [Stored, hx, node?_withNode hnone (ne_of_parent? valid above)]
    | written data stored permitted => simp [Stored, hx, node?_withData stored, stored]
    | removed above stored childless permitted =>
      simp [Stored, hx, node?_without (ne_of_parent? (h.valid stored) above)]
  · rw [stored_congr (hs.core_eq h hx)]
    cases ev.kind <;> simp [hx]

/-- The child list of a node that stays: as it was, or with the path of the event added or
struck off. -/
theorem Step.children_cases (h : t.WellFormed) (hs : Step who t ev t') {x : String} {n m : Node}
    (hn : t.node? x = some n) (hm : t'.node? x = some m) :
    (m.children = n.children ∧ m.stat.numChildren = n.stat.numChildren ∧
      (ev.kind = .dataChanged ∨ parent? ev.path ≠ some x)) ∨
    (ev.kind = .created ∧ parent? ev.path = some x ∧ m = gainChild (nodeName ev.path) n ∧
      nodeName ev.path ∉ n.children ∧ n.stat.owner = none) ∨
    (ev.kind = .deleted ∧ parent? ev.path = some x ∧ m = loseChild (nodeName ev.path) n) := by
  cases hs with
  | @created p q parent data owner valid above stored persistent permitted fresh owned =>
    have hnone := h.node?_eq_none_of_fresh above stored fresh
    have hxp : x ≠ p := by rintro rfl; simp [hnone] at hn
    rw [node?_withNode hnone (ne_of_parent? valid above), if_neg hxp] at hm
    split_ifs at hm with hxq
    · obtain rfl : parent = n := by simpa [hxq, stored] using hn
      rw [hn, Option.map_some] at hm
      exact .inr (.inl ⟨rfl, hxq ▸ above, (Option.some.inj hm).symm, fresh, persistent⟩)
    · obtain rfl : n = m := by simpa [hn] using hm
      exact .inl ⟨rfl, rfl, .inr (by simpa [above] using Ne.symm hxq)⟩
  | @written p k data stored permitted =>
    rw [node?_withData stored] at hm
    split_ifs at hm with hxp
    · obtain rfl : k = n := by simpa [hxp, stored] using hn
      obtain rfl := Option.some.inj hm
      exact .inl ⟨rfl, rfl, .inl rfl⟩
    · obtain rfl : n = m := by simpa [hn] using hm
      exact .inl ⟨rfl, rfl, .inl rfl⟩
  | @removed p q k above stored childless permitted =>
    have hqp := ne_of_parent? (h.valid stored) above
    rw [node?_without hqp] at hm
    split_ifs at hm with hxp hxq
    · rw [hn, Option.map_some] at hm
      exact .inr (.inr ⟨rfl, hxq ▸ above, (Option.some.inj hm).symm⟩)
    · obtain rfl : n = m := by simpa [hn] using hm
      exact .inl ⟨rfl, rfl, .inr (by simpa [above] using Ne.symm hxq)⟩

/-- A node after a change was there before, or is new and has no children. -/
theorem Step.old_or_new (h : t.WellFormed) (hs : Step who t ev t') {x : String} {m : Node}
    (hm : t'.node? x = some m) :
    (∃ n, t.node? x = some n) ∨ (ev = ⟨.created, x⟩ ∧ t.node? x = none ∧ Valid x ∧
      ∃ data owner, m = Node.new data who.acl (t.zxid + 1) owner) := by
  rcases hs.node_cases h hm with ⟨-, n, hn, -⟩ | ⟨-, n, -, hn, -⟩ |
    ⟨hev, hnone, hv, q, parent, data, owner, -, -, -, -, -, rfl⟩
  · exact .inl ⟨n, hn⟩
  · exact .inl ⟨n, hn⟩
  · exact .inr ⟨hev, hnone, hv, data, owner, rfl⟩

/-- What is fixed at the creation of a node stays as long as the node. -/
theorem Step.origin_eq (h : t.WellFormed) (hs : Step who t ev t') {x : String} {n m : Node}
    (hn : t.node? x = some n) (hm : t'.node? x = some m) :
    m.stat.czxid = n.stat.czxid ∧ m.acl = n.acl ∧ m.stat.owner = n.stat.owner := by
  rcases hs.node_cases h hm with ⟨-, k, hk, hc⟩ | ⟨-, k, data, hk, rfl⟩ | ⟨-, hnone, -⟩
  · obtain rfl : n = k := by simpa [hn] using hk
    exact ⟨czxid_eq_of_core hc, acl_eq_of_core hc, owner_eq_of_core hc⟩
  · obtain rfl : n = k := by simpa [hn] using hk
    exact ⟨rfl, rfl, rfl⟩
  · simp [hn] at hnone

theorem Step.valid_path (h : t.WellFormed) (hs : Step who t ev t') : Valid ev.path := by
  cases hs with
  | created data valid => exact valid
  | written data stored => exact h.valid stored
  | removed above stored => exact h.valid stored

theorem Step.czxid_of_created (h : t.WellFormed) (hs : Step who t ev t') {m : Node}
    (hk : ev.kind = .created) (hm : t'.node? ev.path = some m) : m.stat.czxid = t.zxid + 1 := by
  rcases hs.node_cases h hm with ⟨hne, -⟩ | ⟨hev, -⟩ | ⟨-, -, -, _, _, _, _, -, -, -, -, -, rfl⟩
  · exact absurd rfl hne
  · rw [hev] at hk
    cases hk
  · rfl

theorem Step.mem_children_iff (h : t.WellFormed) (hs : Step who t ev t') {x : String} {m : Node}
    (hm : t'.node? x = some m) (c : String) :
    c ∈ m.children ↔ IsName c ∧ t'.Stored (join x c) := by
  rcases hs.old_or_new h hm with ⟨n, hn⟩ | ⟨rfl, hnone, hx, data, owner, rfl⟩
  · have hx := h.valid hn
    have hiff := h.mem_children_iff hn c
    have hpath (hc : IsName c) : parent? (join x c) = some x := parent?_join hx hc
    rcases hs.children_cases h hn hm with ⟨hch, -, hother⟩ | ⟨hk, hpar, rfl, -⟩ | ⟨hk, hpar, rfl⟩
    · rw [hch, hiff]
      refine and_congr_right fun hc => ?_
      rw [hs.stored_iff h]
      rcases hother with hk | hpar
      · rw [hk]
      · have hne : join x c ≠ ev.path := fun he => hpar (he ▸ hpath hc)
        cases ev.kind <;> simp [hne]
    · rw [children_gainChild, List.mem_append, List.mem_singleton, hiff, hs.stored_iff h, hk]
      obtain ⟨-, hname, hj⟩ := (parent?_eq_some_iff (hs.valid_path h)).1 hpar
      constructor
      · rintro (⟨hc, hst⟩ | rfl)
        · exact ⟨hc, .inr hst⟩
        · exact ⟨hname, .inl hj⟩
      · rintro ⟨hc, he | hst⟩
        · exact .inr (join_injective hx hx hc hname (he.trans hj.symm)).2
        · exact .inl ⟨hc, hst⟩
    · obtain ⟨-, hname, hj⟩ := (parent?_eq_some_iff (hs.valid_path h)).1 hpar
      rw [children_loseChild, List.mem_filter, hiff, hs.stored_iff h, hk]
      simp only [ne_eq, decide_not, Bool.not_eq_true', decide_eq_false_iff_not]
      constructor
      · rintro ⟨⟨hc, hst⟩, hne⟩
        exact ⟨hc, fun he => hne (join_injective hx hx hc hname (he.trans hj.symm)).2, hst⟩
      · rintro ⟨hc, hne, hst⟩
        exact ⟨⟨hc, hst⟩, fun he => hne (he ▸ hj)⟩
  · simp only [Node.children_new, List.not_mem_nil, false_iff, not_and]
    intro hc hst
    rw [hs.stored_iff h] at hst
    rcases hst with he | ⟨k, hk⟩
    · exact ne_of_parent? (valid_join hx hc) (parent?_join hx hc) he
    · obtain ⟨k, hk⟩ := h.parent_stored hk (parent?_join hx hc)
      simp [hnone] at hk

theorem Step.children_ordered (h : t.WellFormed) (hs : Step who t ev t') {x : String} {m : Node}
    (hm : t'.node? x = some m) :
    m.children.Pairwise fun a b => ∀ i j, t'.node? (join x a) = some i →
      t'.node? (join x b) = some j → i.stat.czxid < j.stat.czxid := by
  rcases hs.old_or_new h hm with ⟨n, hn⟩ | ⟨rfl, hnone, hx, data, owner, rfl⟩
  · have hold : n.children.Pairwise fun a b => ∀ i j, t'.node? (join x a) = some i →
        t'.node? (join x b) = some j → i.stat.czxid < j.stat.czxid := by
      refine (h.children_ordered hn).imp_of_mem fun {a b} ha hb hab i j hi hj => ?_
      obtain ⟨-, i', hi'⟩ := (h.mem_children_iff hn a).1 ha
      obtain ⟨-, j', hj'⟩ := (h.mem_children_iff hn b).1 hb
      rw [(hs.origin_eq h hi' hi).1, (hs.origin_eq h hj' hj).1]
      exact hab i' j' hi' hj'
    rcases hs.children_cases h hn hm with ⟨hch, -⟩ | ⟨hk, hpar, rfl, -⟩ | ⟨-, -, rfl⟩
    · rwa [hch]
    · rw [children_gainChild, List.pairwise_append]
      refine ⟨hold, List.pairwise_singleton _ _, ?_⟩
      intro a ha b hb i j hi hj
      obtain ⟨-, i', hi'⟩ := (h.mem_children_iff hn a).1 ha
      obtain ⟨-, -, hj'⟩ := (parent?_eq_some_iff (hs.valid_path h)).1 hpar
      rw [List.mem_singleton.1 hb, hj'] at hj
      rw [(hs.origin_eq h hi' hi).1, hs.czxid_of_created h hk hj]
      exact Nat.lt_succ_of_le (h.czxid_le hi')
    · rw [children_loseChild]
      exact hold.filter _
  · simp

theorem Step.old_or_newest (h : t.WellFormed) (hs : Step who t ev t') {x : String} {m : Node}
    (hm : t'.node? x = some m) :
    (∃ n, t.node? x = some n ∧ m.stat.czxid = n.stat.czxid) ∨
      (ev = ⟨.created, x⟩ ∧ m.stat.czxid = t.zxid + 1) := by
  rcases hs.old_or_new h hm with ⟨n, hn⟩ | ⟨hev, -, -, data, owner, rfl⟩
  · exact .inl ⟨n, hn, (hs.origin_eq h hn hm).1⟩
  · exact .inr ⟨hev, rfl⟩

theorem numChildren_gain (n : Nat) : Int32.ofNat n + 1 = Int32.ofNat (n + 1) := by
  rw [Int32.ofNat_add]
  rfl

theorem numChildren_loss (n : Nat) : Int32.ofNat (n + 1) - 1 = Int32.ofNat n := by
  rw [Int32.ofNat_add]
  exact Int32.add_sub_cancel _ _

theorem filter_ne_eq_erase {name : String} {names : List String} (hn : names.Nodup) :
    names.filter (· ≠ name) = names.erase name := by
  rw [hn.erase_eq_filter]
  apply List.filter_congr
  intro c _
  by_cases hc : c = name <;> simp [hc]

theorem length_filter_ne {name : String} {names : List String} (hn : names.Nodup)
    (hmem : name ∈ names) : (names.filter (· ≠ name)).length + 1 = names.length := by
  rw [filter_ne_eq_erase hn, List.length_erase_add_one hmem]

theorem Step.paths_nodup (h : t.WellFormed) (hs : Step who t ev t') :
    (t'.nodes.map Prod.fst).Nodup := by
  cases hs with
  | created data valid above stored persistent permitted fresh owned =>
    have hnone := h.node?_eq_none_of_fresh above stored fresh
    rw [paths_withNode]
    simpa using h.paths_nodup.concat (node?_eq_none_iff.1 hnone)
  | written data stored permitted =>
    rw [paths_withData]
    exact h.paths_nodup
  | removed above stored childless permitted =>
    rw [paths_without]
    exact h.paths_nodup.filter _

theorem Step.root_stored (h : t.WellFormed) (hs : Step who t ev t') :
    ∃ n, t'.node? root = some n ∧ n.stat.owner = none ∧ n.acl = .anyone := by
  obtain ⟨r, hr, howner, hacl⟩ := h.root_stored
  have hst : t'.Stored root := by
    rw [hs.stored_iff h]
    cases hs with
    | created => exact .inr ⟨r, hr⟩
    | written => exact ⟨r, hr⟩
    | removed above => exact ⟨by rintro rfl; simp at above, r, hr⟩
  obtain ⟨m, hm⟩ := hst
  obtain ⟨-, hacl', howner'⟩ := hs.origin_eq h hr hm
  exact ⟨m, hm, howner'.trans howner, hacl'.trans hacl⟩

/-- A removed node had no children, so no node loses its parent. -/
theorem Step.parent_stored (h : t.WellFormed) (hs : Step who t ev t') {x y : String} {m : Node}
    (hm : t'.node? x = some m) (hy : parent? x = some y) : t'.Stored y := by
  rw [hs.stored_iff h]
  rcases hs.node_cases h hm with ⟨-, n, hn, -⟩ | ⟨rfl, n, -, hn, -⟩ |
    ⟨rfl, -, -, q, parent, -, -, hq, hparent, -⟩
  · have hst := h.parent_stored hn hy
    cases hs with
    | created => exact .inr hst
    | written => exact hst
    | @removed p q k above stored childless permitted =>
      refine ⟨?_, hst⟩
      rintro rfl
      have hmem := h.nodeName_mem_children hn hy stored
      simp [childless] at hmem
  · exact h.parent_stored hn hy
  · exact .inr ⟨parent, Option.some.inj (hq.symm.trans hy) ▸ hparent⟩

theorem Step.children_nodup (h : t.WellFormed) (hs : Step who t ev t') {x : String} {m : Node}
    (hm : t'.node? x = some m) : m.children.Nodup := by
  rcases hs.old_or_new h hm with ⟨n, hn⟩ | ⟨-, -, -, data, owner, rfl⟩
  · have hnd := h.children_nodup hn
    rcases hs.children_cases h hn hm with ⟨hch, -⟩ | ⟨-, -, rfl, hfresh, -⟩ | ⟨-, -, rfl⟩
    · rwa [hch]
    · simpa using hnd.concat hfresh
    · exact hnd.filter _
  · simp

theorem Step.numChildren_eq (h : t.WellFormed) (hs : Step who t ev t') {x : String} {m : Node}
    (hm : t'.node? x = some m) : m.stat.numChildren = Int32.ofNat m.children.length := by
  rcases hs.old_or_new h hm with ⟨n, hn⟩ | ⟨-, -, -, data, owner, rfl⟩
  · have hnum := h.numChildren_eq hn
    rcases hs.children_cases h hn hm with ⟨hch, hnc, -⟩ | ⟨-, -, rfl, -⟩ | ⟨hk, hpar, rfl⟩
    · rw [hch, hnc, hnum]
    · show n.stat.numChildren + 1 = _
      rw [children_gainChild, List.length_append, List.length_singleton, hnum, numChildren_gain]
    · show n.stat.numChildren - 1 = _
      have hmem : nodeName ev.path ∈ n.children := by
        cases hs with
        | created => cases hk
        | written => cases hk
        | removed above stored => exact h.nodeName_mem_children stored hpar hn
      rw [children_loseChild, hnum, ← length_filter_ne (h.children_nodup hn) hmem,
        numChildren_loss]
  · rfl

theorem Step.ephemeral_childless (h : t.WellFormed) (hs : Step who t ev t') {x : String}
    {m : Node} (hm : t'.node? x = some m) (howner : m.stat.owner ≠ none) : m.children = [] := by
  rcases hs.old_or_new h hm with ⟨n, hn⟩ | ⟨-, -, -, data, owner, rfl⟩
  · rw [(hs.origin_eq h hn hm).2.2] at howner
    have hnil := h.ephemeral_childless hn howner
    rcases hs.children_cases h hn hm with ⟨hch, -⟩ | ⟨-, -, -, -, hnone⟩ | ⟨-, -, rfl⟩
    · rw [hch, hnil]
    · exact absurd hnone howner
    · simp [hnil]
  · rfl

/-- What is written or made new gets the new number of the tree. -/
theorem Step.numbers (h : t.WellFormed) (hs : Step who t ev t') {x : String} {m : Node}
    (hm : t'.node? x = some m) : m.stat.czxid ≤ m.stat.mzxid ∧ m.stat.mzxid ≤ t'.zxid := by
  rw [hs.zxid]
  rcases hs.node_cases h hm with ⟨-, n, hn, hc⟩ | ⟨-, n, data, hn, rfl⟩ |
    ⟨-, -, -, _, _, _, _, -, -, -, -, -, rfl⟩
  · rw [czxid_eq_of_core hc, mzxid_eq_of_core hc]
    exact ⟨h.czxid_le_mzxid hn, Nat.le_succ_of_le (h.mzxid_le hn)⟩
  · have hle : n.stat.czxid ≤ t.zxid + 1 := Nat.le_succ_of_le (h.czxid_le hn)
    exact ⟨hle, Nat.le_refl _⟩
  · exact ⟨Nat.le_refl _, Nat.le_refl _⟩

theorem Step.czxid_injective (h : t.WellFormed) (hs : Step who t ev t') {x y : String}
    {m k : Node} (hm : t'.node? x = some m) (hk : t'.node? y = some k)
    (hz : m.stat.czxid = k.stat.czxid) : x = y := by
  rcases hs.old_or_newest h hm with ⟨n, hn, hzn⟩ | ⟨hev, hzm⟩ <;>
    rcases hs.old_or_newest h hk with ⟨l, hl, hzl⟩ | ⟨hev', hzk⟩
  · exact h.czxid_injective hn hl (hzn.symm.trans (hz.trans hzl))
  · have hle := h.czxid_le hn
    omega
  · have hle := h.czxid_le hl
    omega
  · rw [hev] at hev'
    exact congrArg Event.path hev'

/-- Only its creator can make a node under the node of a creator. -/
theorem Step.creator_inherited (h : t.WellFormed) (hs : Step who t ev t') {x y o : String}
    {m k : Node} (hm : t'.node? x = some m) (hy : parent? x = some y) (hk : t'.node? y = some k)
    (hacl : k.acl = .creator o) : m.acl = .creator o := by
  rcases hs.old_or_new h hm with ⟨n, hn⟩ | ⟨hev, hnone, -⟩
  · obtain ⟨l, hl⟩ := h.parent_stored hn hy
    rw [(hs.origin_eq h hl hk).2.1] at hacl
    rw [(hs.origin_eq h hn hm).2.1]
    exact h.creator_inherited hn hy hl hacl
  · rcases hs.node_cases h hm with ⟨-, n, hn, -⟩ | ⟨-, n, -, hn, -⟩ |
      ⟨-, -, -, q, parent, data, owner, hq, hparent, -, hperm, -, rfl⟩
    · simp [hn] at hnone
    · simp [hn] at hnone
    · obtain rfl : q = y := Option.some.inj (hq.symm.trans hy)
      rw [(hs.origin_eq h hparent hk).2.1] at hacl
      rw [hacl] at hperm
      exact Caller.acl_of_permits_creator hperm

/-- Every elementary change keeps a tree well-formed. -/
theorem Step.wellFormed (h : t.WellFormed) (hs : Step who t ev t') : t'.WellFormed where
  paths_nodup := hs.paths_nodup h
  root_stored := hs.root_stored h
  valid hm := by
    rcases hs.old_or_new h hm with ⟨n, hn⟩ | ⟨-, -, hv, -⟩
    · exact h.valid hn
    · exact hv
  parent_stored hm hy := hs.parent_stored h hm hy
  children_nodup hm := hs.children_nodup h hm
  mem_children_iff hm := hs.mem_children_iff h hm
  numChildren_eq hm := hs.numChildren_eq h hm
  ephemeral_childless hm howner := hs.ephemeral_childless h hm howner
  children_ordered hm := hs.children_ordered h hm
  czxid_le_mzxid hm := (hs.numbers h hm).1
  mzxid_le hm := (hs.numbers h hm).2
  czxid_injective hm hk hz := hs.czxid_injective h hm hk hz
  creator_inherited hm hy hk hacl := hs.creator_inherited h hm hy hk hacl
  dataLength_eq hm := by
    rcases hs.node_cases h hm with ⟨-, n, hn, hc⟩ | ⟨-, n, data, hn, rfl⟩ |
      ⟨-, -, -, _, _, _, _, -, -, -, -, -, rfl⟩
    · rw [dataLength_eq_of_core hc, data_eq_of_core hc]
      exact h.dataLength_eq hn
    · rfl
    · rfl

theorem Steps.wellFormed {evs : List Event} (h : t.WellFormed) (hs : Steps who t evs t') :
    t'.WellFormed :=
  hs.invariant (fun _ _ _ h hs => hs.wellFormed h) h

end Step

/-! ## The nodes of an ending session -/

section Unlink

variable {t : Tree} {p : String} {n : Node} {who : Caller}

theorem mem_iff_lookup {es : List (String × Node)} (h : (es.map Prod.fst).Nodup) :
    (p, n) ∈ es ↔ es.lookup p = some n := by
  induction es with
  | nil => simp
  | cons e es ih =>
    obtain ⟨k, m⟩ := e
    rw [List.map_cons, List.nodup_cons] at h
    rw [List.mem_cons, lookup_cons_ite, ih h.2]
    by_cases hp : p = k
    · subst hp
      have hnone : es.lookup p = none := (node?_eq_none_iff (t := ⟨es, 0⟩)).2 h.1
      simp [hnone, eq_comm]
    · simp [hp]

theorem WellFormed.mem_ephemeralsOf_iff (h : t.WellFormed) {s : Nat} :
    p ∈ t.ephemeralsOf s ↔ ∃ n, t.node? p = some n ∧ n.stat.owner = some s := by
  simp only [ephemeralsOf, List.mem_map, List.mem_filter, beq_iff_eq]
  constructor
  · rintro ⟨⟨k, n⟩, ⟨hmem, howner⟩, rfl⟩
    exact ⟨n, (mem_iff_lookup h.paths_nodup).1 hmem, howner⟩
  · rintro ⟨n, hn, howner⟩
    exact ⟨(p, n), ⟨(mem_iff_lookup h.paths_nodup).2 hn, howner⟩, rfl⟩

theorem WellFormed.nodup_ephemeralsOf (h : t.WellFormed) (s : Nat) : (t.ephemeralsOf s).Nodup :=
  h.paths_nodup.sublist (List.filter_sublist.map _)

/-- Taking out a node of the ending session is a change, or none if the node is gone. -/
theorem WellFormed.unlink_cases (h : t.WellFormed)
    (howned : ∀ n, t.node? p = some n → n.stat.owner = some who.session) :
    t.unlink p = (t, []) ∨
      ∃ t', t.unlink p = (t', [⟨.deleted, p⟩]) ∧ Step who t ⟨.deleted, p⟩ t' := by
  cases hn : t.node? p with
  | none => exact .inl (unlink_of_absent hn)
  | some n =>
    have howner := howned n hn
    have hr : p ≠ root := by
      rintro rfl
      obtain ⟨r, hr, hnone, -⟩ := h.root_stored
      obtain rfl : r = n := by simpa [hn] using hr.symm
      simp [hnone] at howner
    obtain ⟨q, -, -, -, hq, -⟩ := exists_parent_name (h.valid hn) hr
    exact .inr ⟨_, unlink_of_stored hq hn,
      .removed hq hn (h.ephemeral_childless hn (by simp [howner])) (.inr howner)⟩

theorem WellFormed.steps_unlinkAll (h : t.WellFormed) {ps : List String}
    (howned : ∀ p ∈ ps, ∀ n, t.node? p = some n → n.stat.owner = some who.session) :
    Steps who t (t.unlinkAll ps).2 (t.unlinkAll ps).1 := by
  induction ps generalizing t with
  | nil => exact .nil t
  | cons p ps ih =>
    have hrest (x : String) (hx : x ∈ ps) := howned x (by simp [hx])
    rcases h.unlink_cases (howned p (by simp)) with hu | ⟨t', hu, hs⟩
    · simpa [unlinkAll, hu] using ih h hrest
    · have howned' : ∀ x ∈ ps, ∀ n, t'.node? x = some n → n.stat.owner = some who.session := by
        intro x hx m hm
        rcases hs.old_or_new h hm with ⟨n, hn⟩ | ⟨hev, -⟩
        · exact (hs.origin_eq h hn hm).2.2 ▸ hrest x hx n hn
        · cases hev
      simpa [unlinkAll, hu] using (Steps.single hs).append (ih (hs.wellFormed h) howned')

/-- A node that a change passes by keeps its session. -/
theorem Step.owned {t' : Tree} {ev : Event} {s : Nat} (h : t.WellFormed) (hs : Step who t ev t')
    (hne : p ≠ ev.path) (howned : ∃ n, t.node? p = some n ∧ n.stat.owner = some s) :
    ∃ n, t'.node? p = some n ∧ n.stat.owner = some s := by
  obtain ⟨n, hn, howner⟩ := howned
  have hcore := hs.core_eq h hne
  rw [hn, Option.map_some, Option.map_eq_some_iff] at hcore
  obtain ⟨m, hm, hc⟩ := hcore
  exact ⟨m, hm, (owner_eq_of_core hc).trans howner⟩

theorem WellFormed.unlink_of_owned {s : Nat} (h : t.WellFormed)
    (howned : ∃ n, t.node? p = some n ∧ n.stat.owner = some s) :
    ∃ t', t.unlink p = (t', [⟨.deleted, p⟩]) ∧ Step ⟨s, none⟩ t ⟨.deleted, p⟩ t' := by
  obtain ⟨n, hn, howner⟩ := howned
  have hself : ∀ m, t.node? p = some m → m.stat.owner = some (Caller.mk s none).session := by
    intro m hm
    obtain rfl : n = m := by simpa [hn] using hm
    exact howner
  rcases h.unlink_cases hself with hu | hu
  · simp [unlink, hn] at hu
  · exact hu

/-- Each of several nodes that are there is told to be gone. -/
theorem WellFormed.events_unlinkAll {s : Nat} (h : t.WellFormed) {ps : List String}
    (hps : ps.Nodup) (howned : ∀ p ∈ ps, ∃ n, t.node? p = some n ∧ n.stat.owner = some s) :
    (t.unlinkAll ps).2 = ps.map (Event.mk .deleted) := by
  induction ps generalizing t with
  | nil => rfl
  | cons p ps ih =>
    obtain ⟨hp, hps⟩ := List.nodup_cons.1 hps
    obtain ⟨t', hu, hs⟩ := h.unlink_of_owned (howned p (by simp))
    have howned' : ∀ x ∈ ps, ∃ n, t'.node? x = some n ∧ n.stat.owner = some s :=
      fun x hx => hs.owned h (by rintro rfl; exact hp hx) (howned x (by simp [hx]))
    simp [unlinkAll, hu, ih (hs.wellFormed h) hps howned']

end Unlink

end Tree

end KeyRegistry
