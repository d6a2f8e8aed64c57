import KeyRegistry.Proofs.Tree.WellFormed

/-!
# Trees that differ in protected data

A tree is veiled for everybody but one creator: each byte that this creator
protects is blotted out, and nothing else. An operation of somebody else on the
veiled tree has the same result, and yields the veiled tree of what it yields
otherwise.
-/

namespace KeyRegistry

open KeyRegistry.Path

/-- A node with the bytes of its data blotted out, if it is the creator's. -/
def Node.veil (o : String) (n : Node) : Node :=
  if n.acl = .creator o then { n with data := n.data.map fun _ => 0 } else n

namespace Node

variable {n : Node} {o : String}

@[simp] theorem acl_veil (o : String) (n : Node) : (n.veil o).acl = n.acl := by
  unfold veil
  split <;> rfl

@[simp] theorem stat_veil (o : String) (n : Node) : (n.veil o).stat = n.stat := by
  unfold veil
  split <;> rfl

@[simp] theorem children_veil (o : String) (n : Node) : (n.veil o).children = n.children := by
  unfold veil
  split <;> rfl

theorem veil_of_ne (h : n.acl ≠ .creator o) : n.veil o = n := if_neg h

end Node

namespace Tree

def veil (o : String) (t : Tree) : Tree :=
  { t with nodes := t.nodes.map fun e => (e.1, e.2.veil o) }

end Tree

def Change.veil {α : Type} (o : String) (c : Change α) : Change α :=
  { c with tree := c.tree.veil o }

namespace Tree

variable {t : Tree} {p q o : String} {n : Node} {data : List UInt8} {mode : Mode}
  {version : Option Int32} {who : Caller}

/-! ## Looking up and altering -/

@[simp] theorem node?_veil (o : String) (t : Tree) (p : String) :
    (t.veil o).node? p = (t.node? p).map (Node.veil o) := by
  unfold node? veil
  induction t.nodes with
  | nil => rfl
  | cons e es ih =>
    obtain ⟨k, n⟩ := e
    rw [List.map_cons, lookup_cons_ite, lookup_cons_ite]
    split_ifs
    · rfl
    · exact ih

theorem veil_gainChild (name : String) (n : Node) :
    (gainChild name n).veil o = gainChild name (n.veil o) := by
  unfold Node.veil gainChild
  split <;> rfl

theorem veil_loseChild (name : String) (n : Node) :
    (loseChild name n).veil o = loseChild name (n.veil o) := by
  unfold Node.veil loseChild
  split <;> rfl

/-- A node is altered under the veil as it is without, if the alteration leaves the veil in
place. -/
theorem veil_modify {f : Node → Node}
    (hf : ∀ m, (p, m) ∈ t.nodes → (f m).veil o = f (m.veil o)) :
    (t.modify p f).veil o = (t.veil o).modify p f := by
  unfold veil modify
  simp only [List.map_map]
  congr 1
  refine List.map_congr_left fun e he => ?_
  obtain ⟨k, m⟩ := e
  by_cases hk : k = p
  · subst hk
    simp [hf m he]
  · simp [hk]

theorem veil_withNode (hn : n.acl ≠ .creator o) :
    (t.withNode q p n).veil o = (t.veil o).withNode q p n := by
  have hgain := veil_modify (t := t) (p := q) fun m _ => veil_gainChild (o := o) (nodeName p) m
  unfold withNode
  rw [← hgain]
  simp [veil, insert, Node.veil_of_ne hn]

theorem veil_erase (o : String) (t : Tree) (p : String) :
    (t.veil o).erase p = (t.erase p).veil o := by
  simp [veil, erase, List.filter_map, Function.comp_def]

theorem veil_without (t : Tree) (q p : String) :
    (t.without q p).veil o = (t.veil o).without q p := by
  have hlose := veil_modify (t := t.erase p) (p := q) fun m _ =>
    veil_loseChild (o := o) (nodeName p) m
  unfold without
  rw [veil_erase, ← hlose]
  rfl

theorem veil_withData (h : t.WellFormed) (hn : t.node? p = some n) (hacl : n.acl ≠ .creator o)
    (data : List UInt8) : (t.withData p n data).veil o = (t.veil o).withData p n data := by
  have hself : ∀ m, (p, m) ∈ t.nodes →
      ({ m with data := data, stat := writtenStat n.stat data (t.zxid + 1) } : Node).veil o =
        { m.veil o with data := data, stat := writtenStat n.stat data (t.zxid + 1) } := by
    intro m hm
    obtain rfl : n = m := by
      have hlookup := (mem_iff_lookup h.paths_nodup).1 hm
      exact Option.some.inj (hn.symm.trans hlookup)
    rw [Node.veil_of_ne hacl]
    exact Node.veil_of_ne hacl
  unfold withData
  rw [show (t.veil o).zxid = t.zxid from rfl, ← veil_modify hself]
  rfl

/-! ## Trees that look alike -/

section

variable {t' : Tree} (hveil : t'.veil o = t.veil o)

include hveil

theorem exists_node_of_veil_eq (hn : t.node? p = some n) :
    ∃ m, t'.node? p = some m ∧ m.stat = n.stat ∧ m.children = n.children ∧ m.acl = n.acl ∧
      m.data.length = n.data.length := by
  have hlook : (t'.node? p).map (Node.veil o) = some (n.veil o) := by
    rw [← node?_veil, hveil, node?_veil, hn, Option.map_some]
  obtain ⟨m, hm, he⟩ := Option.map_eq_some_iff.1 hlook
  have hlength (k : Node) : (k.veil o).data.length = k.data.length := by
    unfold Node.veil
    split <;> simp
  exact ⟨m, hm, by simpa using congrArg Node.stat he, by simpa using congrArg Node.children he,
    by simpa using congrArg Node.acl he, by rw [← hlength m, he, hlength]⟩

theorem stored_iff_of_veil_eq (p : String) : t'.Stored p ↔ t.Stored p := by
  constructor
  · rintro ⟨m, hm⟩
    exact (exists_node_of_veil_eq hveil.symm hm).imp fun _ h => h.1
  · rintro ⟨n, hn⟩
    exact (exists_node_of_veil_eq hveil hn).imp fun _ h => h.1

/-- What a well-formed tree agrees on is seen through the veil. -/
theorem WellFormed.of_veil_eq (h : t.WellFormed) : t'.WellFormed := by
  have hback {p : String} {m : Node} (hm : t'.node? p = some m) :
      ∃ n, t.node? p = some n ∧ n.stat = m.stat ∧ n.children = m.children ∧ n.acl = m.acl ∧
        n.data.length = m.data.length := exists_node_of_veil_eq hveil.symm hm
  have hstored := stored_iff_of_veil_eq hveil
  have hzxid : t'.zxid = t.zxid := by simpa [veil] using congrArg Tree.zxid hveil
  have hpaths : t'.nodes.map Prod.fst = t.nodes.map Prod.fst := by
    simpa [veil, Function.comp_def] using congrArg (fun u => u.nodes.map Prod.fst) hveil
  constructor
  case paths_nodup => exact hpaths ▸ h.paths_nodup
  case root_stored =>
    obtain ⟨r, hr, howner, hacl⟩ := h.root_stored
    obtain ⟨m, hm, hstat, -, hmacl, -⟩ := exists_node_of_veil_eq hveil hr
    exact ⟨m, hm, hstat ▸ howner, hmacl.trans hacl⟩
  case valid =>
    intro p m hm
    obtain ⟨n, hn, -⟩ := hback hm
    exact h.valid hn
  case parent_stored =>
    intro p q m hm hq
    obtain ⟨n, hn, -⟩ := hback hm
    exact (hstored q).2 (h.parent_stored hn hq)
  case children_nodup =>
    intro p m hm
    obtain ⟨n, hn, -, hchildren, -⟩ := hback hm
    exact hchildren ▸ h.children_nodup hn
  case mem_children_iff =>
    intro p m hm c
    obtain ⟨n, hn, -, hchildren, -⟩ := hback hm
    rw [← hchildren, h.mem_children_iff hn, hstored]
  case numChildren_eq =>
    intro p m hm
    obtain ⟨n, hn, hstat, hchildren, -⟩ := hback hm
    rw [← hstat, ← hchildren, h.numChildren_eq hn]
  case ephemeral_childless =>
    intro p m hm howner
    obtain ⟨n, hn, hstat, hchildren, -⟩ := hback hm
    exact hchildren ▸ h.ephemeral_childless hn (hstat ▸ howner)
  case children_ordered =>
    intro p m hm
    obtain ⟨n, hn, -, hchildren, -⟩ := hback hm
    rw [← hchildren]
    refine (h.children_ordered hn).imp fun {a b} hab i j hi hj => ?_
    obtain ⟨i', hi', histat, -⟩ := hback hi
    obtain ⟨j', hj', hjstat, -⟩ := hback hj
    rw [← histat, ← hjstat]
    exact hab i' j' hi' hj'
  case czxid_le_mzxid =>
    intro p m hm
    obtain ⟨n, hn, hstat, -⟩ := hback hm
    exact hstat ▸ h.czxid_le_mzxid hn
  case mzxid_le =>
    intro p m hm
    obtain ⟨n, hn, hstat, -⟩ := hback hm
    rw [hzxid, ← hstat]
    exact h.mzxid_le hn
  case czxid_injective =>
    intro p q m k hm hk hz
    obtain ⟨n, hn, hnstat, -⟩ := hback hm
    obtain ⟨l, hl, hlstat, -⟩ := hback hk
    exact h.czxid_injective hn hl (by rw [hnstat, hlstat, hz])
  case creator_inherited =>
    intro p q o' m k hm hq hk hacl
    obtain ⟨n, hn, -, -, hnacl, -⟩ := hback hm
    obtain ⟨l, hl, -, -, hlacl, -⟩ := hback hk
    rw [← hnacl]
    exact h.creator_inherited hn hq hl (hlacl.trans hacl)
  case dataLength_eq =>
    intro p m hm
    obtain ⟨n, hn, hstat, -, -, hlength⟩ := hback hm
    rw [← hstat, h.dataLength_eq hn, wordLength, wordLength, hlength]

end

/-! ## Operations -/

theorem check_veil (o : String) (t : Tree) (p : String) (version : Option Int32) :
    (t.veil o).check p version = t.check p version := by
  cases hn : t.node? p with
  | none => rw [check_of_absent hn, check_of_absent (by simp [hn])]
  | some n =>
    rw [check_of_stored hn, check_of_stored (n := n.veil o) (by simp [hn])]
    cases version <;> simp [checkVersion]

theorem create_veil (hid : who.identity ≠ some o) (t : Tree) (p : String) (data : List UInt8)
    (mode : Mode) :
    (t.veil o).create p data mode who = (t.create p data mode who).map (Change.veil o) := by
  by_cases hp : Valid p
  · by_cases hr : p = root
    · rw [hr, create_root, create_root]
      rfl
    · obtain ⟨q, -, -, -, hq, -⟩ := exists_parent_name hp hr
      cases hparent : t.node? q with
      | none =>
        rw [create_of_no_parent hp hq hparent, create_of_no_parent hp hq (by simp [hparent])]
        rfl
      | some parent =>
        have hparent' : (t.veil o).node? q = some (parent.veil o) := by simp [hparent]
        have hactual : actualPath p mode (parent.veil o) = actualPath p mode parent := by
          simp [actualPath]
        cases howner : parent.stat.owner with
        | some s =>
          rw [create_of_ephemeral_parent hp hq hparent (by simp [howner]),
            create_of_ephemeral_parent hp hq hparent' (by simp [howner])]
          rfl
        | none =>
          have howner' : (parent.veil o).stat.owner = none := by simp [howner]
          cases hperm : parent.acl.permits who.identity with
          | false =>
            rw [create_of_not_permitted hp hq hparent howner hperm,
              create_of_not_permitted hp hq hparent' howner' (by simp [hperm])]
            rfl
          | true =>
            have hperm' : (parent.veil o).acl.permits who.identity = true := by simp [hperm]
            by_cases hfresh : nodeName (actualPath p mode parent) ∈ parent.children
            · rw [create_of_mem_children hp hq hparent howner hperm hfresh,
                create_of_mem_children hp hq hparent' howner' hperm' (by simp [hactual, hfresh]),
                hactual]
              rfl
            · rw [create_of_fresh hp hq hparent howner hperm hfresh,
                create_of_fresh hp hq hparent' howner' hperm' (by simp [hactual, hfresh]), hactual,
                show (t.veil o).zxid = t.zxid from rfl,
                ← veil_withNode (n := Node.new data who.acl (t.zxid + 1) (ownerOf mode who))
                  (Caller.acl_ne_creator hid)]
              rfl
  · obtain ⟨fault, hf⟩ := exists_fault_of_not_valid hp
    rw [create_of_fault hf, create_of_fault hf]
    rfl

theorem setData_veil (h : t.WellFormed) (hid : who.identity ≠ some o) (p : String)
    (data : List UInt8) (version : Option Int32) :
    (t.veil o).setData p data version who =
      (t.setData p data version who).map (Change.veil o) := by
  cases hn : t.node? p with
  | none =>
    rw [setData_of_absent hn, setData_of_absent (by simp [hn])]
    rfl
  | some n =>
    have hn' : (t.veil o).node? p = some (n.veil o) := by simp [hn]
    cases hperm : n.acl.permits who.identity with
    | false =>
      rw [setData_of_not_permitted hn hperm, setData_of_not_permitted hn' (by simp [hperm])]
      rfl
    | true =>
      have hacl : n.acl ≠ .creator o := Acl.ne_creator_of_permits hperm hid
      rw [Node.veil_of_ne hacl] at hn'
      by_cases hv : Expects version n
      · rw [setData_of_expects hn hperm hv, setData_of_expects hn' hperm hv,
          ← veil_withData h hn hacl]
        rfl
      · rw [setData_of_not_expects hn hperm hv, setData_of_not_expects hn' hperm hv]
        rfl

theorem unlink_veil (o : String) (t : Tree) (p : String) :
    (t.veil o).unlink p = ((t.unlink p).1.veil o, (t.unlink p).2) := by
  cases hn : t.node? p with
  | none =>
    have hn' : (t.veil o).node? p = none := by simp [hn]
    rw [unlink_of_absent hn, unlink_of_absent hn']
  | some n =>
    have hn' : (t.veil o).node? p = some (n.veil o) := by simp [hn]
    cases hq : parent? p with
    | some q => rw [unlink_of_stored hq hn, unlink_of_stored hq hn', veil_without]
    | none =>
      unfold unlink
      rw [hn, hn']
      dsimp only
      rw [hq, veil_erase]
      rfl

theorem delete_veil (hp : Valid p) (o : String) (t : Tree) (version : Option Int32) (who : Caller) :
    (t.veil o).delete p version who = (t.delete p version who).map (Change.veil o) := by
  by_cases hr : p = root
  · rw [hr, delete_root, delete_root]
    rfl
  · obtain ⟨q, -, -, -, hq, -⟩ := exists_parent_name hp hr
    cases hn : t.node? p with
    | none =>
      rw [delete_of_absent hq hn, delete_of_absent hq (by simp [hn])]
      rfl
    | some n =>
      have hn' : (t.veil o).node? p = some (n.veil o) := by simp [hn]
      by_cases hv : Expects version n
      · have hv' : Expects version (n.veil o) := by simpa [Expects] using hv
        by_cases hc : n.children = []
        · have hc' : (n.veil o).children = [] := by simp [hc]
          by_cases hperm : ∀ parent, t.node? q = some parent →
              parent.acl.permits who.identity = true
          · have hperm' : ∀ parent, (t.veil o).node? q = some parent →
                parent.acl.permits who.identity = true := by
              intro parent hparent
              rw [node?_veil, Option.map_eq_some_iff] at hparent
              obtain ⟨m, hm, rfl⟩ := hparent
              simpa using hperm m hm
            rw [delete_of_permitted hq hn hv hc hperm, delete_of_permitted hq hn' hv' hc' hperm',
              ← veil_without]
            rfl
          · push Not at hperm
            obtain ⟨parent, hparent, hperm⟩ := hperm
            have hrefused : parent.acl.permits who.identity = false := by simpa using hperm
            have hparent' : (t.veil o).node? q = some (parent.veil o) := by simp [hparent]
            rw [delete_of_not_permitted hq hn hv hc hparent hrefused,
              delete_of_not_permitted hq hn' hv' hc' hparent' (by simp [hrefused])]
            rfl
        · rw [delete_of_children hq hn hv hc, delete_of_children hq hn' hv' (by simp [hc])]
          rfl
      · have hv' : ¬Expects version (n.veil o) := by simpa [Expects] using hv
        rw [delete_of_not_expects hq hn hv, delete_of_not_expects hq hn' hv']
        rfl

theorem apply_veil (h : t.WellFormed) (hid : who.identity ≠ some o) {op : Operation}
    (hp : Valid op.path) :
    (t.veil o).apply who op = (t.apply who op).map (Change.veil o) := by
  cases op with
  | check p version =>
    simp only [apply, check_veil]
    cases t.check p version <;> rfl
  | create p data mode =>
    simp only [apply, create_veil hid]
    cases t.create p data mode who <;> rfl
  | setData p data version =>
    simp only [apply, setData_veil h hid]
    cases t.setData p data version who <;> rfl
  | delete p version =>
    simp only [apply, delete_veil (p := p) hp]
    cases t.delete p version who <;> rfl

theorem applyAll_veil (h : t.WellFormed) (hid : who.identity ≠ some o) {ops : List Operation}
    (hp : ∀ op ∈ ops, Valid op.path) (index : Nat) :
    (t.veil o).applyAll who index ops = (t.applyAll who index ops).map (Change.veil o) := by
  induction ops generalizing t index with
  | nil => rfl
  | cons op ops ih =>
    have hop := apply_veil h hid (hp op (by simp))
    cases hc : t.apply who op with
    | error error =>
      rw [hc] at hop
      rw [applyAll_cons_error hc, applyAll_cons_error hop]
      rfl
    | ok c =>
      rw [hc] at hop
      have hc' := (steps_of_apply (hp op (by simp)) hc).2.wellFormed h
      have hrest := ih hc' (fun op hop => hp op (by simp [hop])) (index + 1)
      rw [applyAll_cons_ok hc, applyAll_cons_ok hop]
      show Except.map _ ((c.tree.veil o).applyAll who (index + 1) ops) = _
      rw [hrest]
      cases c.tree.applyAll who (index + 1) ops <;> rfl

theorem ephemeralsOf_veil (o : String) (t : Tree) (s : Nat) :
    (t.veil o).ephemeralsOf s = t.ephemeralsOf s := by
  simp [ephemeralsOf, veil, List.filter_map, Function.comp_def]

theorem unlinkAll_veil (o : String) (t : Tree) (ps : List String) :
    (t.veil o).unlinkAll ps = ((t.unlinkAll ps).1.veil o, (t.unlinkAll ps).2) := by
  induction ps generalizing t with
  | nil => rfl
  | cons p ps ih => simp [unlinkAll, unlink_veil, ih]

end Tree

end KeyRegistry
