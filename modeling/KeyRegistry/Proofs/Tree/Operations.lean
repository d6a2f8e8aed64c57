import KeyRegistry.Proofs.Tree.Change
import KeyRegistry.Proofs.Tree.Numbered

/-!
# What the operations do

Each operation is told apart into its refusals and its success, in the order in
which it looks at them. One that succeeds makes one elementary change, and a
transaction makes those of its operations in order.
-/

namespace KeyRegistry

open KeyRegistry.Path

theorem bind_eq_ok_iff {ε α β : Type} {x : Except ε α} {f : α → Except ε β} {b : β} :
    (x >>= f) = .ok b ↔ ∃ a, x = .ok a ∧ f a = .ok b := by
  cases x <;> simp [bind, Except.bind]

theorem checkPath_of_valid {p : String} (h : Valid p) : checkPath p = .ok () := by
  unfold checkPath
  rw [show fault? p = none from h]

theorem checkPath_of_fault {p : String} {fault : Fault} (h : fault? p = some fault) :
    checkPath p = .error (.invalidPath p fault.reason) := by
  unfold checkPath
  rw [h]

theorem checkPath_eq_ok_iff {p : String} : checkPath p = .ok () ↔ Valid p := by
  refine ⟨fun h => ?_, checkPath_of_valid⟩
  cases hf : fault? p with
  | none => exact hf
  | some fault => simp [checkPath_of_fault hf] at h

theorem exists_fault_of_not_valid {p : String} (h : ¬Valid p) : ∃ fault, fault? p = some fault :=
  Option.ne_none_iff_exists'.1 h

def Operation.events : Operation → Outcome → List Event
  | .create .., .created actual => [⟨.created, actual⟩]
  | .setData p _ _, .dataSet _ => [⟨.dataChanged, p⟩]
  | .delete p _, .deleted => [⟨.deleted, p⟩]
  | _, _ => []

def Operation.allEvents (ops : List Operation) (outcomes : List Outcome) : List Event :=
  (ops.zipWith Operation.events outcomes).flatten

namespace Tree

variable {t : Tree} {p q : String} {data : List UInt8} {mode : Mode} {version : Option Int32}
  {who : Caller} {n parent : Node}

theorem node_of_stored (h : t.node? p = some n) : t.node p = .ok n := by
  simp [node, h]

theorem node_of_absent (h : t.node? p = none) : t.node p = .error (.noNode p) := by
  simp [node, h]

theorem authorize_of_permits {identity : Option String} (h : n.acl.permits identity = true) :
    authorize n p identity = .ok () := by
  simp [authorize, h]

theorem authorize_of_not_permits {identity : Option String} (h : n.acl.permits identity = false) :
    authorize n p identity = .error (.noAuth p) := by
  simp [authorize, h]

def Expects (version : Option Int32) (n : Node) : Prop := ∀ v ∈ version, v = n.stat.version

theorem checkVersion_of_expects (h : Expects version n) : checkVersion n p version = .ok () := by
  cases version with
  | none => rfl
  | some v => simp [checkVersion, h v rfl]

theorem checkVersion_of_not_expects (h : ¬Expects version n) :
    checkVersion n p version = .error (.badVersion p) := by
  cases version with
  | none => simp [Expects] at h
  | some v =>
    have hv : v ≠ n.stat.version := by simpa [Expects] using h
    simp [checkVersion, hv]

theorem expects_none (n : Node) : Expects none n := by simp [Expects]

/-! ## Checking -/

theorem check_of_absent (h : t.node? p = none) : t.check p version = .error (.noNode p) := by
  simp [check, node_of_absent h, bind, Except.bind]

theorem check_of_stored (h : t.node? p = some n) :
    t.check p version = checkVersion n p version := by
  simp [check, node_of_stored h, bind, Except.bind]

/-! ## Creating -/

def ownerOf (mode : Mode) (who : Caller) : Option Nat :=
  if mode.ephemeral then some who.session else none

theorem create_of_fault {fault : Fault} (h : fault? p = some fault) :
    t.create p data mode who = .error (.invalidPath p fault.reason) := by
  simp [create, checkPath_of_fault h, bind, Except.bind]

theorem create_root : t.create root data mode who = .error (.nodeExists root) := by
  simp [create, checkPath_of_valid valid_root, bind, Except.bind, throw, throwThe,
    MonadExceptOf.throw]

theorem create_of_no_parent (hp : Valid p) (hq : parent? p = some q) (h : t.node? q = none) :
    t.create p data mode who = .error (.noNode p) := by
  simp [create, checkPath_of_valid hp, hq, h, bind, Except.bind, throw, throwThe,
    MonadExceptOf.throw]

theorem create_of_ephemeral_parent (hp : Valid p) (hq : parent? p = some q)
    (hparent : t.node? q = some parent) (h : parent.stat.owner.isSome) :
    t.create p data mode who = .error (.noChildrenForEphemerals q) := by
  simp [create, checkPath_of_valid hp, hq, hparent, h, bind, Except.bind, throw, throwThe,
    MonadExceptOf.throw]

theorem create_of_not_permitted (hp : Valid p) (hq : parent? p = some q)
    (hparent : t.node? q = some parent) (howner : parent.stat.owner = none)
    (h : parent.acl.permits who.identity = false) :
    t.create p data mode who = .error (.noAuth q) := by
  simp [create, checkPath_of_valid hp, hq, hparent, howner, authorize_of_not_permits h, bind,
    Except.bind]

theorem create_of_mem_children (hp : Valid p) (hq : parent? p = some q)
    (hparent : t.node? q = some parent) (howner : parent.stat.owner = none)
    (hperm : parent.acl.permits who.identity = true)
    (h : nodeName (actualPath p mode parent) ∈ parent.children) :
    t.create p data mode who = .error (.nodeExists (actualPath p mode parent)) := by
  simp [create, checkPath_of_valid hp, hq, hparent, howner, authorize_of_permits hperm, h, bind,
    Except.bind, throw, throwThe, MonadExceptOf.throw]

theorem create_of_fresh (hp : Valid p) (hq : parent? p = some q)
    (hparent : t.node? q = some parent) (howner : parent.stat.owner = none)
    (hperm : parent.acl.permits who.identity = true)
    (h : nodeName (actualPath p mode parent) ∉ parent.children) :
    t.create p data mode who = .ok
      ⟨t.withNode q (actualPath p mode parent)
          (Node.new data who.acl (t.zxid + 1) (ownerOf mode who)),
        [⟨.created, actualPath p mode parent⟩], actualPath p mode parent⟩ := by
  simp [create, checkPath_of_valid hp, hq, hparent, howner, authorize_of_permits hperm, h, bind,
    Except.bind, pure, Except.pure, withNode, ownerOf]

/-- A successful creation met none of the refusals. -/
theorem create_ok_cases {c : Change String} (h : t.create p data mode who = .ok c) :
    ∃ q parent, Valid p ∧ parent? p = some q ∧ t.node? q = some parent ∧
      parent.stat.owner = none ∧ parent.acl.permits who.identity = true ∧
      nodeName (actualPath p mode parent) ∉ parent.children ∧
      c = ⟨t.withNode q (actualPath p mode parent)
          (Node.new data who.acl (t.zxid + 1) (ownerOf mode who)),
        [⟨.created, actualPath p mode parent⟩], actualPath p mode parent⟩ := by
  by_cases hp : Valid p
  · by_cases hr : p = root
    · simp [hr, create_root] at h
    · obtain ⟨q, -, -, -, hq, -⟩ := exists_parent_name hp hr
      cases hparent : t.node? q with
      | none => simp [create_of_no_parent hp hq hparent] at h
      | some parent =>
        cases howner : parent.stat.owner with
        | some s => simp [create_of_ephemeral_parent hp hq hparent (by simp [howner])] at h
        | none =>
          cases hperm : parent.acl.permits who.identity with
          | false => simp [create_of_not_permitted hp hq hparent howner hperm] at h
          | true =>
            by_cases hfresh : nodeName (actualPath p mode parent) ∈ parent.children
            · simp [create_of_mem_children hp hq hparent howner hperm hfresh] at h
            · rw [create_of_fresh hp hq hparent howner hperm hfresh] at h
              exact ⟨q, parent, hp, hq, hparent, howner, hperm, hfresh, (Except.ok.inj h).symm⟩
  · obtain ⟨fault, hf⟩ := exists_fault_of_not_valid hp
    simp [create_of_fault hf] at h

theorem step_of_create {c : Change String} (h : t.create p data mode who = .ok c) :
    c.events = [⟨.created, c.value⟩] ∧ Step who t ⟨.created, c.value⟩ c.tree := by
  obtain ⟨q, parent, hp, hq, hparent, howner, hperm, hfresh, rfl⟩ := create_ok_cases h
  refine ⟨rfl, .created data (valid_actualPath hp hq mode parent)
    (parent?_actualPath hp hq mode parent) hparent howner hperm hfresh ?_⟩
  unfold ownerOf
  split_ifs <;> simp

/-! ## Writing -/

theorem setData_of_absent (h : t.node? p = none) :
    t.setData p data version who = .error (.noNode p) := by
  simp [setData, node_of_absent h, bind, Except.bind]

theorem setData_of_not_permitted (hn : t.node? p = some n)
    (h : n.acl.permits who.identity = false) :
    t.setData p data version who = .error (.noAuth p) := by
  simp [setData, node_of_stored hn, authorize_of_not_permits h, bind, Except.bind]

theorem setData_of_not_expects (hn : t.node? p = some n)
    (hperm : n.acl.permits who.identity = true) (h : ¬Expects version n) :
    t.setData p data version who = .error (.badVersion p) := by
  simp [setData, node_of_stored hn, authorize_of_permits hperm, checkVersion_of_not_expects h,
    bind, Except.bind]

theorem setData_of_expects (hn : t.node? p = some n)
    (hperm : n.acl.permits who.identity = true) (h : Expects version n) :
    t.setData p data version who = .ok ⟨t.withData p n data, [⟨.dataChanged, p⟩],
      writtenStat n.stat data (t.zxid + 1)⟩ := by
  simp [setData, node_of_stored hn, authorize_of_permits hperm, checkVersion_of_expects h,
    bind, Except.bind, pure, Except.pure, withData]

theorem setData_ok_cases {c : Change Stat} (h : t.setData p data version who = .ok c) :
    ∃ n, t.node? p = some n ∧ n.acl.permits who.identity = true ∧ Expects version n ∧
      c = ⟨t.withData p n data, [⟨.dataChanged, p⟩], writtenStat n.stat data (t.zxid + 1)⟩ := by
  cases hn : t.node? p with
  | none => simp [setData_of_absent hn] at h
  | some n =>
    cases hperm : n.acl.permits who.identity with
    | false => simp [setData_of_not_permitted hn hperm] at h
    | true =>
      by_cases hv : Expects version n
      · rw [setData_of_expects hn hperm hv] at h
        exact ⟨n, rfl, hperm, hv, (Except.ok.inj h).symm⟩
      · simp [setData_of_not_expects hn hperm hv] at h

theorem step_of_setData {c : Change Stat} (h : t.setData p data version who = .ok c) :
    c.events = [⟨.dataChanged, p⟩] ∧ Step who t ⟨.dataChanged, p⟩ c.tree := by
  obtain ⟨n, hn, hperm, -, rfl⟩ := setData_ok_cases h
  exact ⟨rfl, .written data hn hperm⟩

/-! ## Deleting -/

theorem unlink_of_absent (h : t.node? p = none) : t.unlink p = (t, []) := by
  simp [unlink, h]

theorem unlink_of_stored (hq : parent? p = some q) (h : t.node? p = some n) :
    t.unlink p = (t.without q p, [⟨.deleted, p⟩]) := by
  simp [unlink, h, hq, without, modify, erase]

theorem delete_root :
    t.delete root version who =
      .error (.invalidPath root "the root node cannot be deleted") := by
  simp [delete, throw, throwThe, MonadExceptOf.throw]

theorem delete_of_absent (hq : parent? p = some q) (h : t.node? p = none) :
    t.delete p version who = .error (.noNode p) := by
  simp [delete, hq, node_of_absent h, bind, Except.bind]

theorem delete_of_not_expects (hq : parent? p = some q) (hn : t.node? p = some n)
    (h : ¬Expects version n) : t.delete p version who = .error (.badVersion p) := by
  simp [delete, hq, node_of_stored hn, checkVersion_of_not_expects h, bind, Except.bind]

theorem delete_of_children (hq : parent? p = some q) (hn : t.node? p = some n)
    (hv : Expects version n) (h : n.children ≠ []) :
    t.delete p version who = .error (.notEmpty p) := by
  simp [delete, hq, node_of_stored hn, checkVersion_of_expects hv, h, bind, Except.bind, throw,
    throwThe, MonadExceptOf.throw]

theorem delete_of_not_permitted (hq : parent? p = some q) (hn : t.node? p = some n)
    (hv : Expects version n) (hc : n.children = []) (hparent : t.node? q = some parent)
    (h : parent.acl.permits who.identity = false) :
    t.delete p version who = .error (.noAuth q) := by
  simp [delete, hq, node_of_stored hn, checkVersion_of_expects hv, hc, hparent,
    authorize_of_not_permits h, bind, Except.bind]

theorem delete_of_permitted (hq : parent? p = some q) (hn : t.node? p = some n)
    (hv : Expects version n) (hc : n.children = [])
    (h : ∀ parent, t.node? q = some parent → parent.acl.permits who.identity = true) :
    t.delete p version who = .ok ⟨t.without q p, [⟨.deleted, p⟩], ()⟩ := by
  cases hparent : t.node? q with
  | none =>
    simp [delete, hq, node_of_stored hn, checkVersion_of_expects hv, hc, hparent,
      unlink_of_stored hq hn, bind, Except.bind, pure, Except.pure]
  | some parent =>
    simp [delete, hq, node_of_stored hn, checkVersion_of_expects hv, hc, hparent,
      authorize_of_permits (h parent hparent), unlink_of_stored hq hn, bind, Except.bind, pure,
      Except.pure]

theorem delete_ok_cases (hp : Valid p) {c : Change Unit} (h : t.delete p version who = .ok c) :
    ∃ q n, parent? p = some q ∧ t.node? p = some n ∧ Expects version n ∧ n.children = [] ∧
      (∀ parent, t.node? q = some parent → parent.acl.permits who.identity = true) ∧
      c = ⟨t.without q p, [⟨.deleted, p⟩], ()⟩ := by
  by_cases hr : p = root
  · simp [hr, delete_root] at h
  · obtain ⟨q, -, -, -, hq, -⟩ := exists_parent_name hp hr
    cases hn : t.node? p with
    | none => simp [delete_of_absent hq hn] at h
    | some n =>
      by_cases hv : Expects version n
      · by_cases hc : n.children = []
        · by_cases hperm : ∀ parent, t.node? q = some parent →
              parent.acl.permits who.identity = true
          · rw [delete_of_permitted hq hn hv hc hperm] at h
            exact ⟨q, n, hq, rfl, hv, hc, hperm, (Except.ok.inj h).symm⟩
          · push Not at hperm
            obtain ⟨parent, hparent, hperm⟩ := hperm
            simp [delete_of_not_permitted hq hn hv hc hparent (by simpa using hperm)] at h
        · simp [delete_of_children hq hn hv hc] at h
      · simp [delete_of_not_expects hq hn hv] at h

theorem step_of_delete (hp : Valid p) {c : Change Unit}
    (h : t.delete p version who = .ok c) :
    c.events = [⟨.deleted, p⟩] ∧ Step who t ⟨.deleted, p⟩ c.tree := by
  obtain ⟨q, n, hq, hn, -, hc, hperm, rfl⟩ := delete_ok_cases hp h
  exact ⟨rfl, .removed hq hn hc (.inl hperm)⟩

/-! ## Transactions -/

theorem steps_of_apply {op : Operation} (hp : Valid op.path) {c : Change Outcome}
    (h : t.apply who op = .ok c) :
    c.events = op.events c.value ∧ Steps who t c.events c.tree := by
  cases op with
  | check p version =>
    obtain ⟨-, -, ⟨⟩⟩ := bind_eq_ok_iff.1 h
    exact ⟨rfl, .nil t⟩
  | create p data mode =>
    obtain ⟨d, hd, ⟨⟩⟩ := bind_eq_ok_iff.1 h
    obtain ⟨hev, hstep⟩ := step_of_create hd
    exact ⟨hev, hev ▸ .single hstep⟩
  | setData p data version =>
    obtain ⟨d, hd, ⟨⟩⟩ := bind_eq_ok_iff.1 h
    obtain ⟨hev, hstep⟩ := step_of_setData hd
    exact ⟨hev, hev ▸ .single hstep⟩
  | delete p version =>
    obtain ⟨d, hd, ⟨⟩⟩ := bind_eq_ok_iff.1 h
    obtain ⟨hev, hstep⟩ := step_of_delete hp hd
    exact ⟨hev, hev ▸ .single hstep⟩

theorem applyAll_cons_ok {index : Nat} {op : Operation} {ops : List Operation} {c : Change Outcome}
    (h : t.apply who op = .ok c) :
    t.applyAll who index (op :: ops) = (c.tree.applyAll who (index + 1) ops).map fun rest =>
      ⟨rest.tree, c.events ++ rest.events, c.value :: rest.value⟩ := by
  cases hr : c.tree.applyAll who (index + 1) ops <;>
    simp [applyAll, h, hr, Except.mapError, Except.map, bind, Except.bind, pure, Except.pure]

theorem applyAll_cons_error {index : Nat} {op : Operation} {ops : List Operation}
    {e : ServiceError} (h : t.apply who op = .error e) :
    t.applyAll who index (op :: ops) = .error (.transactionFailed index e) := by
  simp [applyAll, h, Except.mapError, bind, Except.bind]

/-- A transaction that succeeds is its first operation and then the others. -/
theorem ok_of_applyAll_cons {index : Nat} {op : Operation} {ops : List Operation}
    {c : Change (List Outcome)} (h : t.applyAll who index (op :: ops) = .ok c) :
    ∃ first rest, t.apply who op = .ok first ∧
      first.tree.applyAll who (index + 1) ops = .ok rest ∧
      c = ⟨rest.tree, first.events ++ rest.events, first.value :: rest.value⟩ := by
  cases hop : t.apply who op with
  | error e => simp [applyAll_cons_error hop] at h
  | ok first =>
    rw [applyAll_cons_ok hop] at h
    cases hrest : first.tree.applyAll who (index + 1) ops with
    | error e => simp [hrest, Except.map] at h
    | ok rest => exact ⟨first, rest, rfl, hrest, by simpa [hrest, Except.map] using h.symm⟩

/-- A write that requires the node to exist, over an existing node. -/
theorem applyAll_rewrite_of_stored (index : Nat) (data : List UInt8) (hn : t.node? p = some n)
    (hperm : n.acl.permits who.identity = true) :
    t.applyAll who index [.check p none, .setData p data none] =
      .ok ⟨t.withData p n data, [⟨.dataChanged, p⟩],
        [.checked, .dataSet (writtenStat n.stat data (t.zxid + 1))]⟩ := by
  have hcheck : t.apply who (.check p none) = .ok ⟨t, [], .checked⟩ := by
    simp [apply, check_of_stored hn, checkVersion, bind, Except.bind, pure, Except.pure]
  have hset : t.apply who (.setData p data none) = .ok ⟨t.withData p n data,
      [⟨.dataChanged, p⟩], .dataSet (writtenStat n.stat data (t.zxid + 1))⟩ := by
    simp [apply, setData_of_expects hn hperm (expects_none n), bind, Except.bind, pure,
      Except.pure]
  rw [applyAll_cons_ok hcheck, applyAll_cons_ok hset]
  rfl

theorem applyAll_rewrite_of_absent (who : Caller) (index : Nat) (data : List UInt8)
    (hn : t.node? p = none) :
    t.applyAll who index [.check p none, .setData p data none] =
      .error (.transactionFailed index (.noNode p)) :=
  applyAll_cons_error (by simp [apply, check_of_absent hn, bind, Except.bind])

theorem steps_of_applyAll {index : Nat} {ops : List Operation} (hp : ∀ op ∈ ops, Valid op.path)
    {c : Change (List Outcome)} (h : t.applyAll who index ops = .ok c) :
    c.events = Operation.allEvents ops c.value ∧ Steps who t c.events c.tree := by
  induction ops generalizing t index c with
  | nil =>
    simp only [applyAll_nil, Except.ok.injEq] at h
    exact h ▸ ⟨rfl, .nil t⟩
  | cons op ops ih =>
    obtain ⟨first, rest, hfirst, hrest, rfl⟩ := ok_of_applyAll_cons h
    obtain ⟨hev, hsteps⟩ := steps_of_apply (hp op (by simp)) hfirst
    obtain ⟨hevs, hrests⟩ := ih (fun op hop => hp op (by simp [hop])) hrest
    exact ⟨by simp [hev, hevs, Operation.allEvents], hsteps.append hrests⟩

end Tree

end KeyRegistry
