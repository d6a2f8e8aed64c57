import KeyRegistry.Proofs.Path.Names
import KeyRegistry.Tree
import Mathlib.Data.List.Nodup
import Mathlib.Tactic.SplitIfs

/-!
# Elementary changes of a tree

Every operation that succeeds alters the tree by a sequence of elementary
changes, one for each of its events: a node is added under a parent, written, or
taken out. `Tree.Step` lists them with everything that is known when they happen.
-/

namespace KeyRegistry

open KeyRegistry.Path

namespace Tree

/-! ## Looking up a node -/

theorem lookup_cons_ite (x k : String) (n : Node) (es : List (String × Node)) :
    ((k, n) :: es).lookup x = if x = k then some n else es.lookup x := by
  by_cases h : x = k
  · simp [h]
  · rw [List.lookup_cons, beq_false_of_ne h, if_neg h]

theorem node?_modify (t : Tree) (p : String) (f : Node → Node) (x : String) :
    (t.modify p f).node? x = if x = p then (t.node? x).map f else t.node? x := by
  unfold node? modify
  induction t.nodes with
  | nil => simp
  | cons e es ih =>
    obtain ⟨k, n⟩ := e
    rw [List.map_cons, lookup_cons_ite]
    by_cases hk : k = p
    · rw [if_pos hk, lookup_cons_ite, ih]
      by_cases hx : x = k <;> simp_all
    · rw [if_neg hk, lookup_cons_ite, ih]
      by_cases hx : x = k
      · simp [hx, hk]
      · simp [hx]

theorem node?_insert (t : Tree) (p : String) (n : Node) (x : String) :
    (t.insert p n).node? x = (t.node? x).or (if x = p then some n else none) := by
  unfold node? insert
  rw [List.lookup_append]
  by_cases hx : x = p <;> simp [lookup_cons_ite, hx]

theorem node?_erase (t : Tree) (p x : String) :
    (t.erase p).node? x = if x = p then none else t.node? x := by
  unfold node? erase
  induction t.nodes with
  | nil => simp
  | cons e es ih =>
    obtain ⟨k, n⟩ := e
    rw [lookup_cons_ite]
    by_cases hk : k = p
    · rw [List.filter_cons_of_neg (by simp [hk]), ih]
      by_cases hx : x = p <;> simp_all
    · rw [List.filter_cons_of_pos (by simp [hk]), lookup_cons_ite, ih]
      by_cases hx : x = k <;> simp_all

@[simp] theorem node?_with_zxid (t : Tree) (z : Nat) (x : String) :
    ({ t with zxid := z } : Tree).node? x = t.node? x := rfl

def Stored (t : Tree) (p : String) : Prop := ∃ n, t.node? p = some n

theorem not_stored_iff {t : Tree} {p : String} : ¬t.Stored p ↔ t.node? p = none := by
  simp [Stored, Option.eq_none_iff_forall_ne_some]

/-- What is left of a node when its children and their counters are put aside. -/
def core (n : Node) : Node :=
  { n with children := [], stat := { n.stat with cversion := 0, numChildren := 0 } }

@[simp] theorem core_gainChild (name : String) (n : Node) : core (gainChild name n) = core n := rfl

@[simp] theorem core_loseChild (name : String) (n : Node) : core (loseChild name n) = core n := rfl

@[simp] theorem core_core (n : Node) : core (core n) = core n := rfl

theorem eq_of_core_eq {α : Type} (f : Node → α) (hf : ∀ n, f (core n) = f n) {n m : Node}
    (h : core m = core n) : f m = f n := by
  rw [← hf m, h, hf n]

section

variable {n m : Node} (h : core m = core n)

include h

theorem data_eq_of_core : m.data = n.data := eq_of_core_eq _ (fun _ => rfl) h

theorem acl_eq_of_core : m.acl = n.acl := eq_of_core_eq _ (fun _ => rfl) h

theorem owner_eq_of_core : m.stat.owner = n.stat.owner :=
  eq_of_core_eq (fun k => k.stat.owner) (fun _ => rfl) h

theorem czxid_eq_of_core : m.stat.czxid = n.stat.czxid :=
  eq_of_core_eq (fun k => k.stat.czxid) (fun _ => rfl) h

theorem mzxid_eq_of_core : m.stat.mzxid = n.stat.mzxid :=
  eq_of_core_eq (fun k => k.stat.mzxid) (fun _ => rfl) h

theorem version_eq_of_core : m.stat.version = n.stat.version :=
  eq_of_core_eq (fun k => k.stat.version) (fun _ => rfl) h

theorem dataLength_eq_of_core : m.stat.dataLength = n.stat.dataLength :=
  eq_of_core_eq (fun k => k.stat.dataLength) (fun _ => rfl) h

end

/-! ## The three kinds of change -/

def withNode (t : Tree) (q p : String) (n : Node) : Tree :=
  { (t.modify q (gainChild (nodeName p))).insert p n with zxid := t.zxid + 1 }

def rewritten (n : Node) (data : List UInt8) (zxid : Nat) : Node :=
  { n with data := data, stat := writtenStat n.stat data zxid }

def withData (t : Tree) (p : String) (n : Node) (data : List UInt8) : Tree :=
  { t.modify p fun m => { m with data := data, stat := writtenStat n.stat data (t.zxid + 1) } with
    zxid := t.zxid + 1 }

def without (t : Tree) (q p : String) : Tree :=
  { (t.erase p).modify q (loseChild (nodeName p)) with zxid := t.zxid + 1 }

theorem node?_withNode {t : Tree} {q p : String} {n : Node} (hp : t.node? p = none) (hqp : p ≠ q)
    (x : String) : (t.withNode q p n).node? x =
      if x = p then some n
      else if x = q then (t.node? x).map (gainChild (nodeName p)) else t.node? x := by
  unfold withNode
  rw [node?_with_zxid, node?_insert, node?_modify]
  by_cases hx : x = p
  · simp [hx, hqp, hp]
  · simp [hx]

theorem node?_withData {t : Tree} {p : String} {n : Node} (hn : t.node? p = some n)
    (data : List UInt8) (x : String) :
    (t.withData p n data).node? x =
      if x = p then some (rewritten n data (t.zxid + 1)) else t.node? x := by
  unfold withData
  rw [node?_with_zxid, node?_modify]
  by_cases hx : x = p
  · simp [hx, hn, rewritten]
  · simp [hx]

theorem node?_without {t : Tree} {q p : String} (hqp : p ≠ q) (x : String) :
    (t.without q p).node? x =
      if x = p then none
      else if x = q then (t.node? x).map (loseChild (nodeName p)) else t.node? x := by
  unfold without
  rw [node?_with_zxid, node?_modify, node?_erase]
  by_cases hx : x = p
  · simp [hx, hqp]
  · simp [hx]

@[simp] theorem zxid_withNode (t : Tree) (q p : String) (n : Node) :
    (t.withNode q p n).zxid = t.zxid + 1 := rfl

@[simp] theorem zxid_withData (t : Tree) (p : String) (n : Node) (data : List UInt8) :
    (t.withData p n data).zxid = t.zxid + 1 := rfl

@[simp] theorem zxid_without (t : Tree) (q p : String) : (t.without q p).zxid = t.zxid + 1 := rfl

@[simp] theorem children_gainChild (name : String) (n : Node) :
    (gainChild name n).children = n.children ++ [name] := rfl

@[simp] theorem children_loseChild (name : String) (n : Node) :
    (loseChild name n).children = n.children.filter (· ≠ name) := rfl

@[simp] theorem data_rewritten (n : Node) (data : List UInt8) (zxid : Nat) :
    (rewritten n data zxid).data = data := rfl

@[simp] theorem children_rewritten (n : Node) (data : List UInt8) (zxid : Nat) :
    (rewritten n data zxid).children = n.children := rfl

@[simp] theorem acl_rewritten (n : Node) (data : List UInt8) (zxid : Nat) :
    (rewritten n data zxid).acl = n.acl := rfl

@[simp] theorem stat_rewritten (n : Node) (data : List UInt8) (zxid : Nat) :
    (rewritten n data zxid).stat = writtenStat n.stat data zxid := rfl

/--
One elementary change on behalf of `who`, with its event. A node is taken out
when it has no children, by whoever may change its parent or as an ephemeral
node of an ending session.
-/
inductive Step (who : Caller) (t : Tree) : Event → Tree → Prop
  | created {p q : String} {parent : Node} (data : List UInt8) {owner : Option Nat}
      (valid : Valid p) (above : parent? p = some q) (stored : t.node? q = some parent)
      (persistent : parent.stat.owner = none)
      (permitted : parent.acl.permits who.identity = true)
      (fresh : nodeName p ∉ parent.children)
      (owned : owner = none ∨ owner = some who.session) :
      Step who t ⟨.created, p⟩ (t.withNode q p (Node.new data who.acl (t.zxid + 1) owner))
  | written {p : String} {n : Node} (data : List UInt8) (stored : t.node? p = some n)
      (permitted : n.acl.permits who.identity = true) :
      Step who t ⟨.dataChanged, p⟩ (t.withData p n data)
  | removed {p q : String} {n : Node} (above : parent? p = some q)
      (stored : t.node? p = some n) (childless : n.children = [])
      (permitted : (∀ parent, t.node? q = some parent →
        parent.acl.permits who.identity = true) ∨ n.stat.owner = some who.session) :
      Step who t ⟨.deleted, p⟩ (t.without q p)

inductive Steps (who : Caller) : Tree → List Event → Tree → Prop
  | nil (t : Tree) : Steps who t [] t
  | cons {t t' t'' : Tree} {ev : Event} {evs : List Event} (first : Step who t ev t')
      (rest : Steps who t' evs t'') : Steps who t (ev :: evs) t''

theorem Steps.single {who : Caller} {t t' : Tree} {ev : Event} (h : Step who t ev t') :
    Steps who t [ev] t' :=
  .cons h (.nil t')

theorem Steps.append {who : Caller} {t t' t'' : Tree} {evs evs' : List Event}
    (h : Steps who t evs t') (h' : Steps who t' evs' t'') : Steps who t (evs ++ evs') t'' := by
  induction h with
  | nil => exact h'
  | cons first _ ih => exact .cons first (ih h')

/-- What every elementary change keeps is kept by any number of them. -/
theorem Steps.invariant {who : Caller} {P : Tree → Prop} {t t' : Tree} {evs : List Event}
    (hstep : ∀ t ev t', P t → Step who t ev t' → P t') (h : Steps who t evs t') (ht : P t) :
    P t' := by
  induction h with
  | nil => exact ht
  | cons first _ ih => exact ih (hstep _ _ _ ht first)

end Tree

end KeyRegistry
