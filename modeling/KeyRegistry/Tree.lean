import KeyRegistry.Path
import KeyRegistry.ServiceError
import KeyRegistry.Tree.Node

/-!
# The node tree

Nodes are kept under their paths, in creation order. Each operation yields a
changed tree with the events it gave rise to, or the reason why nothing changed.
A transaction is a fold over the same operations.
-/

namespace KeyRegistry

inductive EventKind
  | created
  | dataChanged
  | deleted
  deriving DecidableEq, Repr

structure Event where
  kind : EventKind
  path : String
  deriving DecidableEq, Repr

inductive Operation
  | check (path : String) (version : Option Int32)
  | create (path : String) (data : List UInt8) (mode : Mode)
  | setData (path : String) (data : List UInt8) (version : Option Int32)
  | delete (path : String) (version : Option Int32)
  deriving DecidableEq, Repr

def Operation.path : Operation → String
  | .check p _ | .create p _ _ | .setData p _ _ | .delete p _ => p

inductive Outcome
  | checked
  | created (path : String)
  | dataSet (stat : Stat)
  | deleted
  deriving DecidableEq, Repr

structure Tree where
  nodes : List (String × Node)
  /-- The number of the last change. -/
  zxid : Nat
  deriving DecidableEq, Repr

structure Change (α : Type) where
  tree : Tree
  events : List Event
  value : α

def checkPath (p : String) : Except ServiceError Unit :=
  match Path.fault? p with
  | some fault => .error (.invalidPath p fault.reason)
  | none => .ok ()

namespace Tree

def empty : Tree := ⟨[(Path.root, Node.new [] .anyone 0 none)], 0⟩

def node? (t : Tree) (p : String) : Option Node := t.nodes.lookup p

def node (t : Tree) (p : String) : Except ServiceError Node :=
  match t.node? p with
  | some n => .ok n
  | none => .error (.noNode p)

def modify (t : Tree) (p : String) (f : Node → Node) : Tree :=
  { t with nodes := t.nodes.map fun e => if e.1 = p then (e.1, f e.2) else e }

def insert (t : Tree) (p : String) (n : Node) : Tree :=
  { t with nodes := t.nodes ++ [(p, n)] }

def erase (t : Tree) (p : String) : Tree :=
  { t with nodes := t.nodes.filter fun e => e.1 ≠ p }

def authorize (n : Node) (p : String) (identity : Option String) : Except ServiceError Unit :=
  if n.acl.permits identity then .ok () else .error (.noAuth p)

def checkVersion (n : Node) (p : String) : Option Int32 → Except ServiceError Unit
  | some expected => if expected = n.stat.version then .ok () else .error (.badVersion p)
  | none => .ok ()

def check (t : Tree) (p : String) (version : Option Int32) : Except ServiceError Unit := do
  checkVersion (← t.node p) p version

def gainChild (name : String) (n : Node) : Node :=
  { n with
    children := n.children ++ [name]
    stat := { n.stat with
      cversion := n.stat.cversion + 1, numChildren := n.stat.numChildren + 1 } }

def loseChild (name : String) (n : Node) : Node :=
  { n with
    children := n.children.filter (· ≠ name)
    stat := { n.stat with
      cversion := n.stat.cversion + 1, numChildren := n.stat.numChildren - 1 } }

/-- The path a new node gets: numbered by its parent's child changes, if asked for. -/
def actualPath (p : String) (mode : Mode) (parent : Node) : String :=
  if mode.sequential then p ++ sequenceSuffix parent.stat.cversion else p

def create (t : Tree) (p : String) (data : List UInt8) (mode : Mode) (caller : Caller) :
    Except ServiceError (Change String) := do
  checkPath p
  let some parentPath := Path.parent? p | throw (.nodeExists p)
  let some parent := t.node? parentPath | throw (.noNode p)
  if parent.stat.owner.isSome then throw (.noChildrenForEphemerals parentPath)
  authorize parent parentPath caller.identity
  let actual := actualPath p mode parent
  let name := Path.nodeName actual
  if name ∈ parent.children then throw (.nodeExists actual)
  let owner := if mode.ephemeral then some caller.session else none
  let grown := (t.modify parentPath (gainChild name)).insert actual
    (Node.new data caller.acl (t.zxid + 1) owner)
  return ⟨{ grown with zxid := t.zxid + 1 }, [⟨.created, actual⟩], actual⟩

def writtenStat (s : Stat) (data : List UInt8) (zxid : Nat) : Stat :=
  { s with version := s.version + 1, mzxid := zxid, dataLength := wordLength data }

def setData (t : Tree) (p : String) (data : List UInt8) (version : Option Int32)
    (caller : Caller) : Except ServiceError (Change Stat) := do
  let n ← t.node p
  authorize n p caller.identity
  checkVersion n p version
  let stat := writtenStat n.stat data (t.zxid + 1)
  let written := t.modify p fun n => { n with data := data, stat := stat }
  return ⟨{ written with zxid := t.zxid + 1 }, [⟨.dataChanged, p⟩], stat⟩

/-- Takes a node out, whatever its version and access rule; an absent one stays absent. -/
def unlink (t : Tree) (p : String) : Tree × List Event :=
  match t.node? p with
  | none => (t, [])
  | some _ =>
    let rest := { t.erase p with zxid := t.zxid + 1 }
    let rest := match Path.parent? p with
      | some parentPath => rest.modify parentPath (loseChild (Path.nodeName p))
      | none => rest
    (rest, [⟨.deleted, p⟩])

def delete (t : Tree) (p : String) (version : Option Int32) (caller : Caller) :
    Except ServiceError (Change Unit) := do
  let some parentPath := Path.parent? p
    | throw (.invalidPath p "the root node cannot be deleted")
  let n ← t.node p
  checkVersion n p version
  if n.children ≠ [] then throw (.notEmpty p)
  match t.node? parentPath with
  | some parent => authorize parent parentPath caller.identity
  | none => pure ()
  let (rest, events) := t.unlink p
  return ⟨rest, events, ()⟩

def apply (t : Tree) (caller : Caller) : Operation → Except ServiceError (Change Outcome)
  | .check p version => do
    t.check p version
    return ⟨t, [], .checked⟩
  | .create p data mode => do
    let c ← t.create p data mode caller
    return ⟨c.tree, c.events, .created c.value⟩
  | .setData p data version => do
    let c ← t.setData p data version caller
    return ⟨c.tree, c.events, .dataSet c.value⟩
  | .delete p version => do
    let c ← t.delete p version caller
    return ⟨c.tree, c.events, .deleted⟩

/-- Applies operations in order, numbered from `index`; the first failure is the answer. -/
def applyAll (t : Tree) (caller : Caller) (index : Nat) :
    List Operation → Except ServiceError (Change (List Outcome))
  | [] => .ok ⟨t, [], []⟩
  | op :: ops => do
    let c ← (t.apply caller op).mapError (.transactionFailed index)
    let rest ← applyAll c.tree caller (index + 1) ops
    return ⟨rest.tree, c.events ++ rest.events, c.value :: rest.value⟩

def ephemeralsOf (t : Tree) (session : Nat) : List String :=
  (t.nodes.filter fun e => e.2.stat.owner == some session).map (·.1)

def unlinkAll (t : Tree) : List String → Tree × List Event
  | [] => (t, [])
  | p :: ps =>
    let (t, first) := t.unlink p
    let (t, rest) := t.unlinkAll ps
    (t, first ++ rest)

@[simp] theorem node?_empty_root : empty.node? Path.root = some (Node.new [] .anyone 0 none) := rfl

@[simp] theorem applyAll_nil (t : Tree) (caller : Caller) (index : Nat) :
    t.applyAll caller index [] = .ok ⟨t, [], []⟩ := rfl

@[simp] theorem unlinkAll_nil (t : Tree) : t.unlinkAll [] = (t, []) := rfl

end Tree

end KeyRegistry
