import KeyRegistry.Text.Digits

/-!
# Nodes

A node holds bytes, counters, the names of its children in creation order and
the rule of access to it. Counters are 32-bit words and wrap around.
-/

namespace KeyRegistry

/-- What is asked of a new node: to end with its session, to get a numbered name. -/
structure Mode where
  ephemeral : Bool
  sequential : Bool
  deriving DecidableEq, Repr

namespace Mode

def persistent : Mode := ⟨false, false⟩

def persistentSequential : Mode := ⟨false, true⟩

def ephemeralNode : Mode := ⟨true, false⟩

def ephemeralSequential : Mode := ⟨true, true⟩

def label (m : Mode) : String :=
  (if m.ephemeral then "EPHEMERAL" else "PERSISTENT") ++ if m.sequential then "_SEQUENTIAL" else ""

def all : List Mode := [persistent, persistentSequential, ephemeralNode, ephemeralSequential]

def ofLabel? (s : String) : Option Mode := all.find? fun m => m.label == s

theorem ofLabel?_label (m : Mode) : ofLabel? m.label = some m := by
  obtain ⟨e, s⟩ := m
  cases e <;> cases s <;> decide

end Mode

structure Stat where
  /-- The transaction that created the node. -/
  czxid : Nat
  /-- The transaction that last changed its data. -/
  mzxid : Nat
  version : Int32
  cversion : Int32
  /-- The session the node ends with, if it is ephemeral. -/
  owner : Option Nat
  dataLength : Int32
  numChildren : Int32
  deriving DecidableEq, Repr

/-- Who may read a node and change what lies directly under it. -/
inductive Acl
  | anyone
  | creator (identity : String)
  deriving DecidableEq, Repr

def Acl.permits (acl : Acl) (identity : Option String) : Bool :=
  match acl with
  | .anyone => true
  | .creator owner => identity == some owner

structure Caller where
  session : Nat
  identity : Option String
  deriving DecidableEq, Repr

def Caller.acl (c : Caller) : Acl :=
  match c.identity with
  | some identity => .creator identity
  | none => .anyone

/-- A length as a word, capped at the largest one. -/
def wordLength (data : List UInt8) : Int32 :=
  Int32.ofNat (min data.length 0x7fffffff)

structure Node where
  data : List UInt8
  stat : Stat
  children : List String
  acl : Acl
  deriving DecidableEq, Repr

def Node.new (data : List UInt8) (acl : Acl) (zxid : Nat) (owner : Option Nat) : Node where
  data := data
  stat := ⟨zxid, zxid, 0, 0, owner, wordLength data, 0⟩
  children := []
  acl := acl

/-- The number appended to a sequential name: ten places, the sign among them. -/
def sequenceSuffix (n : Int32) : String :=
  let m := n.toInt
  if 0 ≤ m then String.ofList (Text.lastDigits 10 m.toNat)
  else
    let ds := Nat.toDigits 10 m.natAbs
    String.ofList ('-' :: List.replicate (9 - ds.length) '0' ++ ds)

@[simp] theorem Acl.permits_anyone (identity : Option String) :
    Acl.anyone.permits identity = true := rfl

@[simp] theorem Node.children_new (data : List UInt8) (acl : Acl) (zxid : Nat)
    (owner : Option Nat) : (Node.new data acl zxid owner).children = [] := rfl

end KeyRegistry
