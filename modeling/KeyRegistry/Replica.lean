import KeyRegistry.Ensemble
import KeyRegistry.Shutdown

/-!
# Replicas

A replica holds copies of the nodes under its root. A copy is never replaced by
an older one of the same node, and a path is forgotten together with everything
beneath it. The worker that feeds a replica is described by what it is doing.
-/

namespace KeyRegistry

structure Entry where
  path : String
  data : List UInt8
  stat : Stat
  deriving DecidableEq, Repr

/-- Whether a copy gives way to another: not to an older copy of the same node. -/
def Entry.yieldsTo (old new : Entry) : Bool :=
  !(old.stat.czxid == new.stat.czxid && new.stat.mzxid < old.stat.mzxid)

inductive ReplicaPhase
  | latent
  | started
  | closed
  deriving DecidableEq, Repr

inductive Reading
  | untouched
  | data (hold : Hold)
  | dataRead (data : List UInt8) (stat : Stat)
  | children (data : List UInt8) (stat : Stat) (hold : Hold)
  /-- Absent and unreadable nodes yield nothing. -/
  | finished (found : Option (List UInt8 × Stat × List String))
  | failed (error : ServiceError)
  deriving DecidableEq, Repr

def Reading.isFinished : Reading → Bool
  | .finished _ => true
  | _ => false

def Reading.failure? : Reading → Option ServiceError
  | .failed error => some error
  | _ => none

def Reading.endsWait? (now : Nat) : Reading → Option Bool
  | .untouched | .dataRead .. => some false
  | .data hold | .children _ _ hold => if now < hold.due then none else some hold.waits
  | .finished _ | .failed _ => none

inductive Activity
  /-- Reading the nodes of one level, after `stored` nodes of the levels above. -/
  | filling (stored : Nat) (level : List (String × Reading))
  | listening
  | refreshing (path : String) (hold : Hold)
  | stopped
  deriving DecidableEq, Repr

structure Worker where
  ensemble : Nat
  session : Nat
  watch : Nat
  activity : Activity
  stopRequested : Bool
  cancelled : Bool
  deriving DecidableEq, Repr

structure Replica where
  root : String
  phase : ReplicaPhase := .latent
  entries : List Entry := []
  initialized : Bool := false
  worker : Option Worker := none
  deriving DecidableEq, Repr

namespace Replica

def get? (m : Replica) (p : String) : Option Entry :=
  m.entries.find? fun e => e.path == p

def storeIn (new : Entry) : List Entry → List Entry
  | [] => [new]
  | old :: rest =>
    if old.path = new.path then (if old.yieldsTo new then new else old) :: rest
    else old :: storeIn new rest

def store (m : Replica) (new : Entry) : Replica :=
  { m with entries := storeIn new m.entries }

def evict (m : Replica) (p : String) : Replica :=
  { m with entries := m.entries.filter fun e => !Path.isWithin p e.path }

/-- Creation order, and the order of names among nodes of one transaction number. -/
def bornBefore (a b : Entry) : Bool :=
  a.stat.czxid < b.stat.czxid ||
    (a.stat.czxid == b.stat.czxid && Path.nodeName a.path ≤ Path.nodeName b.path)

def children (m : Replica) (p : String) : List String :=
  ((m.entries.filter fun e => Path.parent? e.path == some p).mergeSort bornBefore).map
    fun e => Path.nodeName e.path

def isStopped (m : Replica) : Bool :=
  match m.worker with
  | some w => w.activity == .stopped
  | none => true

@[simp] theorem entries_store (m : Replica) (new : Entry) :
    (m.store new).entries = storeIn new m.entries := rfl

@[simp] theorem children_nil (m : Replica) (h : m.entries = []) (p : String) :
    m.children p = [] := by
  simp [children, h]

theorem get?_nil (m : Replica) (h : m.entries = []) (p : String) : m.get? p = none := by
  simp [get?, h]

end Replica

end KeyRegistry
