import KeyRegistry.Center.Strict

/-!
# Handles

A center gives out its session and its replica, both confined to its namespace.
A handle stays with the session or the replica it was given.
-/

namespace KeyRegistry

structure SessionHandle where
  session : SessionId
  scope : Namespace
  deriving DecidableEq, Repr

structure ReplicaHandle where
  replica : Nat
  scope : Namespace
  deriving DecidableEq, Repr

namespace Center

def sessionHandle (w : World) (c : Nat) : Except RegistryError SessionHandle :=
  match w.active? c with
  | some active => .ok ⟨active.session, active.scope⟩
  | none => .error .notStarted

def replicaHandle (w : World) (c : Nat) : Except RegistryError ReplicaHandle :=
  match w.active? c with
  | some active => .ok ⟨active.replica, active.scope⟩
  | none => .error .notStarted

end Center

namespace SessionHandle

variable {α : Type}

def onKey (h : SessionHandle) (key : String) (d : String → Dialogue (Except RegistryError α)) :
    Task (Except RegistryError α) :=
  match h.scope.resolve key with
  | .error fault => pure (.error (.ofPathFault key fault))
  | .ok full => Task.say h.session (d full)

/-- Creates a key with its missing parents, and yields the key it got. -/
def create (h : SessionHandle) (key : String) (data : List UInt8) (mode : Mode) :
    Task (Except RegistryError String) :=
  h.onKey key fun full => Key.createShown h.scope full data mode

def stat (h : SessionHandle) (key : String) : Task (Except RegistryError (Option Stat)) :=
  h.onKey key Key.stat

def data (h : SessionHandle) (key : String) :
    Task (Except RegistryError (Option (List UInt8 × Stat))) :=
  h.onKey key Key.readRaw

def children (h : SessionHandle) (key : String) : Task (Except RegistryError (List String)) :=
  h.onKey key Key.sortedChildren

def delete (h : SessionHandle) (key : String) : Task (Except RegistryError Unit) :=
  h.onKey key Key.remove

def deleteVersion (h : SessionHandle) (key : String) (version : Int32) :
    Task (Except RegistryError Unit) :=
  h.onKey key fun full => Key.deleteVersion full version

end SessionHandle

namespace ReplicaHandle

def entry (h : ReplicaHandle) (w : World) (key : String) : Except RegistryError (Option Entry) :=
  match h.scope.resolve key with
  | .error fault => .error (.ofPathFault key fault)
  | .ok full => .ok ((w.replica? h.replica).bind fun m => m.get? full)

def children (h : ReplicaHandle) (w : World) (key : String) : Except RegistryError (List String) :=
  match h.scope.resolve key with
  | .error fault => .error (.ofPathFault key fault)
  | .ok full => .ok (((w.replica? h.replica).map fun m => m.children full).getD [])

end ReplicaHandle

end KeyRegistry
