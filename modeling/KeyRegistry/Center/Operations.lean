import KeyRegistry.Dialogue
import KeyRegistry.Namespace
import KeyRegistry.Text.Utf8

/-!
# Operations on keys

The dialogues behind the operations of a center and of its session handle, for a
key that has been placed at the full path `full`.
-/

namespace KeyRegistry.Key

open Dialogue

def lift {α β : Type} (f : α → β) : Except ServiceError α → Except RegistryError β
  | .ok a => .ok (f a)
  | .error e => .error (.service e)

def read (full : String) : Dialogue (Except RegistryError (Option String)) := do
  match ← ask (.getData full) with
  | .ok (data, _) => return .ok (some (Text.Utf8.decodeLossy data))
  | .error (.noNode _) => return .ok none
  | .error e => return .error (.service e)

def readRaw (full : String) : Dialogue (Except RegistryError (Option (List UInt8 × Stat))) := do
  match ← ask (.getData full) with
  | .ok found => return .ok (some found)
  | .error (.noNode _) => return .ok none
  | .error e => return .error (.service e)

def childNames (full : String) : Dialogue (Except RegistryError (List String)) := do
  return lift id (← ask (.getChildren full))

def stat (full : String) : Dialogue (Except RegistryError (Option Stat)) := do
  return lift id (← ask (.stat full))

def countChildren (full : String) : Dialogue (Except RegistryError Nat) := do
  return lift (fun s => (s.map fun s => s.numChildren.toInt.toNat).getD 0) (← ask (.stat full))

def isPresent (full : String) : Dialogue (Except RegistryError Bool) := do
  return lift Option.isSome (← ask (.stat full))

/-- Writes over an existing node, in one transaction that requires it to exist. -/
def update (full : String) (value : List UInt8) : Dialogue (Except RegistryError Unit) := do
  return lift (fun _ => ()) (← ask (.commit [.check full none, .setData full value none]))

def persist (full : String) (value : List UInt8) : Dialogue (Except RegistryError Unit) := do
  match ← ask (.stat full) with
  | .error e => return .error (.service e)
  | .ok (some _) => update full value
  | .ok none =>
    match ← createWithParents full value .persistent with
    | .ok _ => return .ok ()
    | .error (.nodeExists _) =>
      tell (.nodeAppeared full)
      update full value
    | .error e => return .error (.service e)

/-- Creates an ephemeral node in place of whatever is there. -/
def persistEphemeral (full : String) (value : List UInt8) :
    Dialogue (Except RegistryError Unit) := do
  match ← ask (.stat full) with
  | .error e => return .error (.service e)
  | .ok none => return lift (fun _ => ()) (← createWithParents full value .ephemeralNode)
  | .ok (some _) =>
    match ← deleteRecursive full with
    | .error e => return .error (.service e)
    | .ok () => return lift (fun _ => ()) (← createWithParents full value .ephemeralNode)

/-- Creates a node, and yields its path as the consumer sees it. -/
def createShown (ns : Namespace) (full : String) (value : List UInt8) (mode : Mode) :
    Dialogue (Except RegistryError String) := do
  return lift ns.shown (← createWithParents full value mode)

def remove (full : String) : Dialogue (Except RegistryError Unit) := do
  return lift id (← deleteRecursive full)

def deleteVersion (full : String) (version : Int32) : Dialogue (Except RegistryError Unit) := do
  return lift id (← ask (.delete full (some version)))

def touched (full : String) : Dialogue (Except RegistryError Unit) := do
  match ← ask (.stat full) with
  | .error e => return .error (.service e)
  | .ok none => return .error (.service (.noNode full))
  | .ok (some _) => return .ok ()

/-- Child names in the order of their texts, which orders sequential nodes. -/
def sortedChildren (full : String) : Dialogue (Except RegistryError (List String)) := do
  return lift (fun names => names.mergeSort fun a b => a ≤ b) (← ask (.getChildren full))

end KeyRegistry.Key
