import KeyRegistry.Center.Lifecycle
import KeyRegistry.Center.Operations

/-!
# The strict surface

Every operation of a center that is not started fails. A key is placed in the
namespace before the service is asked.
-/

namespace KeyRegistry.Center

variable {α : Type}

/-- What a center works with, and where it places a key. -/
def place (w : World) (c : Nat) (key : String) : Except RegistryError (Active × String) :=
  match w.active? c with
  | none => .error .notStarted
  | some active =>
    match active.scope.resolve key with
    | .error fault => .error (.ofPathFault key fault)
    | .ok full => .ok (active, full)

def onKey (c : Nat) (key : String)
    (d : Active → String → Dialogue (Except RegistryError α)) : Task (Except RegistryError α) := do
  match ← Task.look fun w => place w c key with
  | .error e => return .error e
  | .ok (active, full) => Task.say active.session (d active full)

/-- The replicated text of a key, or else its text at the service. -/
def get (c : Nat) (key : String) : Task (Except RegistryError (Option String)) := do
  match ← Task.look fun w => place w c key with
  | .error e => return .error e
  | .ok (active, full) =>
    match ← Task.look fun w => (w.replica? active.replica).bind fun m => m.get? full with
    | some entry => return .ok (some (Text.Utf8.decodeLossy entry.data))
    | none => Task.say active.session (Key.read full)

def getDirectly (c : Nat) (key : String) : Task (Except RegistryError (Option String)) :=
  onKey c key fun _ full => Key.read full

def childNames (c : Nat) (key : String) : Task (Except RegistryError (List String)) :=
  onKey c key fun _ full => Key.childNames full

def countChildren (c : Nat) (key : String) : Task (Except RegistryError Nat) :=
  onKey c key fun _ full => Key.countChildren full

def isPresent (c : Nat) (key : String) : Task (Except RegistryError Bool) :=
  onKey c key fun _ full => Key.isPresent full

def persist (c : Nat) (key value : String) : Task (Except RegistryError Unit) :=
  onKey c key fun _ full => Key.persist full (Text.Utf8.encode value)

def update (c : Nat) (key value : String) : Task (Except RegistryError Unit) :=
  onKey c key fun _ full => Key.update full (Text.Utf8.encode value)

def persistEphemeral (c : Nat) (key value : String) : Task (Except RegistryError Unit) :=
  onKey c key fun _ full => Key.persistEphemeral full (Text.Utf8.encode value)

def persistEphemeralSequential (c : Nat) (key : String) : Task (Except RegistryError String) :=
  onKey c key fun active full => Key.createShown active.scope full [] .ephemeralSequential

def persistSequential (c : Nat) (key value : String) : Task (Except RegistryError String) :=
  onKey c key fun active full =>
    Key.createShown active.scope full (Text.Utf8.encode value) .persistentSequential

def remove (c : Nat) (key : String) : Task (Except RegistryError Unit) :=
  onKey c key fun _ full => Key.remove full

/-- Touches a key to learn the time of the service; the time itself is not kept. -/
def time (c : Nat) (key : String) : Task (Except RegistryError Unit) := do
  match ← persist c key "" with
  | .error e => return .error e
  | .ok () => onKey c key fun _ full => Key.touched full

end KeyRegistry.Center
