import KeyRegistry.Center.Strict

/-!
# The lenient surface

A lenient center hides failures. A read answers as if nothing were there, a write answers
nothing, and the failure is tallied and noted. Only a start may fail, and only
on a local mistake.
-/

namespace KeyRegistry

structure LenientCenter where
  center : Nat
  tally : Nat
  deriving DecidableEq, Repr

namespace LenientCenter

variable {α β : Type}

/-- Runs a strict operation, with `sentinel` as the answer if it fails. -/
def absorb (l : LenientCenter) (operation key : String) (sentinel : β) (f : α → β)
    (t : Task (Except RegistryError α)) : Task β := do
  match ← t with
  | .ok a => return f a
  | .error e =>
    Task.change fun w => w.absorb l.tally operation key e
    return sentinel

def start (l : LenientCenter) (draws : Nat → Nat) : Task (Except RegistryError Unit) := do
  match ← Center.start l.center draws with
  | .ok () => return .ok ()
  | .error e =>
    if e.isConfiguration then return .error e
    else
      Task.change fun w => w.absorb l.tally "init" (w.settings l.center).serverLists e
      return .ok ()

def stop (l : LenientCenter) : Task Unit := do
  let _ ← Center.stop l.center

def get (l : LenientCenter) (key : String) : Task (Option String) :=
  l.absorb "get" key none id (Center.get l.center key)

def getDirectly (l : LenientCenter) (key : String) : Task (Option String) :=
  l.absorb "get_directly" key none id (Center.getDirectly l.center key)

def childNames (l : LenientCenter) (key : String) : Task (List String) :=
  l.absorb "get_children_keys" key [] id (Center.childNames l.center key)

def countChildren (l : LenientCenter) (key : String) : Task Nat :=
  l.absorb "get_num_children" key 0 id (Center.countChildren l.center key)

def isPresent (l : LenientCenter) (key : String) : Task Bool :=
  l.absorb "is_existed" key false id (Center.isPresent l.center key)

def persist (l : LenientCenter) (key value : String) : Task Unit :=
  l.absorb "persist" key () id (Center.persist l.center key value)

def update (l : LenientCenter) (key value : String) : Task Unit :=
  l.absorb "update" key () id (Center.update l.center key value)

def persistEphemeral (l : LenientCenter) (key value : String) : Task Unit :=
  l.absorb "persist_ephemeral" key () id (Center.persistEphemeral l.center key value)

def persistEphemeralSequential (l : LenientCenter) (key : String) : Task Unit :=
  l.absorb "persist_ephemeral_sequential" key () (fun _ => ())
    (Center.persistEphemeralSequential l.center key)

def remove (l : LenientCenter) (key : String) : Task Unit :=
  l.absorb "remove" key () id (Center.remove l.center key)

def time (l : LenientCenter) (key : String) : Task Bool :=
  l.absorb "get_registry_center_time" key false (fun _ => true) (Center.time l.center key)

def clearInterrupted (l : LenientCenter) : Task Bool :=
  Task.perform fun w =>
    (((w.tallies[l.tally]?).map Tally.isInterrupted).getD false,
      { w with tallies := w.tallies.modify l.tally Tally.clear })

end LenientCenter

end KeyRegistry
