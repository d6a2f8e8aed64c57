import KeyRegistry.Dialogue
import KeyRegistry.Host
import KeyRegistry.Namespace
import KeyRegistry.Properties
import KeyRegistry.Text.Utf8

/-!
# Seeds

A seed is a list of keys and values read from a properties file. Applied to a
namespace it adds the keys that are absent; a key that is present gets the
seed's value if its own is empty, or if the seed is to overwrite.
-/

namespace KeyRegistry

structure Seed where
  source : String
  entries : List (String × String)
  deriving DecidableEq, Repr

/-- How many entries of a seed were added, written over and left alone. -/
structure SeedReport where
  created : Nat := 0
  overwritten : Nat := 0
  kept : Nat := 0
  deriving DecidableEq, Repr

namespace Seed

/-- A key as a path; a key without separator in front is placed under the root. -/
def rooted (key : String) : String :=
  if key.toList.head? = some Path.separator then key else Path.root ++ key

def rootedEntry (e : String × String) : Except RegistryError (String × String) :=
  match Path.fault? (rooted e.1) with
  | some fault => .error (.ofPathFault (rooted e.1) fault)
  | none => .ok (rooted e.1, e.2)

def ofBytes (source : String) (bytes : List UInt8) : Except RegistryError Seed := do
  let some text := Text.Utf8.decode? bytes
    | throw (.seedUnreadable source "stream did not contain valid UTF-8")
  let parsed ← (Properties.parse text).mapError fun f => .seedUnreadable source f.message
  return ⟨source, ← parsed.mapM rootedEntry⟩

def load (source : String) : Except FileFault (List UInt8) → Except RegistryError Seed
  | .ok bytes => ofBytes source bytes
  | .error .absent => .error (.seedNotFound source)
  | .error fault => .error (.seedUnreadable source fault.reason)

def applyEntry (full value : String) (overwrite : Bool) (report : SeedReport) :
    Dialogue (Except ServiceError SeedReport) := do
  match ← Dialogue.ask (.stat full) with
  | .error e => return .error e
  | .ok none =>
    match ← Dialogue.createWithParents full (Text.Utf8.encode value) .persistent with
    | .ok _ => return .ok { report with created := report.created + 1 }
    | .error (.nodeExists _) => return .ok { report with kept := report.kept + 1 }
    | .error e => return .error e
  | .ok (some stat) =>
    if overwrite || stat.dataLength == 0 then
      match ← Dialogue.ask (.setData full (Text.Utf8.encode value) none) with
      | .ok _ => return .ok { report with overwritten := report.overwritten + 1 }
      | .error e => return .error e
    else return .ok { report with kept := report.kept + 1 }

def applyEntries (ns : Namespace) (overwrite : Bool) (report : SeedReport) :
    List (String × String) → Dialogue (Except RegistryError SeedReport)
  | [] => .done (.ok report)
  | (key, value) :: rest =>
    match ns.resolve key with
    | .error fault => .done (.error (.ofPathFault key fault))
    | .ok full => do
      match ← applyEntry full value overwrite report with
      | .ok report => applyEntries ns overwrite report rest
      | .error e => return .error (.service e)

def apply (seed : Seed) (ns : Namespace) (overwrite : Bool) :
    Dialogue (Except RegistryError SeedReport) := do
  match ← applyEntries ns overwrite {} seed.entries with
  | .error e => return .error e
  | .ok report =>
    Dialogue.tell (.seedApplied seed.source ns.root report.created report.overwritten report.kept)
    return .ok report

end Seed

end KeyRegistry
