import KeyRegistry.Journal
import KeyRegistry.Json.Reader
import KeyRegistry.Settings.Source
import KeyRegistry.Toml.Reader
import KeyRegistry.Yaml.Document

/-!
# Loading settings

Settings come from one file, or from two files that need not exist and the
environment over both. The ending of a file's name tells its format. What has
been loaded is checked before it is used.
-/

namespace KeyRegistry.Settings

inductive Format
  | json
  | toml
  | yaml
  deriving DecidableEq, Repr

/-- The formats, each with an ending of file names, in the order in which files are looked for. -/
def endings : List (String × Format) :=
  [("json", .json), ("toml", .toml), ("yaml", .yaml), ("yml", .yaml)]

/-- The part of a file's name behind its last point, unless the name starts with that point. -/
def ending? (file : String) : Option String :=
  let name := (file.toList.reverse.takeWhile (· ≠ '/'))
  let (ending, start) := name.span (· ≠ '.')
  if start.length ≤ 1 then none else some (String.ofList ending.reverse)

def Format.ofFile? (file : String) : Option Format :=
  (ending? file).bind fun e => endings.lookup e

/-- A number above all signed words is a float. -/
def narrow : Json → Json
  | .int n => if n < Nat.pow 2 63 then .int n else .float (Decimal.nearest n.toNat 0)
  | v => v

def lastOfEach : List (String × Json) → List (String × Json)
  | [] => []
  | m :: r => if r.any fun n => n.1 == m.1 then lastOfEach r else m :: lastOfEach r

def byteOrderMark : Char := Char.ofNat 0xfeff

def unmarked (text : String) : String :=
  match text.toList with
  | c :: r => if c = byteOrderMark then String.ofList r else text
  | [] => text

/-- The members of a table at a text's root. Only one of the formats allows a byte order mark. -/
def Format.members? (f : Format) (text : String) : Option (List (String × Json)) :=
  match f with
  | .json =>
    match Json.ofText? text with
    | some (.obj members) => some ((lastOfEach members).map fun m => (m.1, narrow m.2))
    | _ => none
  | .toml => Toml.ofText? (unmarked text)
  | .yaml => Yaml.ofText? text

def readFile (f : Format) (text : String) : Except LoadFault Source :=
  match f.members? text with
  | some members => .ok ⟨members, false⟩
  | none => .error .malformed

def checked (sources : List Source) : Except RegistryError Settings := do
  let s ← (ofSources sources).mapError .load
  s.check
  return s

def ofFile (file : String) (text : Option String) : Except RegistryError Settings :=
  match text with
  | none => .error (.configuration s!"config file not found: {file}")
  | some text =>
    match Format.ofFile? file with
    | none => .error (.load .unknownFormat)
    | some f => do
      let source ← (readFile f text).mapError .load
      checked [source]

/-! ## Files that need not exist -/

abbrev Files := List (String × String)

/-- A file of that very name hides the files with an ending, and has no format itself. -/
def findFile (files : Files) (name : String) : Except LoadFault Source :=
  if (files.lookup name).isSome then .ok .empty
  else
    let found := endings.findSome? fun (e, f) =>
      (files.lookup (name ++ "." ++ e)).map fun t => (f, t)
    match found with
    | some (f, text) => readFile f text
    | none => .ok .empty

def standardFiles : List String := ["config/registry", "registry"]

def load (environment : Environment) (files : Files) : Except RegistryError Settings := do
  let sources ← (standardFiles.mapM (findFile files)).mapError .load
  checked (sources ++ [ofEnvironment environment])

def loadNotices : Except RegistryError Settings → List Notice
  | .ok s => [.settingsLoaded s.sanitizedText]
  | .error _ => []

end KeyRegistry.Settings
