import KeyRegistry.Journal
import KeyRegistry.Json
import KeyRegistry.Text.Blank

/-!
# Lines of the journal

A notice is written as an object, or as one line of words for people.
-/

namespace KeyRegistry

namespace FieldValue

def toJson : FieldValue → Json
  | .text t | .quotable t => .str t
  | .int n => .int n
  | .bool b => .bool b

def toWords : FieldValue → String
  | .text t => t
  | .quotable t => Text.quoted t
  | .int n => toString n
  | .bool b => toString b

end FieldValue

namespace Notice

def fieldsJson (n : Notice) : List (String × Json) :=
  n.fields.map fun f => (f.1, f.2.toJson)

def object (n : Notice) (target : String) : Json :=
  .obj [("level", .str n.level.label), ("target", .str target),
    ("fields", .obj (("message", .str n.message) :: n.fieldsJson))]

def words (pending : List Char) : List Char → List (List Char)
  | [] => if pending = [] then [] else [pending.reverse]
  | c :: r =>
    if Text.isBlank c then (if pending = [] then words [] r else pending.reverse :: words [] r)
    else words (c :: pending) r

def line (n : Notice) (target : String) : String :=
  let fields := n.fields.map fun f => " " ++ f.1 ++ "=" ++ f.2.toWords
  let text := n.level.label ++ " " ++ target ++ ": " ++ n.message ++ String.join fields
  " ".intercalate ((words [] text.toList).map String.ofList)

end Notice

end KeyRegistry
