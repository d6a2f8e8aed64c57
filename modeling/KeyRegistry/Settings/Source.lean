import KeyRegistry.Decimal.Reading
import KeyRegistry.Environment
import KeyRegistry.Settings.Coercion

/-!
# Sources of settings

A source gives values to keys. Sources are laid over one another field by field,
a later value in place of an earlier one. A key whose small form is a field's
name belongs to the field, and so does one that walks on from the name into the
value; a value with parts is then all that the field can see.
-/

namespace KeyRegistry.Settings

structure Source where
  members : List (String × Json)
  isEnvironment : Bool
  deriving Inhabited

def Source.empty : Source := ⟨[], false⟩

/-- A field's value, and whether it stands in the environment as it is. -/
structure Given where
  value : Json
  fromEnvironment : Bool

/-! ## Keys -/

inductive Walk
  | step
  | point
  | name
  | bracket
  | minus
  | digits (isNegative : Bool) (n : Nat)
  | closing (isNegative : Bool) (n : Nat)
  deriving DecidableEq

def isNameChar (c : Char) : Bool := c.isAlphanum || c = '_' || c = '-' || c = ' '

def Walk.close? (isNegative : Bool) (n : Nat) : Option Walk :=
  if Text.isInWord (if isNegative then -(n : Int) else n) then some .step else none

/-- A step is a point and a name, or a position in brackets with blanks around it. -/
def Walk.push (w : Walk) (c : Char) : Option Walk :=
  let opening := if c = '.' then some Walk.point else if c = '[' then some .bracket else none
  let isGap := c = ' ' || c = '\t'
  match w with
  | .step => opening
  | .point => if isNameChar c then some .name else none
  | .name => if isNameChar c then some .name else opening
  | .bracket =>
    if isGap then some .bracket
    else if c = '-' then some .minus
    else if c.isDigit then some (.digits false (Text.digitValue c))
    else none
  | .minus => if c.isDigit then some (.digits true (Text.digitValue c)) else none
  | .digits isNegative n =>
    if c.isDigit then some (.digits isNegative (n * 10 + Text.digitValue c))
    else if isGap then some (.closing isNegative n)
    else if c = ']' then close? isNegative n
    else none
  | .closing isNegative n =>
    if isGap then some (.closing isNegative n)
    else if c = ']' then close? isNegative n
    else none

/-- Whether a text, which is not empty, consists of steps into a value. -/
def isWalk (cs : List Char) : Bool :=
  match cs.foldlM Walk.push .step with
  | some .step | some .name => cs ≠ []
  | _ => false

def Source.offer? (s : Source) (field : String) (m : String × Json) : Option Given :=
  let key := (Text.toSmall m.1).toList
  let name := field.toList
  if key = name then some ⟨m.2, s.isEnvironment⟩
  else if name.isPrefixOf key ∧ isWalk (key.drop name.length) then some ⟨.arr [m.2], false⟩
  else none

/-! ## Layers -/

/-- An object without members adds nothing to a value that is there. -/
def supersede (old : Option Given) (new : Given) : Option Given :=
  match old, new.value with
  | some g, .obj [] => some g
  | _, _ => some new

def given? (sources : List Source) (field : String) : Option Given :=
  (sources.flatMap fun s => s.members.filterMap (s.offer? field)).foldl supersede none

def Refusal.toFault (field : String) (fromEnvironment : Bool) : Refusal → LoadFault
  | .wrongType found expected => .wrongType found expected field fromEnvironment
  | .outOfRange => .outOfRange field

/-- The settings that sources give, the last one foremost. -/
def ofSources (sources : List Source) : Except LoadFault Settings :=
  fields.foldlM (fun s f =>
    match given? sources f.name with
    | none => .ok s
    | some g => (f.slot.coerce s g.value).mapError (Refusal.toFault f.name g.fromEnvironment)) {}

/-! ## The environment -/

def variableMark : String := "tasker_registry_"

def ofVariable (text : String) : Json :=
  let small := Text.toSmall text
  if small = "true" then .bool true
  else if small = "false" then .bool false
  else
    let asFloat := match Decimal.float? text.toList with
      | some x => Json.float x
      | none => .str text
    match Text.integer? text.toList with
    | some n => if Text.isInWord n then .int n else asFloat
    | none => asFloat

def ofEnvironment (e : Environment) : Source :=
  let member := fun (v : String × String) =>
    let name := (Text.toSmall v.1).toList
    if variableMark.toList.isPrefixOf name then
      some (String.ofList (name.drop variableMark.length), ofVariable v.2)
    else none
  ⟨e.filterMap member, true⟩

@[simp] theorem given?_nil (field : String) : given? [] field = none := rfl

end KeyRegistry.Settings
