import KeyRegistry.Decimal.Magnitude
import KeyRegistry.Decimal.Shortest
import KeyRegistry.Settings.Field
import KeyRegistry.Text.Digits
import KeyRegistry.Text.SmallForm

/-!
# Coercion of values to fields

A file or the environment may give a field a value of another type, and most
such values have a counterpart of the field's own: numbers and switches as text,
text as numbers and switches, fractions rounded.
-/

namespace KeyRegistry.Settings

inductive Refusal
  | wrongType (found expected : String)
  | outOfRange
  deriving DecidableEq, Repr

def describe : Json → String
  | .null => "unit value"
  | .bool b => s!"boolean `{b}`"
  | .int n => s!"64-bit integer `{n}`"
  | .float x => s!"floating point `{String.ofList (Decimal.text x)}`"
  | .str t => s!"string {Text.quoted t}"
  | .arr _ => "sequence"
  | .obj _ => "map"

def refuse (v : Json) (expected : String) : Except Refusal α :=
  .error (.wrongType (describe v) expected)

def switch? (small : String) : Option Bool :=
  if small = "true" ∨ small = "on" ∨ small = "yes" then some true
  else if small = "false" ∨ small = "off" ∨ small = "no" then some false
  else none

/-- A count in words or digits; a plus sign may stand before the digits. -/
def countOfText? (t : String) : Option Nat :=
  match switch? (Text.toSmall t) with
  | some b => some b.toNat
  | none =>
    let digits := match t.toList with
      | '+' :: r => r
      | r => r
    match Text.natural? digits with
    | some n => if n ≤ largestWord then some n else none
    | none => none

def toCount (v : Json) : Except Refusal Nat :=
  match v with
  | .int n =>
    if 0 ≤ n then .ok n.toNat else refuse v "an unsigned 64 bit or less integer"
  | .bool b => .ok b.toNat
  | .float x => .ok (Decimal.roundWithin largestWord x)
  | .str t =>
    match countOfText? t with
    | some n => .ok n
    | none => refuse v "an integer"
  | _ => refuse v "an integer"

def toFlag (v : Json) : Except Refusal Bool :=
  match v with
  | .bool b => .ok b
  | .int n => .ok (n ≠ 0)
  | .float x => .ok (Decimal.isNonzero x)
  | .str t =>
    let small := Text.toSmall t
    if small = "1" then .ok true
    else if small = "0" then .ok false
    else match switch? small with
      | some b => .ok b
      | none => refuse (.str small) "a boolean"
  | _ => refuse v "a boolean"

def toText (v : Json) : Except Refusal String :=
  match v with
  | .str t => .ok t
  | .bool b => .ok (toString b)
  | .int n => .ok (toString n)
  | .float x => .ok (String.ofList (Decimal.text x))
  | _ => refuse v "a string"

def Slot.coerce (s : Settings) (v : Json) : Slot → Except Refusal Settings
  | .text put => (toText v).map (put s)
  | .optionalText put =>
    match v with
    | .null => .ok (put s none)
    | _ => (toText v).map fun t => put s (some t)
  | .count limit put => do
    let n ← toCount v
    if n ≤ limit then return put s n else throw .outOfRange
  | .flag put => (toFlag v).map (put s)

end KeyRegistry.Settings
