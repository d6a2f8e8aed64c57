import KeyRegistry.Decimal.Reading
import KeyRegistry.Json
import KeyRegistry.Text.Digits
import KeyRegistry.Yaml.Node

/-!
# Values of nodes

A plain scalar may be a number, a switch or nothing, and a tag may say which. An
alias stands for what its anchor marked before. A key is a text or a whole number
that no other key of its collection repeats.
-/

namespace KeyRegistry.Yaml

/-- What a node stands for. A scalar that does not fit its tag is a misfit, and so is an alias
within the node that it stands for. -/
inductive Meaning
  | misfit
  | value (v : Json)

def Meaning.toJson : Meaning → Json
  | .misfit => .null
  | .value v => v

/-! ## Scalars -/

/-- Digits of a base behind at most one sign. -/
def inBase? (base : Nat) (cs : List Char) : Option Int :=
  let (negative, ds) := Text.cutSign cs
  let value := fun c => (Text.hexDigit? c).getD base
  if ds ≠ [] ∧ ds.all fun c => value c < base then
    let n := Text.valueIn base value ds
    some (if negative then -(n : Int) else n)
  else none

def integer? (cs : List Char) : Option Int :=
  let n := match cs with
    | '0' :: 'x' :: r => inBase? 16 r
    | '0' :: 'o' :: r => inBase? 8 r
    | '+' :: r => Text.integer? r
    | _ => Text.integer? cs
  n.filter Text.isInWord

/-- The names that the format has for the values beyond all decimals. None of them is
readable as a float. -/
def isBeyond (t : String) : Bool :=
  [".inf", ".Inf", ".INF", "+.inf", "+.Inf", "+.INF", "-.inf", "-.Inf", "-.INF",
    ".nan", ".NAN"].contains t

/-- The float that a scalar stands for, if any. A scalar that names a value beyond all
decimals is one that cannot be read. -/
def real? (t : String) : Option (Option Json) :=
  if isBeyond t then none else some ((Decimal.float? t.toList).map Json.float)

def plainValue? (t : String) : Option Json :=
  match integer? t.toList with
  | some n => some (.int n)
  | none =>
    if t = "~" ∨ t = "null" then some .null
    else if t = "true" then some (.bool true)
    else if t = "false" then some (.bool false)
    else (real? t).map fun x => x.getD (.str t)

def taggedMeaning? (tag : Tag) (t : String) : Option Meaning :=
  let fitting := fun v : Option Json => v.elim Meaning.misfit .value
  if tag = ⟨coreTags, "bool"⟩ then
    some (if t = "true" then .value (.bool true)
      else if t = "false" then .value (.bool false) else .misfit)
  else if tag = ⟨coreTags, "int"⟩ then
    some (fitting (((Text.integer? t.toList).filter Text.isInWord).map Json.int))
  else if tag = ⟨coreTags, "float"⟩ then (real? t).map fitting
  else if tag = ⟨coreTags, "null"⟩ then
    some (if t = "~" ∨ t = "null" then .value .null else .misfit)
  else some (.value (.str t))

/-! ## Anchors -/

structure Anchors where
  names : List (String × Nat) := []
  marked : List (Nat × Meaning) := []

def Anchors.place (a : Anchors) (name : String) : Nat × Anchors :=
  (a.names.length, { a with names := (name, a.names.length) :: a.names })

def Anchors.mark (a : Anchors) (anchor : Nat) (m : Meaning) : Anchors :=
  { a with marked := (anchor, m) :: a.marked }

def Anchors.find? (a : Anchors) (name : String) : Option Meaning :=
  (a.names.lookup name).map fun anchor => (a.marked.lookup anchor).getD .misfit

/-! ## Members -/

/-- A key as what it is; a number and its text are two keys. -/
inductive Key
  | number (n : Int)
  | text (t : String)
  deriving DecidableEq, Repr

def Key.name : Key → String
  | .number n => toString n
  | .text t => t

def key? : Json → Option Key
  | .int n => some (.number n)
  | .str t => some (.text t)
  | _ => none

structure Members where
  read : List (Key × Json) := []
  waiting : Option Json := none

/-- The next key or value. In place of a misfit, what follows is the key. -/
def Members.push? (ms : Members) (m : Meaning) : Option Members :=
  match ms.waiting, m with
  | none, .misfit => some ms
  | none, .value v => some { ms with waiting := some v }
  | some k, m => do
    let key ← key? k
    if (ms.read.lookup key).isSome then none
    return ⟨(key, m.toJson) :: ms.read, none⟩

def Members.toJson (ms : Members) : Json :=
  .obj (ms.read.reverse.map fun m => (m.1.name, m.2))

/-! ## Nodes -/

mutual

def Node.meaning? (anchors : Anchors) : Node → Option (Meaning × Anchors)
  | .plain t => (plainValue? t).map fun v => (.value v, anchors)
  | .text t => some (.value (.str t), anchors)
  | .alias name => (anchors.find? name).map fun m => (m, anchors)
  | .anchored name node => do
    let (anchor, anchors) := anchors.place name
    let (m, anchors) ← node.meaning? anchors
    return (m, anchors.mark anchor m)
  | .tagged tag node =>
    match node with
    | .plain t => (taggedMeaning? tag t).map fun m => (m, anchors)
    | node => node.meaning? anchors
  | .list items => do
    let (vs, anchors) ← itemValues? anchors items
    return (.value (.arr vs), anchors)
  | .map members => do
    let (ms, anchors) ← memberValues? anchors {} members
    return (.value ms.toJson, anchors)

def itemValues? (anchors : Anchors) : List Node → Option (List Json × Anchors)
  | [] => some ([], anchors)
  | node :: r => do
    let (m, anchors) ← node.meaning? anchors
    let (vs, anchors) ← itemValues? anchors r
    return (m.toJson :: vs, anchors)

def memberValues? (anchors : Anchors) (ms : Members) :
    List (Node × Node) → Option (Members × Anchors)
  | [] => some (ms, anchors)
  | (key, node) :: r => do
    let (k, anchors) ← key.meaning? anchors
    let (v, anchors) ← node.meaning? anchors
    let ms ← ms.push? k
    memberValues? anchors (← ms.push? v) r

end

def Node.value? (node : Node) : Option Json :=
  (node.meaning? {}).map fun m => m.1.toJson

theorem Anchors.find?_mark_place (a : Anchors) (name : String) (m : Meaning) :
    ((a.place name).2.mark (a.place name).1 m).find? name = some m := by
  simp [Anchors.find?, Anchors.mark, Anchors.place]

end KeyRegistry.Yaml
