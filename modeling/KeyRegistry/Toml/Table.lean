import KeyRegistry.Json

/-!
# Tables under construction

A table comes into being by a header of its own, as a step of a longer header,
or as a step of a dotted key, and that decides what may still be added to it.
A name stands for one thing only.
-/

namespace KeyRegistry.Toml

inductive Origin
  | header
  | passed
  | dotted
  deriving DecidableEq

/-- What a name stands for; of a list of tables the last one comes first. -/
inductive Item
  | value (v : Json)
  | table (origin : Origin) (entries : List (String × Item))
  | tables (all : List (List (String × Item)))

abbrev Entries := List (String × Item)

def put (name : String) (item : Item) : Entries → Entries
  | [] => [(name, item)]
  | (k, old) :: r => if k = name then (k, item) :: r else (k, old) :: put name item r

/-- Changes the table at the end of a path, and makes the tables on the way that
are missing. Of a list of tables the last one is changed; else a dotted key enters no table
with a header. -/
def change (isDotted : Bool) (f : Origin → Entries → Option Entries) :
    List String → Origin → Entries → Option Entries
  | [], o, es => f o es
  | k :: path, _, es =>
    match es.lookup k with
    | none =>
      let o := if isDotted then Origin.dotted else .passed
      (change isDotted f path o []).map fun inner => put k (.table o inner) es
    | some (.table o inner) =>
      if isDotted ∧ o = .header then none
      else (change isDotted f path o inner).map fun inner => put k (.table o inner) es
    | some (.tables (last :: before)) =>
      (change isDotted f path .header last).map fun last => put k (.tables (last :: before)) es
    | some _ => none

/-- Gives a new name a value. The table of a dotted key must itself be a dotted
one, and no other table may be. -/
def define (path : List String) (name : String) (v : Json) (o : Origin) (es : Entries) :
    Option Entries :=
  change true (fun o es =>
    if (o = .dotted) = (path = []) ∨ (es.lookup name).isSome then none
    else some (put name (.value v) es)) path o es

def openTable (name : String) (es : Entries) : Option Entries :=
  match es.lookup name with
  | none => some (put name (.table .header []) es)
  | some (.table .passed inner) => some (put name (.table .header inner) es)
  | some _ => none

def addTable (name : String) (es : Entries) : Option Entries :=
  match es.lookup name with
  | none => some (put name (.tables [[]]) es)
  | some (.tables all) => some (put name (.tables ([] :: all)) es)
  | some _ => none

mutual

def Item.toJson : Item → Json
  | .value v => v
  | .table _ es => .obj (membersOf es)
  | .tables all => .arr (listOf all)

def membersOf : List (String × Item) → List (String × Json)
  | [] => []
  | (k, item) :: r => (k, item.toJson) :: membersOf r

def listOf : List (List (String × Item)) → List Json
  | [] => []
  | es :: r => listOf r ++ [.obj (membersOf es)]

end

@[simp] theorem membersOf_nil : membersOf [] = [] := rfl

end KeyRegistry.Toml
