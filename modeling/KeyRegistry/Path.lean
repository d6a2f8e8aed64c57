import KeyRegistry.Text.Control

/-!
# Absolute node paths

A path is a text: the root is a lone separator, any other path is a sequence of
named segments, each behind a separator. `fault?` finds the first rule that a
text breaks. The other functions are defined on every text.
-/

namespace KeyRegistry.Path

def separator : Char := '/'

def root : String := "/"

inductive Fault
  | empty
  | notAbsolute
  | trailingSeparator
  | emptySegment
  | relativeSegment
  | controlCharacter
  deriving DecidableEq, Repr

def Fault.reason : Fault → String
  | .empty => "path must not be empty"
  | .notAbsolute => "path must start with '/'"
  | .trailingSeparator => "path must not end with '/'"
  | .emptySegment => "empty path segment"
  | .relativeSegment => "relative path segment"
  | .controlCharacter => "control character in path"

/-- The pieces between separators; a text without one is a single piece. -/
def pieces : List Char → List (List Char)
  | [] => [[]]
  | c :: r =>
    if c = separator then [] :: pieces r
    else match pieces r with
      | [] => [[c]]
      | p :: ps => (c :: p) :: ps

def segmentFault? (s : List Char) : Option Fault :=
  if s = [] then some .emptySegment
  else if s = ['.'] ∨ s = ['.', '.'] then some .relativeSegment
  else if s.any Text.isControl then some .controlCharacter
  else none

/-- The first rule that a text breaks as a path, segments being read from the top. -/
def fault? (p : String) : Option Fault :=
  match p.toList with
  | [] => some .empty
  | c :: r =>
    if c ≠ separator then some .notAbsolute
    else if r = [] then none
    else if r.getLast? = some separator then some .trailingSeparator
    else (pieces r).findSome? segmentFault?

def Valid (p : String) : Prop := fault? p = none

instance (p : String) : Decidable (Valid p) :=
  inferInstanceAs (Decidable (fault? p = none))

@[simp] theorem valid_root : Valid root := by decide

def join (parent child : String) : String :=
  if parent = root then root ++ child else parent ++ root ++ child

def beforeLast : List Char → Option (List Char)
  | [] => none
  | c :: r =>
    match beforeLast r with
    | some s => some (c :: s)
    | none => if c = separator then some [] else none

def afterLast : List Char → List Char
  | [] => []
  | c :: r =>
    if separator ∈ r then afterLast r
    else if c = separator then r
    else c :: r

/-- The path one segment up; the root has none, nor has a text without separator. -/
def parent? (p : String) : Option String :=
  if p = root then none
  else match beforeLast p.toList with
    | none => none
    | some [] => some root
    | some s => some (String.ofList s)

def nodeName (p : String) : String :=
  String.ofList (afterLast p.toList)

/-- What stands before each separator, shortest first. -/
def cuts : List Char → List (List Char)
  | [] => []
  | c :: r => (if c = separator then [[]] else []) ++ (cuts r).map (c :: ·)

/-- The proper ancestors below the root, from the top down. -/
def ancestors (p : String) : List String :=
  ((cuts p.toList).filter (· ≠ [])).map String.ofList

/-- Whether `p` is `top` or lies beneath it. -/
def isWithin (top p : String) : Bool :=
  if top = root then p.toList.head? == some separator
  else p == top || (top.toList ++ [separator]).isPrefixOf p.toList

theorem join_of_ne_root {parent : String} (h : parent ≠ root) (child : String) :
    join parent child = parent ++ root ++ child := by
  simp [join, h]

@[simp] theorem parent?_root : parent? root = none := by
  simp [parent?]

@[simp] theorem isWithin_self {p : String} (h : p ≠ root) : isWithin p p = true := by
  simp [isWithin, h]

end KeyRegistry.Path
