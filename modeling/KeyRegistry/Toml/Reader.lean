import KeyRegistry.Toml.Scalar
import KeyRegistry.Toml.Table
import KeyRegistry.Toml.Text

/-!
# Reading table files

A document is a sequence of lines: headers, and keys with values. Only texts
between threefold quotes and arrays go on over line ends. Every step of the
reader takes at least one character, so the length of the text bounds the steps.
-/

namespace KeyRegistry.Toml

/-! ## Gaps -/

def skipGaps (cs : List Char) : List Char := cs.dropWhile isGap

def skipBlanks? (inComment : Bool) : List Char → Option (List Char)
  | [] => some []
  | c :: r =>
    if c = '\n' then skipBlanks? false r
    else if inComment then (if isPlain c then skipBlanks? true r else none)
    else if isGap c then skipBlanks? false r
    else if c = '#' then skipBlanks? true r
    else some (c :: r)

def endLine? (cs : List Char) : Option (List Char) :=
  match skipGaps cs with
  | [] => some []
  | '\n' :: r => some r
  | '#' :: r =>
    let (comment, rest) := r.span (· ≠ '\n')
    if comment.all isPlain then some (rest.drop 1) else none
  | _ => none

/-! ## Keys -/

def isBare (c : Char) : Bool := c.isAlphanum || c = '_' || c = '-'

def name? : List Char → Option (String × List Char)
  | '"' :: r => lineText? '"' r
  | '\'' :: r => lineText? '\'' r
  | cs =>
    let (bare, rest) := cs.span isBare
    if bare = [] then none else some (String.ofList bare, rest)

/-- How many arrays and tables within a line may stand in one another, and names in a key. -/
def deepest : Nat := 79

/-- At most so many names with points between them. -/
def names? : Nat → List Char → Option (List String × String × List Char)
  | 0, _ => none
  | left + 1, cs => do
    let (name, rest) ← name? (skipGaps cs)
    match skipGaps rest with
    | '.' :: r =>
      let (path, last, rest) ← names? left r
      return (name :: path, last, rest)
    | rest => return ([], name, rest)

/-- The names of a key: all but the last, the last, and the rest. -/
def key? (cs : List Char) : Option (List String × String × List Char) := names? deepest cs

/-! ## Values -/

def text? (quote : Char) (cs : List Char) : Option (Json × List Char) := do
  let (t, rest) ←
    if isTriple quote cs then wideText? quote (cs.drop 3) else lineText? quote (cs.drop 1)
  return (.str t, rest)

mutual

/-- A value in which at most `depth` arrays and tables stand in one another. -/
def value? : Nat → Nat → List Char → Option (Json × List Char)
  | 0, _, _ => none
  | steps + 1, depth, cs =>
    match cs with
    | '"' :: _ => text? '"' cs
    | '\'' :: _ => text? '\'' cs
    | '[' :: r =>
      match depth with
      | 0 => none
      | depth + 1 => do items? steps depth [] (← skipBlanks? false r)
    | '\x7b' :: r =>
      match depth, skipGaps r with
      | 0, _ => none
      | _ + 1, '\x7d' :: rest => some (.obj [], rest)
      | depth + 1, r => do
        let (es, rest) ← members? steps depth [] r
        return (.obj (membersOf es), rest)
    | _ => do
      let (word, rest) := cutWord cs
      let v ← wordValue? word
      return (v, rest)

def items? : Nat → Nat → List Json → List Char → Option (Json × List Char)
  | 0, _, _, _ => none
  | _ + 1, _, read, ']' :: rest => some (.arr read.reverse, rest)
  | steps + 1, depth, read, cs => do
    let (v, r) ← value? steps depth cs
    match ← skipBlanks? false r with
    | ',' :: r => items? steps depth (v :: read) (← skipBlanks? false r)
    | ']' :: rest => some (.arr (v :: read).reverse, rest)
    | _ => none

def members? : Nat → Nat → Entries → List Char → Option (Entries × List Char)
  | 0, _, _, _ => none
  | steps + 1, depth, read, cs => do
    let (path, name, r) ← key? cs
    let (v, r) ← value? steps depth (skipGaps (← skip? '=' r))
    let es ← define path name v .header read
    match skipGaps r with
    | ',' :: r => members? steps depth es r
    | '\x7d' :: rest => some (es, rest)
    | _ => none

end

/-! ## Documents -/

/-- What has been read, and the header whose table takes the next keys. -/
structure Document where
  entries : Entries
  header : List String

def Document.openAt (d : Document) (path : List String) (name : String)
    (f : String → Entries → Option Entries) : Option Document := do
  let es ← change false (fun _ es => f name es) path .header d.entries
  return ⟨es, path ++ [name]⟩

def Document.line? (d : Document) (steps : Nat) (cs : List Char) : Option (Document × List Char) :=
  match skipGaps cs with
  | '[' :: '[' :: r => do
    let (path, name, r) ← key? r
    let rest ← endLine? (← skip? ']' (← skip? ']' r))
    return (← d.openAt path name addTable, rest)
  | '[' :: r => do
    let (path, name, r) ← key? r
    let rest ← endLine? (← skip? ']' r)
    return (← d.openAt path name openTable, rest)
  | '#' :: r => do return (d, ← endLine? ('#' :: r))
  | '\n' :: r => some (d, r)
  | [] => some (d, [])
  | r => do
    let (path, name, r) ← key? r
    let (v, r) ← value? steps deepest (skipGaps (← skip? '=' r))
    let rest ← endLine? r
    let es ← change false (define path name v) d.header .header d.entries
    return (⟨es, d.header⟩, rest)

def Document.lines? : Nat → Document → List Char → Option Document
  | _, d, [] => some d
  | 0, _, _ => none
  | steps + 1, d, cs => do
    let (d, rest) ← d.line? (steps + 1) cs
    d.lines? steps rest

def ofText? (text : String) : Option (List (String × Json)) := do
  let cs := plainEnds text.toList
  let d ← Document.lines? (cs.length + 1) ⟨[], []⟩ cs
  return membersOf d.entries

end KeyRegistry.Toml
