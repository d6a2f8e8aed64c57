/-!
# Placed characters

The characters of a text with their places. A line end of any kind is one
character. A text ends before its first NUL, and a NUL of its own marks the end,
so a place stands behind every character that is read.
-/

namespace KeyRegistry.Yaml

structure Place where
  index : Nat := 0
  line : Nat := 0
  column : Nat := 0
  deriving DecidableEq, Repr

def Place.right (p : Place) : Place := ⟨p.index + 1, p.line, p.column + 1⟩

def Place.nextLine (p : Place) : Place := ⟨p.index + 1, p.line + 1, 0⟩

/-! ## Classes of characters -/

def nul : Char := '\x00'

def isBlank (c : Char) : Bool := c = ' ' || c = '\t'

def isBreak (c : Char) : Bool := c = '\n'

def isLineEnd (c : Char) : Bool := isBreak c || c = nul

def isGap (c : Char) : Bool := isBlank c || isLineEnd c

def isFlowMark (c : Char) : Bool :=
  c = ',' || c = '[' || c = ']' || c = '\x7b' || c = '\x7d'

def isWordChar (c : Char) : Bool := c.isAlphanum || c = '_' || c = '-'

/-! ## Placing -/

/-- A character at its place; it is `fresh` if only blanks stand before it on its line. -/
structure Placed where
  char : Char
  place : Place
  fresh : Bool
  deriving DecidableEq, Repr

def placedFrom (p : Place) (fresh : Bool) : List Char → List Placed
  | [] => [⟨nul, p, fresh⟩]
  | '\r' :: '\n' :: r => ⟨'\n', p, fresh⟩ :: placedFrom p.nextLine true r
  | c :: r =>
    if c = nul then [⟨nul, p, fresh⟩]
    else if c = '\n' ∨ c = '\r' then ⟨'\n', p, fresh⟩ :: placedFrom p.nextLine true r
    else ⟨c, p, fresh⟩ :: placedFrom p.right (fresh && isBlank c) r

def placed (text : String) : List Placed := placedFrom {} true text.toList

/-- The next character; behind the last one it is the mark of the end. -/
def next : List Placed → Placed
  | [] => ⟨nul, {}, true⟩
  | p :: _ => p

def nextChar (ps : List Placed) : Char := (next ps).char

def column (ps : List Placed) : Nat := (next ps).place.column

def charsOf (ps : List Placed) : List Char := ps.map Placed.char

def textOf (ps : List Placed) : String := String.ofList (charsOf ps)

/-! ## Gaps and marks -/

/-- The blanks up to the next word of the line, and what follows them and a comment
behind them. A comment must have a blank before it. -/
def lineGap? (ps : List Placed) : Option (List Char × List Placed) :=
  let (blanks, rest) := ps.span fun p => isBlank p.char
  if nextChar rest = '#' then
    if blanks = [] then none
    else some (charsOf blanks, rest.dropWhile fun p => !isLineEnd p.char)
  else some (charsOf blanks, rest)

def startsWithThree (mark : Char) : List Placed → Bool
  | a :: b :: c :: r =>
    a.place.column == 0 && a.char == mark && b.char == mark && c.char == mark && isGap (nextChar r)
  | _ => false

def isDocumentMark (ps : List Placed) : Bool := startsWithThree '-' ps || startsWithThree '.' ps

@[simp] theorem lineGap?_nil : lineGap? [] = some ([], []) := rfl

end KeyRegistry.Yaml
