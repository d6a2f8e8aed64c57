import KeyRegistry.Text.Digits
import KeyRegistry.Yaml.Placed

/-!
# Scalars in lines of their own

Behind a header, the lines that are deep enough form a scalar: as they are, or
folded. The header may tell how deep, and what becomes of the line ends behind
the last line.
-/

namespace KeyRegistry.Yaml

inductive Chomping
  | strip
  | clip
  | keep
  deriving DecidableEq, Repr

structure Header where
  chomping : Chomping := .clip
  /-- How much deeper the lines are than what is around them, if it is told. -/
  increment : Option Nat := none

def chomping? (c : Char) : Option Chomping :=
  if c = '-' then some .strip else if c = '+' then some .keep else none

def increment? (ps : List Placed) : Option (Option Nat × List Placed) :=
  if nextChar ps = '0' then none
  else if Text.isDigit (nextChar ps) then
    some (some (Text.digitValue (nextChar ps)), ps.tail)
  else some (none, ps)

/-- The header behind its mark: the two indicators come in either order. -/
def header? (ps : List Placed) : Option (Header × List Placed) :=
  match chomping? (nextChar ps) with
  | some chomping => do
    let (increment, rest) ← increment? ps.tail
    return (⟨chomping, increment⟩, rest)
  | none => do
    let (increment, rest) ← increment? ps
    match increment, chomping? (nextChar rest) with
    | some _, some chomping => return (⟨chomping, increment⟩, rest.tail)
    | _, _ => return (⟨.clip, increment⟩, rest)

/-! ## Lines -/

/-- The lines so far. -/
structure Lines where
  /-- The text, last character first. -/
  text : List Char := []
  /-- Whether a line end is due behind the text. -/
  ended : Bool := false
  emptyLines : Nat := 0
  /-- Whether the last line begins with a blank. -/
  isSpaced : Bool := false

/-- What stands between two lines. Folding joins them, unless one begins with a blank. -/
def Lines.joint (s : Lines) (folds startsSpaced : Bool) : List Char :=
  let breaks := List.replicate s.emptyLines '\n'
  if folds && s.ended && !s.isSpaced && !startsSpaced then
    if s.emptyLines = 0 then [' '] else breaks
  else breaks ++ (if s.ended then ['\n'] else [])

def Lines.begin (s : Lines) (folds : Bool) (c : Char) : Lines :=
  { text := c :: s.joint folds (isBlank c) ++ s.text, isSpaced := isBlank c }

def isIndentation (depth : Nat) (p : Placed) : Bool := p.char = ' ' && p.place.column < depth

/-- Reads the lines at column `depth`; `inLine` says that a line has begun. A document mark ends
them. -/
def linesFrom (folds : Bool) (depth : Nat) (inLine : Bool) (s : Lines) :
    List Placed → Lines × List Placed
  | [] => (s, [])
  | p :: r =>
    if p.char = nul then (s, p :: r)
    else if inLine then
      if isBreak p.char then linesFrom folds depth false { s with ended := true } r
      else linesFrom folds depth true { s with text := p.char :: s.text } r
    else if isIndentation depth p then linesFrom folds depth false s r
    else if isBreak p.char then
      linesFrom folds depth false { s with emptyLines := s.emptyLines + 1 } r
    else if p.place.column = depth ∧ !isDocumentMark (p :: r) then
      linesFrom folds depth true (s.begin folds p.char) r
    else (s, p :: r)

/-- The depth of the lines if the header does not tell it: that of the first line, of the
deepest line without text before it, or one more than what is around. -/
def depthOf (around : Int) (ps : List Placed) : Nat :=
  let (gap, rest) := ps.span fun p => p.char = ' ' || isBreak p.char
  let columns := column rest :: (gap.filter fun p => isBreak p.char).map (·.place.column)
  let depth := columns.foldl max (around + 1).toNat
  if 0 < around then max depth 1 else depth

def emptyLines (depth : Nat) : List Placed → Nat × List Placed
  | [] => (0, [])
  | p :: r =>
    if isIndentation depth p then emptyLines depth r
    else if isBreak p.char then
      let (n, rest) := emptyLines depth r
      (n + 1, rest)
    else (0, p :: r)

def endedText (chomping : Chomping) (isOneLine : Bool) (emptyLines : Nat) : List Char :=
  if chomping = .strip ∨ isOneLine then []
  else if chomping = .clip ∨ emptyLines = 0 then ['\n']
  else List.replicate emptyLines '\n'

/-- The line ends behind the last line, last one first. An end of the text behind a line that
is deep enough counts as a line end. -/
def tailOf (chomping : Chomping) (depth : Nat) (s : Lines) (stop : Placed) : List Char :=
  if chomping = .strip then []
  else
    let kept := if chomping = .keep then List.replicate s.emptyLines '\n' else []
    let last := if stop.char = nul ∧ max depth 1 ≤ stop.place.column then ['\n'] else []
    kept ++ last ++ (if s.ended then ['\n'] else [])

/-- A scalar in lines of its own, whose mark begins it here, within a block at column
`around`; what follows it comes with it. -/
def literal? (around : Int) : List Placed → Option (String × List Placed)
  | [] => none
  | p :: r => do
    let folds := p.char = '>'
    let (header, rest) ← header? r
    let (_, rest) ← lineGap? rest
    if !isLineEnd (nextChar rest) then none
    let rest := if isBreak (nextChar rest) then rest.tail else rest
    if nextChar rest = '\t' then none
    let depth := match header.increment with
      | some n => if 0 ≤ around then (around + n).toNat else n
      | none => depthOf around rest
    let (n, rest) := emptyLines depth rest
    let first := next rest
    if first.char = nul then
      return (String.ofList (endedText header.chomping (first.place.line = p.place.line) n), rest)
    if first.place.column < depth ∧ around < (first.place.column : Int) then none
    let (s, rest) := linesFrom folds depth false { emptyLines := n } rest
    return (String.ofList (tailOf header.chomping depth s (next rest) ++ s.text).reverse, rest)

@[simp] theorem linesFrom_nil (folds : Bool) (depth : Nat) (inLine : Bool) (s : Lines) :
    linesFrom folds depth inLine s [] = (s, []) := rfl

end KeyRegistry.Yaml
