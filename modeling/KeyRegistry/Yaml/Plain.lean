import KeyRegistry.Yaml.Placed

/-!
# Plain scalars

A plain scalar goes on to the next mark, over line ends too as long as the lines
are deep enough. A line end counts as one blank, and each empty line behind it as
a line end. Blanks around line ends do not count.
-/

namespace KeyRegistry.Yaml

/-! ## Folding -/

/-- A text and the gap behind it, both last character first. A gap is a run of blanks, or
line ends with a number of empty lines. -/
structure Folded where
  text : List Char := []
  blanks : List Char := []
  emptyLines : Option Nat := none

def joint (emptyLines : Nat) : List Char :=
  if emptyLines = 0 then [' '] else List.replicate emptyLines '\n'

def Folded.close (f : Folded) : Folded :=
  ⟨(f.emptyLines.elim f.blanks joint) ++ f.text, [], none⟩

def Folded.push (f : Folded) (c : Char) : Folded :=
  { f.close with text := c :: f.close.text }

def Folded.pushBlank (f : Folded) (c : Char) : Folded :=
  if f.emptyLines.isSome then f else { f with blanks := c :: f.blanks }

def Folded.pushBreak (f : Folded) : Folded :=
  { f with blanks := [], emptyLines := some (f.emptyLines.elim 0 (· + 1)) }

def Folded.toString (f : Folded) : String := String.ofList f.text.reverse

/-! ## Words -/

inductive Stretch
  | start
  | word
  | gap
  /-- Behind a tab where only indentation may stand. -/
  | tabbed
  | remark
  deriving DecidableEq

def stopsPlain (inFlow : Bool) (c after : Char) : Bool :=
  (c = ':' && (isGap after || (inFlow && isFlowMark after))) || (inFlow && isFlowMark c)

def endsBeforeWord (inFlow : Bool) (depth : Int) (ps : List Placed) : Bool :=
  (!inFlow && (column ps : Int) < depth) || isDocumentMark ps || nextChar ps = '#'

/-- Reads on with a plain scalar whose further lines begin at column `depth` or behind it. -/
def plainFrom? (inFlow : Bool) (depth : Int) (s : Stretch) (f : Folded) :
    List Placed → Option (Folded × List Placed)
  | [] => some (f, [])
  | p :: r =>
    if p.char = nul then some (f, p :: r)
    else if isBreak p.char then
      if s = .remark then plainFrom? inFlow depth .gap f r
      else plainFrom? inFlow depth .gap f.pushBreak r
    else if s = .remark then plainFrom? inFlow depth .remark f r
    else if isBlank p.char then
      if s = .tabbed ∨ (p.char = '\t' ∧ f.emptyLines.isSome ∧ (p.place.column : Int) < depth) then
        plainFrom? inFlow depth .tabbed f r
      else plainFrom? inFlow depth .gap (f.pushBlank p.char) r
    else if s = .tabbed then
      if p.char = '#' then plainFrom? inFlow depth .remark f r else none
    else if s = .gap ∧ endsBeforeWord inFlow depth (p :: r) then some (f, p :: r)
    else if s ≠ .word ∧ inFlow ∧ p.char = '-' ∧ isFlowMark (nextChar r) then none
    else if stopsPlain inFlow p.char (nextChar r) then some (f, p :: r)
    else plainFrom? inFlow depth .word (f.push p.char) r

def plain? (inFlow : Bool) (depth : Int) (ps : List Placed) :
    Option (String × Bool × List Placed) :=
  (plainFrom? inFlow depth .start {} ps).map fun (f, rest) =>
    (f.toString, f.emptyLines.isSome, rest)

end KeyRegistry.Yaml
