import KeyRegistry.Yaml.Literal
import KeyRegistry.Yaml.Property
import KeyRegistry.Yaml.Quoted

/-!
# Layout

The tokens of a text, with those that no character stands for: the starts and
ends of collections that indentation shows, and the keys that only the colon
behind them tells. A place where a key may have begun is kept as a candidate
until a colon turns it into a key. A key outside of brackets stands on one line
and is not longer than 1024 characters.
-/

namespace KeyRegistry.Yaml

/-- An indentation that ends with what it is for: a block, or the inside of one item. -/
structure Indent where
  outer : Int
  isBlock : Bool

/-- Where a key may have begun, and how many tokens stand before it. -/
structure Candidate where
  place : Place
  number : Nat
  isRequired : Bool

/-- What has been read, last token first, and what the next token depends on. -/
structure Layout where
  rest : List Placed
  tokens : List Token := []
  /-- Whether the last token is a property in the first column. -/
  isAtEdge : Bool := false
  mayStartKey : Bool := true
  /-- The candidates, those of inner brackets first. -/
  candidates : List (Option Candidate) := [none]
  indent : Int := -1
  indents : List Indent := []
  brackets : Nat := 0
  /-- The place behind a quoted or a bracketed key, where the colon needs no blank. -/
  adjacent : Option Nat := none
  inMap : Bool := false
  /-- For each bracketed list around, whether an item of it has begun a pair. -/
  pairs : List Bool := []

namespace Layout

def deepestBrackets : Nat := 255

def longestKey : Nat := 1024

def inFlow (l : Layout) : Bool := l.brackets ≠ 0

def place (l : Layout) : Place := (next l.rest).place

def column (l : Layout) : Int := l.place.column

def emit (l : Layout) (t : Token) : Layout :=
  { l with tokens := t :: l.tokens, isAtEdge := false }

def insert (l : Layout) (number : Nat) (t : Token) : Layout :=
  let later := l.tokens.length - number
  { l with tokens := l.tokens.take later ++ t :: l.tokens.drop later }

/-! ## Candidates -/

def inBlock (l : Layout) : Bool := (l.indents.head?.map Indent.isBlock).getD false

def saveCandidate (l : Layout) : Layout :=
  if l.mayStartKey then
    let isRequired := !l.inFlow && l.indent == l.column && l.inBlock
    { l with candidates := some ⟨l.place, l.tokens.length, isRequired⟩ :: l.candidates.tail }
  else l

/-- A candidate that has to become a key cannot be given up. -/
def surrender? : Option Candidate → Option (Option Candidate)
  | some c => if c.isRequired then none else some none
  | none => some none

def dropCandidate? (l : Layout) : Option Layout := do
  return { l with candidates := (← surrender? (l.candidates.head?.join)) :: l.candidates.tail }

/-- Whether a candidate is on an earlier line or too long ago. -/
def isStale (p : Place) (c : Candidate) : Bool :=
  c.place.line < p.line || c.place.index + longestKey < p.index

def dropStale? (l : Layout) : Option Layout :=
  if l.inFlow then some l
  else do
    let candidates ← l.candidates.mapM fun c =>
      if c.any (isStale l.place) then surrender? c else some c
    return { l with candidates := candidates }

/-! ## Indentation -/

/-- The indentations around a column, and how many blocks end before it. -/
def unrolled (depth indent : Int) : List Indent → Int × List Indent × Nat
  | [] => (indent, [], 0)
  | i :: r =>
    if depth < indent then
      let (indent, indents, ended) := unrolled depth i.outer r
      (indent, indents, if i.isBlock then ended + 1 else ended)
    else (indent, i :: r, 0)

def unroll (l : Layout) (depth : Int) : Layout :=
  if l.inFlow then l
  else
    let (indent, indents, ended) := unrolled depth l.indent l.indents
    (List.replicate ended Token.blockEnd).foldl emit
      { l with indent := indent, indents := indents }

def leaveItem (l : Layout) : Layout :=
  match l.indents with
  | i :: r => if i.isBlock then l else { l with indent := i.outer, indents := r }
  | [] => l

/-- Begins a block at a column, behind the first `number` tokens, unless it has begun. -/
def roll (l : Layout) (depth : Int) (number : Option Nat) (t : Token) : Layout :=
  if l.inFlow then l
  else
    let l := if l.indent ≤ depth then l.leaveItem else l
    if l.indent < depth then
      let l := { l with indent := depth, indents := ⟨l.indent, true⟩ :: l.indents }
      match number with
      | some n => l.insert n t
      | none => l.emit t
    else l

/-- What an item holds stands at least one column further in. -/
def enterItem (l : Layout) : Layout :=
  if !l.inFlow && l.inBlock then
    { l with indent := l.indent + 1, indents := ⟨l.indent, false⟩ :: l.indents }
  else l

/-! ## Gaps -/

inductive Gap
  | blanks
  /-- Behind a tab where only indentation may stand. -/
  | tabbed
  | remark
  deriving DecidableEq

/-- Passes over blanks, line ends and comments. Behind a tab that stands for indentation no
word may follow on the line. -/
def gap? (inBlock : Bool) (indent : Int) (g : Gap) : List Placed → Option (List Placed)
  | [] => some []
  | p :: r =>
    if p.char = nul then some (p :: r)
    else if isBreak p.char then gap? inBlock indent .blanks r
    else if g = .remark ∨ p.char = '#' then gap? inBlock indent .remark r
    else if isBlank p.char then
      if g = .tabbed ∨
          (p.char = '\t' ∧ inBlock ∧ p.fresh ∧ (p.place.column : Int) < indent) then
        gap? inBlock indent .tabbed r
      else gap? inBlock indent .blanks r
    else if g = .tabbed then none
    else some (p :: r)

/-- Goes on to the next word; outside of brackets a key may begin on a further line. -/
def passGap? (l : Layout) : Option Layout := do
  let rest ← gap? (l.indents ≠ []) l.indent .blanks l.rest
  let isFurther := l.place.line < (next rest).place.line
  return { l with rest := rest, mayStartKey := l.mayStartKey || (isFurther && !l.inFlow) }

def passLineGap? (l : Layout) : Option Layout := do
  let (_, rest) ← lineGap? l.rest
  return { l with rest := rest }

def advance (l : Layout) : Layout := { l with rest := l.rest.tail }

/-! ## Brackets -/

def open? (l : Layout) (t : Token) : Option Layout := do
  let l := l.saveCandidate.enterItem
  if l.brackets = deepestBrackets then none
  let l := { l with
    brackets := l.brackets + 1
    candidates := none :: l.candidates
    mayStartKey := true
    inMap := l.inMap || t == Token.openMap
    pairs := if t = Token.openMap then l.pairs else false :: l.pairs }
  return (← l.advance.passLineGap?).emit t

def closePair (l : Layout) : Layout :=
  match l.pairs with
  | true :: r => { l with inMap := false, pairs := false :: r }.emit .closeMap
  | _ => l

def close? (l : Layout) (t : Token) : Option Layout := do
  let l ← l.dropCandidate?
  let l := { l with
    brackets := l.brackets - 1
    candidates := if l.inFlow then l.candidates.tail else l.candidates
    mayStartKey := false }
  let l := if t = .closeList then { l.closePair with pairs := l.pairs.tail } else l
  let l ← l.advance.passLineGap?
  return { l with adjacent := if l.inFlow then some l.place.index else l.adjacent }.emit t

def comma? (l : Layout) : Option Layout := do
  let l ← l.dropCandidate?
  return (← { l with mayStartKey := true }.closePair.advance.passLineGap?).emit .comma

/-! ## Items, keys and values -/

/-- Another item directly behind a tab is no item. -/
def item? (l : Layout) : Option Layout := do
  if l.inFlow ∨ !l.mayStartKey then none
  if l.isAtEdge ∧ l.column = 0 ∧ -1 < l.indent then none
  let l := l.advance.roll l.column none .blockList
  let (blanks, rest) ← lineGap? l.rest
  if '\t' ∈ blanks ∧ nextChar rest = '-' ∧ isGap (nextChar rest.tail) then none
  let l := { l with rest := rest }
  let l := if isBreak (nextChar rest) ∨ isFlowMark (nextChar rest) then l.enterItem else l
  let l ← l.dropCandidate?
  return { l with mayStartKey := true }.emit .item

def passPlainGap (inRemark : Bool) : List Placed → List Placed
  | [] => []
  | p :: r =>
    if p.char = nul then p :: r
    else if isBreak p.char then passPlainGap false r
    else if inRemark ∨ p.char = '#' then passPlainGap true r
    else if p.char = ' ' then passPlainGap false r
    else p :: r

/-- A key behind a mark of its own, which no tab may follow. -/
def key? (l : Layout) : Option Layout := do
  if !l.inFlow ∧ !l.mayStartKey then none
  let l := if l.inFlow then { l with inMap := true } else l.roll l.column none .blockMap
  let l ← l.dropCandidate?
  let l := { l with mayStartKey := !l.inFlow }.advance
  if nextChar l.rest ≠ ' ' ∧ !isBreak (nextChar l.rest) then none
  let rest := passPlainGap false l.rest
  if nextChar rest = '\t' then none
  return { l with rest := rest }.emit .key

/-- Passes a colon. A word does not follow it behind tabs alone. -/
def passColon? (l : Layout) : Option Layout := do
  let l := l.advance
  if nextChar l.rest = '\t' then
    let (blanks, rest) ← lineGap? l.rest
    if ' ' ∉ blanks ∧ isWordChar (nextChar rest) then none
    return { l with rest := rest }
  else return l

/-- A value, and the key before it. In a bracketed list a colon begins a pair. -/
def value? (l : Layout) : Option Layout := do
  let start := l.place
  let beginsPair := !l.pairs.isEmpty && !l.inMap
  let l := if beginsPair then { l with pairs := true :: l.pairs.tail } else l
  let l ← l.passColon?
  match l.candidates.head?.join with
  | some c =>
    if beginsPair ∧ c.place.line < start.line then none
    let l := l.insert c.number .key
    let l := if beginsPair then l.insert c.number .openMap else l
    let l := (l.roll c.place.column (some c.number) .blockMap).enterItem
    return { l with candidates := none :: l.candidates.tail, mayStartKey := false }.emit .value
  | none =>
    let l := if beginsPair then l.emit .openMap else l
    if !l.inFlow ∧ !l.mayStartKey then none
    let l := (l.roll start.column none .blockMap).enterItem
    return { l with mayStartKey := !l.inFlow }.emit .value

/-! ## Scalars, properties and documents -/

def property? (l : Layout) (read : List Placed → Option (Token × List Placed)) :
    Option Layout := do
  let isFirst := l.column = 0
  let l := l.saveCandidate
  let (t, rest) ← read l.rest
  return { { l with rest := rest, mayStartKey := false }.emit t with
    isAtEdge := isFirst && t.isProperty }

def named (mark : String → Token) (ps : List Placed) : Option (Token × List Placed) :=
  (name? ps.tail).map fun (name, rest) => (mark name, rest)

def plainScalar? (l : Layout) : Option Layout := do
  let l := l.saveCandidate
  let l := { l with mayStartKey := false }.leaveItem
  let depth := l.indent + 1
  if l.inFlow ∧ l.column < depth then none
  let (t, isFurther, rest) ← plain? l.inFlow depth l.rest
  return { l with rest := rest, mayStartKey := isFurther }.emit (.scalar true t)

def quotedScalar? (l : Layout) : Option Layout := do
  let l := l.saveCandidate
  let (t, rest) ← quoted? l.inFlow l.indent l.rest
  let l ← { l with rest := rest, mayStartKey := false }.passGap?
  return { l with adjacent := some l.place.index }.emit (.scalar false t)

def literalScalar? (l : Layout) : Option Layout := do
  let l := l.saveCandidate.leaveItem
  let (t, rest) ← literal? l.indent l.rest
  return { l with rest := rest, mayStartKey := true }.emit (.scalar false t)

/-- What begins or ends a document ends all that stands in the one before. -/
def leaveDocument? (l : Layout) : Option Layout := do
  let l ← (l.unroll (-1)).dropCandidate?
  return { l with mayStartKey := false }

def directiveLine? (l : Layout) : Option Layout := do
  let l ← l.leaveDocument?
  let (t, rest) ← directive? l.rest.tail
  return { l with rest := rest }.emit t

def documentMark? (l : Layout) (t : Token) : Option Layout := do
  let l ← l.leaveDocument?
  return { l with rest := l.rest.drop 3 }.emit t

/-- Nothing but a comment follows the end of a document on its line. -/
def documentEnd? (l : Layout) : Option Layout := do
  let l ← (← l.documentMark? .documentEnd).passLineGap?
  if isLineEnd (nextChar l.rest) then return l else none

/-! ## Turns -/

def approach? (l : Layout) : Option Layout := do
  let l ← (← l.passGap?).dropStale?
  return l.unroll l.column

def isColon (l : Layout) (after : Char) : Bool :=
  isGap after || (l.inFlow && (isFlowMark after || l.adjacent == some l.place.index))

/-- Takes the next token, which may bring others with it. -/
def take? (l : Layout) : Option Layout :=
  let c := nextChar l.rest
  let after := nextChar l.rest.tail
  if l.column = 0 ∧ c = '%' then l.directiveLine?
  else if startsWithThree '-' l.rest then l.documentMark? .documentStart
  else if startsWithThree '.' l.rest then l.documentEnd?
  else if l.column < l.indent then none
  else if c = '[' then l.open? .openList
  else if c = '\x7b' then l.open? .openMap
  else if c = ']' then l.close? .closeList
  else if c = '\x7d' then l.close? .closeMap
  else if c = ',' then l.comma?
  else if c = '-' ∧ isGap after then l.item?
  else if c = '?' ∧ isGap after then l.key?
  else if c = ':' ∧ l.isColon after then l.value?
  else if c = '*' then l.property? (named .alias)
  else if c = '&' then l.property? (named .anchor)
  else if c = '!' then l.property? (tag? l.inFlow)
  else if (c = '|' ∨ c = '>') ∧ !l.inFlow then l.literalScalar?
  else if c = '\'' ∨ c = '"' then l.quotedScalar?
  else if c = '%' ∨ c = '@' ∨ c = '\x60' then none
  else l.plainScalar?

def finish? (l : Layout) : Option (List Token) :=
  if l.candidates.any fun c => c.any (·.isRequired) then none
  else some (l.unroll (-1)).tokens.reverse

def run? : Nat → Layout → Option (List Token)
  | 0, _ => none
  | turns + 1, l => do
    let l ← l.approach?
    if nextChar l.rest = nul then l.finish? else run? turns (← l.take?)

end Layout

/-- The tokens of a text. Every one but the ends of blocks takes a character. -/
def tokens? (text : String) : Option (List Token) :=
  let ps := placed text
  Layout.run? (ps.length + 1) { rest := ps }

end KeyRegistry.Yaml
