import KeyRegistry.Json
import KeyRegistry.Text.Digits

/-!
# Reading structured values

A text is cut into tokens one character at a time, and the tokens drive a
machine with a stack of open arrays and objects. Numbers outside 64 bits and
numbers with a fraction or an exponent are floats: the significand, cut off
where it no longer fits 64 bits, times or divided by a power of ten.
-/

namespace KeyRegistry.Json

open Text (isDigit digitValue decimalValue)

/-- Nesting deeper than this is refused. -/
def maxDepth : Nat := 127

inductive Token
  | beginArray
  | endArray
  | beginObject
  | endObject
  | comma
  | colon
  | scalar (v : Json)

/-! ## Numbers -/

structure Numeral where
  negative : Bool
  whole : List Char
  fraction : Option (List Char)
  exponent : Option (Bool × List Char)

/-- The digits that fit 64 bits, and how many are left. -/
def accumulate (acc : Nat) : List Char → Nat × Nat
  | [] => (acc, 0)
  | c :: r =>
    if Nat.pow 2 64 ≤ acc * 10 + digitValue c then (acc, r.length + 1)
    else accumulate (acc * 10 + digitValue c) r

def powerOfTen (n : Nat) : Float := Float.ofScientific 1 false n

/-- The significand scaled by a power of ten; none if that is beyond all floats. -/
def scale (fuel : Nat) (x : Float) (exponent : Int) : Option Float :=
  if exponent.natAbs ≤ 308 then
    if 0 ≤ exponent then
      let y := x * powerOfTen exponent.natAbs
      if y.isInf then none else some y
    else some (x / powerOfTen exponent.natAbs)
  else if x == 0 then some x
  else if 0 ≤ exponent then none
  else match fuel with
    | 0 => some 0
    | fuel + 1 => scale fuel (x / powerOfTen 308) (exponent + 308)

def Numeral.float? (n : Numeral) : Option Float :=
  let (whole, extra) := accumulate 0 n.whole
  let fraction := n.fraction.getD []
  let (significand, unread) := accumulate whole fraction
  let read := fraction.length - unread
  let written : Int := match n.exponent with
    | none => 0
    | some (below, ds) => if below then -(decimalValue ds : Int) else decimalValue ds
  let exponent : Int := written + extra - read
  let capped : Int := max (-100000) (min 100000 exponent)
  (scale 400 significand.toFloat capped).map fun x => if n.negative then -x else x

def Numeral.value? (n : Numeral) : Option Json :=
  match n.fraction, n.exponent with
  | none, none =>
    let m := decimalValue n.whole
    if n.negative then
      if 0 < m ∧ m ≤ Nat.pow 2 63 then some (.int (-(m : Int))) else n.float?.map .float
    else if m < Nat.pow 2 64 then some (.int m) else n.float?.map .float
  | _, _ => n.float?.map .float

inductive NumeralPart
  | sign
  | zero
  | whole
  | point
  | fraction
  | mark
  | exponentSign
  | exponent

structure OpenNumeral where
  part : NumeralPart
  negative : Bool
  whole : List Char
  fraction : Option (List Char)
  exponent : Option (Bool × List Char)

def OpenNumeral.start (c : Char) : OpenNumeral :=
  if c = '-' then ⟨.sign, true, [], none, none⟩
  else if c = '0' then ⟨.zero, false, [c], none, none⟩
  else ⟨.whole, false, [c], none, none⟩

/-- The numeral with one more character, or none where the number has ended;
digits are kept last first. -/
def OpenNumeral.push (n : OpenNumeral) (c : Char) : Option OpenNumeral :=
  let toFraction := if c = '.' then some { n with part := .point, fraction := some [] } else none
  let toExponent :=
    if c = 'e' ∨ c = 'E' then some { n with part := .mark, exponent := some (false, []) } else none
  let pushExponent := n.exponent.map fun e => (e.1, c :: e.2)
  match n.part with
  | .sign =>
    if c = '0' then some { n with part := .zero, whole := [c] }
    else if isDigit c then some { n with part := .whole, whole := [c] }
    else none
  | .zero => toFraction <|> toExponent
  | .whole =>
    if isDigit c then some { n with whole := c :: n.whole } else toFraction <|> toExponent
  | .point =>
    if isDigit c then some { n with part := .fraction, fraction := some [c] } else none
  | .fraction =>
    if isDigit c then some { n with fraction := n.fraction.map (c :: ·) } else toExponent
  | .mark =>
    if c = '+' then some { n with part := .exponentSign }
    else if c = '-' then some { n with part := .exponentSign, exponent := some (true, []) }
    else if isDigit c then some { n with part := .exponent, exponent := pushExponent }
    else none
  | .exponentSign =>
    if isDigit c then some { n with part := .exponent, exponent := pushExponent } else none
  | .exponent => if isDigit c then some { n with exponent := pushExponent } else none

def OpenNumeral.close (n : OpenNumeral) : Option Json :=
  let done : Numeral :=
    ⟨n.negative, n.whole.reverse, n.fraction.map List.reverse,
      n.exponent.map fun e => (e.1, e.2.reverse)⟩
  match n.part with
  | .zero | .whole | .fraction | .exponent => done.value?
  | _ => none

/-! ## Tokens -/

/-- Where the cutter stands: outside, in a word, a number or a string. Inside a
string it may owe digits of an escape, and the second half of a pair. -/
inductive Cutting
  | outside
  | word (read : List Char)
  | number (n : OpenNumeral)
  | string (read : List Char) (high : Option Nat)
  | escape (read : List Char) (high : Option Nat)
  | unit (read : List Char) (high : Option Nat) (digits value : Nat)

structure Cutter where
  tokens : List Token
  cutting : Cutting

def isBlank (c : Char) : Bool := c = ' ' || c = '\t' || c = '\n' || c = '\r'

def wordValue (read : List Char) : Option Json :=
  match read.reverse with
  | ['n', 'u', 'l', 'l'] => some .null
  | ['t', 'r', 'u', 'e'] => some (.bool true)
  | ['f', 'a', 'l', 's', 'e'] => some (.bool false)
  | _ => none

def Cutter.outside (k : Cutter) (c : Char) : Option Cutter :=
  let emit (t : Token) : Option Cutter := some ⟨t :: k.tokens, .outside⟩
  if isBlank c then some ⟨k.tokens, .outside⟩
  else if c = '[' then emit .beginArray
  else if c = ']' then emit .endArray
  else if c = '\x7b' then emit .beginObject
  else if c = '\x7d' then emit .endObject
  else if c = ',' then emit .comma
  else if c = ':' then emit .colon
  else if c = '"' then some ⟨k.tokens, .string [] none⟩
  else if c = '-' || isDigit c then some ⟨k.tokens, .number (.start c)⟩
  else if 'a' ≤ c && c ≤ 'z' then some ⟨k.tokens, .word [c]⟩
  else none

def simpleEscape (c : Char) : Option Char :=
  if c = '"' || c = '\\' || c = '/' then some c
  else if c = 'b' then some '\x08'
  else if c = 'f' then some '\x0c'
  else if c = 'n' then some '\n'
  else if c = 'r' then some '\r'
  else if c = 't' then some '\t'
  else none

def closeUnit (read : List Char) (high : Option Nat) (unit : Nat) : Option Cutting :=
  match high with
  | some h =>
    if 0xdc00 ≤ unit ∧ unit < 0xe000 then
      some (.string (Char.ofNat (0x10000 + (h - 0xd800) * 1024 + (unit - 0xdc00)) :: read) none)
    else none
  | none =>
    if 0xd800 ≤ unit ∧ unit < 0xdc00 then some (.string read (some unit))
    else if 0xdc00 ≤ unit ∧ unit < 0xe000 then none
    else some (.string (Char.ofNat unit :: read) none)

def Cutter.push (k : Cutter) (c : Char) : Option Cutter :=
  match k.cutting with
  | .outside => k.outside c
  | .word read =>
    if 'a' ≤ c && c ≤ 'z' then some { k with cutting := .word (c :: read) }
    else do
      let v ← wordValue read
      Cutter.outside ⟨.scalar v :: k.tokens, .outside⟩ c
  | .number n =>
    match n.push c with
    | some n => some { k with cutting := .number n }
    | none => do
      let v ← n.close
      Cutter.outside ⟨.scalar v :: k.tokens, .outside⟩ c
  | .string read high =>
    if c = '\\' then some { k with cutting := .escape read high }
    else if high.isSome then none
    else if c = '"' then some ⟨.scalar (.str (String.ofList read.reverse)) :: k.tokens, .outside⟩
    else if c.toNat < 0x20 then none
    else some { k with cutting := .string (c :: read) none }
  | .escape read high =>
    if c = 'u' then some { k with cutting := .unit read high 0 0 }
    else if high.isSome then none
    else do
      let d ← simpleEscape c
      some { k with cutting := .string (d :: read) none }
  | .unit read high digits value => do
    let d ← Text.hexDigit? c
    if digits = 3 then
      let next ← closeUnit read high (value * 16 + d)
      some { k with cutting := next }
    else some { k with cutting := .unit read high (digits + 1) (value * 16 + d) }

/-- The tokens of a text, or none if some piece of it is no token. -/
def tokens? (cs : List Char) : Option (List Token) := do
  let k ← cs.foldlM Cutter.push ⟨[], .outside⟩
  match k.cutting with
  | .outside => some k.tokens.reverse
  | .word read => (wordValue read).map fun v => (Token.scalar v :: k.tokens).reverse
  | .number n => n.close.map fun v => (Token.scalar v :: k.tokens).reverse
  | _ => none

/-! ## Values -/

inductive Frame
  | array (items : List Json)
  | object (members : List (String × Json)) (key : String)

inductive Awaiting
  | value
  | firstItem
  | firstMember
  | member
  | colon (members : List (String × Json)) (key : String)
  | next
  | finished (v : Json)

structure Machine where
  frames : List Frame
  awaiting : Awaiting
  /-- The members read so far of the innermost object whose key is due. -/
  members : List (String × Json)

def Machine.supply (m : Machine) (v : Json) : Machine :=
  match m.frames with
  | [] => ⟨[], .finished v, []⟩
  | .array items :: r => ⟨.array (v :: items) :: r, .next, []⟩
  | .object members key :: r => ⟨.object ((key, v) :: members) key :: r, .next, []⟩

def Machine.enter (m : Machine) (t : Token) : Option Machine :=
  if maxDepth ≤ m.frames.length then none
  else match t with
    | .beginArray => some ⟨.array [] :: m.frames, .firstItem, []⟩
    | .beginObject => some ⟨m.frames, .firstMember, []⟩
    | _ => none

def Machine.beginValue (m : Machine) (t : Token) : Option Machine :=
  match t with
  | .scalar v => some (m.supply v)
  | .beginArray | .beginObject => m.enter t
  | _ => none

def Machine.push (m : Machine) (t : Token) : Option Machine :=
  match m.awaiting with
  | .value => m.beginValue t
  | .firstItem =>
    match t, m.frames with
    | .endArray, .array _ :: r => some (Machine.supply ⟨r, .next, []⟩ (.arr []))
    | _, _ => m.beginValue t
  | .firstMember =>
    match t with
    | .endObject => some (m.supply (.obj []))
    | .scalar (.str key) => some { m with awaiting := .colon [] key }
    | _ => none
  | .member =>
    match t with
    | .scalar (.str key) => some { m with awaiting := .colon m.members key }
    | _ => none
  | .colon members key =>
    match t with
    | .colon => some ⟨.object members key :: m.frames, .value, []⟩
    | _ => none
  | .next =>
    match t, m.frames with
    | .comma, .array _ :: _ => some { m with awaiting := .value }
    | .comma, .object members _ :: r => some ⟨r, .member, members⟩
    | .endArray, .array items :: r => some (Machine.supply ⟨r, .next, []⟩ (.arr items.reverse))
    | .endObject, .object members _ :: r =>
      some (Machine.supply ⟨r, .next, []⟩ (.obj members.reverse))
    | _, _ => none
  | .finished _ => none

def ofText? (text : String) : Option Json := do
  let ts ← tokens? text.toList
  let m ← ts.foldlM Machine.push ⟨[], .value, []⟩
  match m.awaiting with
  | .finished v => some v
  | _ => none

end KeyRegistry.Json
