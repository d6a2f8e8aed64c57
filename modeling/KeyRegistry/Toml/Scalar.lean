import KeyRegistry.Decimal.Reading
import KeyRegistry.Json
import KeyRegistry.Text.Digits

/-!
# Words in a table file

A value that is no text and no collection is one word: a switch, a number, or a
date and time of day. Times become texts of one form.
-/

namespace KeyRegistry.Toml

open Text (isDigit decimalValue cutSign natural?)

/-- The digits without the underscores, each of which stands between two digits. -/
def ungap? (isDigit : Char → Bool) : List Char → Option (List Char)
  | [] => none
  | [c] => if isDigit c then some [c] else none
  | c :: '_' :: r => if isDigit c then (ungap? isDigit r).map (c :: ·) else none
  | c :: d :: r => if isDigit c then (ungap? isDigit (d :: r)).map (c :: ·) else none

/-! ## Numbers -/

/-- Digits that start with a zero only if they are a lone zero. -/
def wholeDigits? (cs : List Char) : Option (List Char) := do
  let ds ← ungap? isDigit cs
  if ds.length ≠ 1 ∧ ds.head? = some '0' then none else some ds

def inBase? (base : Nat) (cs : List Char) : Option Int := do
  let value := fun c => (Text.hexDigit? c).getD base
  let ds ← ungap? (fun c => value c < base) cs
  return Text.valueIn base value ds

def integer? (cs : List Char) : Option Int := do
  let n ← match cs with
    | '0' :: 'x' :: r => inBase? 16 r
    | '0' :: 'o' :: r => inBase? 8 r
    | '0' :: 'b' :: r => inBase? 2 r
    | _ =>
      let (negative, size) := cutSign cs
      (wholeDigits? size).map fun ds =>
        if negative then -(decimalValue ds : Int) else decimalValue ds
  if Text.isInWord n then some n else none

def exponentDigits? (cs : List Char) : Option (List Char) :=
  match cs with
  | '-' :: r => (ungap? isDigit r).map ('-' :: ·)
  | '+' :: r => ungap? isDigit r
  | r => ungap? isDigit r

def fractional? (cs : List Char) : Option (List Char) := do
  let (mantissa, rest) := cs.span fun c => c ≠ 'e' && c ≠ 'E'
  let (whole, point) := mantissa.span (· ≠ '.')
  let ds ← wholeDigits? whole
  let fraction ← match point with
    | [] => some []
    | p :: r => (ungap? isDigit r).map (p :: ·)
  let exponent ← match rest with
    | [] => some []
    | _ :: r => (exponentDigits? r).map ('e' :: ·)
  if point = [] ∧ rest = [] then none else some (ds ++ fraction ++ exponent)

/-- A float; a decimal above all floats is refused. -/
def float? (cs : List Char) : Option Float := do
  let (negative, size) := cutSign cs
  let x ←
    if size = ['i', 'n', 'f'] then some Decimal.infinity
    else if size = ['n', 'a', 'n'] then some Decimal.undefined
    else do
      let plain ← fractional? size
      let x ← Decimal.float? plain
      if x.isInf ∧ !negative then none else some x
  return if negative then -x else x

/-! ## Dates and times -/

def field? (width : Nat) (cs : List Char) : Option (Nat × List Char) := do
  let n ← natural? (cs.take width)
  if (cs.take width).length = width then some (n, cs.drop width) else none

def skip? (c : Char) : List Char → Option (List Char)
  | d :: r => if d = c then some r else none
  | [] => none

def isLeap (year : Nat) : Bool := year % 4 = 0 ∧ (year % 100 ≠ 0 ∨ year % 400 = 0)

def monthLength (year month : Nat) : Nat :=
  if month = 2 then (if isLeap year then 29 else 28)
  else if month = 4 ∨ month = 6 ∨ month = 9 ∨ month = 11 then 30
  else 31

def date? (cs : List Char) : Option (List Char × List Char) := do
  let (year, r) ← field? 4 cs
  let (month, r) ← field? 2 (← skip? '-' r)
  let (day, rest) ← field? 2 (← skip? '-' r)
  if 1 ≤ month ∧ month ≤ 12 ∧ 1 ≤ day ∧ day ≤ monthLength year month then
    some (cs.take 10, rest)
  else none

/-- A time of day, with its text and the rest; nine places of a fraction count. -/
def clock? (cs : List Char) : Option (List Char × List Char) := do
  let (hour, r) ← field? 2 cs
  let (minute, r) ← field? 2 (← skip? ':' r)
  let (second, rest) ← field? 2 (← skip? ':' r)
  if 23 < hour ∨ 59 < minute ∨ 60 < second then none
  match rest with
  | '.' :: r =>
    let (places, rest) := r.span isDigit
    if places = [] then none
    let shown := Text.dropTrailingZeros (places.take 9)
    return (cs.take 8 ++ (if shown = [] then [] else '.' :: shown), rest)
  | _ => return (cs.take 8, rest)

/-- The distance from the zero meridian, in one form; none at all lies to the east. -/
def offset? (cs : List Char) : Option (List Char) :=
  match cs with
  | [] => some []
  | ['Z'] | ['z'] => some ['Z']
  | sign :: r => do
    let (hour, r') ← field? 2 r
    let (minute, rest) ← field? 2 (← skip? ':' r')
    if (sign = '+' ∨ sign = '-') ∧ hour ≤ 23 ∧ minute ≤ 59 ∧ rest = [] then
      some ((if hour = 0 ∧ minute = 0 then '+' else sign) :: r)
    else none

def moment? (cs : List Char) : Option (List Char) :=
  match date? cs with
  | some (day, []) => some day
  | some (day, c :: r) => do
    if c ≠ 'T' ∧ c ≠ 't' ∧ c ≠ ' ' then none
    let (time, rest) ← clock? r
    let away ← offset? rest
    return day ++ 'T' :: time ++ away
  | none => do
    let (time, rest) ← clock? cs
    if rest = [] then some time else none

/-! ## Words -/

def isWordChar (c : Char) : Bool :=
  c.isAlphanum || c = '_' || c = '-' || c = '+' || c = '.' || c = ':'

/-- Cuts off a word; a date takes a time of day behind a blank with it. -/
def cutWord (cs : List Char) : List Char × List Char :=
  let (word, rest) := cs.span isWordChar
  match rest with
  | ' ' :: c :: r =>
    if isDigit c ∧ (date? word).any (·.2 = []) then
      let (time, rest) := (c :: r).span isWordChar
      (word ++ ' ' :: time, rest)
    else (word, rest)
  | _ => (word, rest)

def wordValue? (cs : List Char) : Option Json :=
  if cs = ['t', 'r', 'u', 'e'] then some (.bool true)
  else if cs = ['f', 'a', 'l', 's', 'e'] then some (.bool false)
  else match moment? cs, integer? cs, float? cs with
    | some t, _, _ => some (.str (String.ofList t))
    | none, some n, _ => some (.int n)
    | none, none, some x => some (.float x)
    | none, none, none => none

end KeyRegistry.Toml
