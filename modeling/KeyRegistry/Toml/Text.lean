import KeyRegistry.Text.Digits

/-!
# Texts in a table file

A text stands between quotes, with escapes between double quotes and none
between single ones, on one line or, between threefold quotes, on several. It is
first cut off at its closing quotes and then read. Line ends are line feeds here:
`plainEnds` takes the carriage returns away in front of them.
-/

namespace KeyRegistry.Toml

def plainEnds : List Char → List Char
  | '\r' :: '\n' :: r => '\n' :: plainEnds r
  | c :: r => c :: plainEnds r
  | [] => []

/-- Characters that stand for themselves in texts and comments. -/
def isPlain (c : Char) : Bool := c = '\t' || (0x20 ≤ c.toNat && c.toNat ≠ 0x7f)

def isGap (c : Char) : Bool := c = ' ' || c = '\t'

/-- The part before the closing quote, and what follows the quote; where escapes
are known, an escaped quote does not close. -/
def untilQuote (quote : Char) (escapes : Bool) : List Char → Option (List Char × List Char)
  | [] => none
  | '\\' :: c :: r =>
    if escapes then (untilQuote quote escapes r).map fun (t, rest) => ('\\' :: c :: t, rest)
    else if c = quote then some (['\\'], r)
    else (untilQuote quote escapes r).map fun (t, rest) => ('\\' :: c :: t, rest)
  | c :: r =>
    if c = quote then some ([], r)
    else (untilQuote quote escapes r).map fun (t, rest) => (c :: t, rest)

/-- The same for threefold quotes; one or two more in front of them are text. -/
def untilTriple (quote : Char) (escapes : Bool) : List Char → Option (List Char × List Char)
  | a :: b :: c :: r =>
    if a = quote ∧ b = quote ∧ c = quote then
      let more := (r.takeWhile (· = quote)).take 2
      some (more, r.drop more.length)
    else
      if escapes ∧ a = '\\' then
        (untilTriple quote escapes (c :: r)).map fun (t, rest) => (a :: b :: t, rest)
      else (untilTriple quote escapes (b :: c :: r)).map fun (t, rest) => (a :: t, rest)
  | _ => none

def escapeValue? (c : Char) : Option Char :=
  if c = 'b' then some '\x08'
  else if c = 't' then some '\t'
  else if c = 'n' then some '\n'
  else if c = 'f' then some '\x0c'
  else if c = 'r' then some '\r'
  else if c = '"' ∨ c = '\\' then some c
  else none

inductive Midst
  | nothing
  | backslash
  /-- A code point with so many digits to come. -/
  | code (missing value : Nat)
  /-- Gaps behind a backslash, up to the end of the line. -/
  | toLineEnd
  /-- Gaps and line ends behind such a line. -/
  | blanks

structure Unescaped where
  text : List Char
  midst : Midst

def Unescaped.pushPlain (u : Unescaped) (wide : Bool) (c : Char) : Option Unescaped :=
  if c = '\\' then some { u with midst := .backslash }
  else if isPlain c ∨ (wide ∧ c = '\n') then some ⟨c :: u.text, .nothing⟩
  else none

/-- One more character; `wide` texts may have line ends. -/
def Unescaped.push (wide : Bool) (u : Unescaped) (c : Char) : Option Unescaped :=
  match u.midst with
  | .nothing => u.pushPlain wide c
  | .backslash =>
    if c = 'u' then some { u with midst := .code 4 0 }
    else if c = 'U' then some { u with midst := .code 8 0 }
    else if wide ∧ c = '\n' then some { u with midst := .blanks }
    else if wide ∧ isGap c then some { u with midst := .toLineEnd }
    else (escapeValue? c).map fun x => ⟨x :: u.text, .nothing⟩
  | .code missing value => do
    let d ← Text.hexDigit? c
    let n := value * 16 + d
    if 1 < missing then return { u with midst := .code (missing - 1) n }
    else if n.isValidChar then return ⟨Char.ofNat n :: u.text, .nothing⟩
    else none
  | .toLineEnd =>
    if c = '\n' then some { u with midst := .blanks } else if isGap c then some u else none
  | .blanks => if c = '\n' ∨ isGap c then some u else u.pushPlain wide c

def unescape? (wide : Bool) (cs : List Char) : Option (List Char) :=
  match cs.foldlM (Unescaped.push wide) ⟨[], .nothing⟩ with
  | some ⟨t, .nothing⟩ | some ⟨t, .blanks⟩ => some t.reverse
  | _ => none

def literal? (wide : Bool) (cs : List Char) : Option (List Char) :=
  if cs.all fun c => isPlain c || (wide && c = '\n') then some cs else none

def dropFirstEnd : List Char → List Char
  | '\n' :: r => r
  | cs => cs

def isTriple (quote : Char) (cs : List Char) : Bool :=
  [quote, quote, quote].isPrefixOf cs

def lineText? (quote : Char) (cs : List Char) : Option (String × List Char) := do
  let (raw, rest) ← untilQuote quote (quote = '"') cs
  let t ← if quote = '"' then unescape? false raw else literal? false raw
  return (String.ofList t, rest)

def wideText? (quote : Char) (cs : List Char) : Option (String × List Char) := do
  let (raw, rest) ← untilTriple quote (quote = '"') (dropFirstEnd cs)
  let t ← if quote = '"' then unescape? true raw else literal? true raw
  return (String.ofList t, rest)

@[simp] theorem unescape?_nil (wide : Bool) : unescape? wide [] = some [] := rfl

end KeyRegistry.Toml
