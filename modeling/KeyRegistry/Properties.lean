import KeyRegistry.Text.Blank
import KeyRegistry.Text.Digits

/-!
# Properties text

Physical lines are joined into logical lines, a logical line is cut into a raw
key and a raw value at its first unescaped separator, and escapes are undone in
both. A key that comes again keeps its place and takes the later value.
-/

namespace KeyRegistry.Properties

structure Fault where
  line : Nat
  reason : String
  deriving DecidableEq, Repr

def Fault.message (f : Fault) : String :=
  s!"line {f.line}: {f.reason}"

/-! ## Lines -/

/-- The physical lines; a line feed ends one, alone or behind a carriage return. -/
def lines : List Char → List (List Char)
  | [] => []
  | '\r' :: '\n' :: r => [] :: lines r
  | '\n' :: r => [] :: lines r
  | [c] => [[c]]
  | c :: d :: r =>
    match lines (d :: r) with
    | [] => [[c]]
    | l :: ls => (c :: l) :: ls

/-- Whether an odd number of backslashes ends the line. -/
def isOpen (line : List Char) : Bool :=
  (line.reverse.takeWhile (· = '\\')).length % 2 == 1

/-- Whether a line that starts an entry holds none. -/
def isSkipped (trimmed : List Char) : Bool :=
  match trimmed with
  | [] => true
  | c :: _ => c = '#' || c = '!'

structure Logical where
  line : Nat
  text : List Char
  deriving DecidableEq, Repr

/-- Joins physical lines from number `n` on; `pending` is a logical line still open. -/
def joinLines (n : Nat) (pending : Option Logical) : List (List Char) → List Logical
  | [] => pending.toList
  | raw :: rest =>
    let trimmed := Text.trimLeft raw
    if pending.isNone && isSkipped trimmed then joinLines (n + 1) none rest
    else
      let l := pending.getD ⟨n, []⟩
      if isOpen trimmed then
        joinLines (n + 1) (some { l with text := l.text ++ trimmed.dropLast }) rest
      else { l with text := l.text ++ trimmed } :: joinLines (n + 1) none rest

def logicalLines (text : List Char) : List Logical :=
  joinLines 1 none (lines text)

/-! ## Keys and values -/

def isGap (c : Char) : Bool := c = ' ' || c = '\t' || c = '\x0c'

/-- The part before the first unescaped separator, and the rest. -/
def cutKey : List Char → List Char × List Char
  | [] => ([], [])
  | ['\\'] => (['\\'], [])
  | '\\' :: c :: r => let (k, v) := cutKey r; ('\\' :: c :: k, v)
  | c :: r =>
    if c = '=' || c = ':' || isGap c then ([], c :: r)
    else let (k, v) := cutKey r; (c :: k, v)

/-- The raw value behind the raw key: gaps go, one `=` or `:` goes, gaps go again. -/
def rawValue (rest : List Char) : List Char :=
  match rest.dropWhile isGap with
  | [] => []
  | c :: r => if c = '=' || c = ':' then r.dropWhile isGap else c :: r

/-! ## Escapes -/

/-- The character of a four-place code; a plus sign may stand in the first place. -/
def codeChar? (a b c d : Char) : Option Char := do
  let n ← if a = '+' then Text.hexValue? [b, c, d] else Text.hexValue? [a, b, c, d]
  if n.isValidChar then some (Char.ofNat n) else none

def escapeValue (c : Char) : Char :=
  if c = 't' then '\t'
  else if c = 'n' then '\n'
  else if c = 'r' then '\r'
  else if c = 'f' then '\x0c'
  else c

/-- The text without its escapes, or the characters that stand where a code is due. -/
def unescape : List Char → Except (List Char) (List Char)
  | [] => .ok []
  | ['\\'] => .ok []
  | '\\' :: 'u' :: a :: b :: c :: d :: r =>
    match codeChar? a b c d with
    | some x => (unescape r).map (x :: ·)
    | none => .error [a, b, c, d]
  | '\\' :: 'u' :: short => .error short
  | '\\' :: e :: r => (unescape r).map (escapeValue e :: ·)
  | c :: r => (unescape r).map (c :: ·)

def malformed (line : Nat) (code : List Char) : Fault :=
  ⟨line, "malformed \\u escape '\\u" ++ String.ofList code ++ "'"⟩

def Logical.entry (l : Logical) : Except Fault (String × String) := do
  let (rawKey, rest) := cutKey l.text
  let key ← (unescape rawKey).mapError (malformed l.line)
  let value ← (unescape (rawValue rest)).mapError (malformed l.line)
  return (String.ofList key, String.ofList value)

/-! ## Entries -/

/-- Gives a key a value: in its place if it is there, else at the end. -/
def put (key value : String) : List (String × String) → List (String × String)
  | [] => [(key, value)]
  | (k, v) :: r => if k = key then (k, value) :: r else (k, v) :: put key value r

def parse (text : String) : Except Fault (List (String × String)) :=
  (logicalLines text.toList).foldlM
    (fun entries l => l.entry.map fun e => put e.1 e.2 entries) []

@[simp] theorem lines_nil : lines [] = [] := rfl

end KeyRegistry.Properties
