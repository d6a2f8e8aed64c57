import KeyRegistry.Text.Digits
import KeyRegistry.Yaml.Placed
import KeyRegistry.Yaml.Token

/-!
# Properties and directives

Anchors and aliases are names behind a mark. A tag is written in full between
angle brackets, or as a handle and a suffix; a directive may tell what a handle
stands for.
-/

namespace KeyRegistry.Yaml

/-! ## Names -/

def isNamePart (c : Char) : Bool := !isGap c && !isFlowMark c && c.toNat != 0xfeff

def name? (ps : List Placed) : Option (String × List Placed) :=
  let (name, rest) := ps.span fun p => isNamePart p.char
  if name = [] then none else some (textOf name, rest)

/-! ## Tags -/

def isUriChar (c : Char) : Bool :=
  c.isAlphanum || c = '-' || "#;/?:@&=+$,_.!~*'()[]%".toList.contains c

def isTagChar (c : Char) : Bool := isUriChar c && !isFlowMark c && c ≠ '!'

def escapesFor? (byte : Nat) : Option Nat :=
  if byte < 0x80 then some 1
  else if 0xc0 ≤ byte ∧ byte < 0xe0 then some 2
  else if 0xe0 ≤ byte ∧ byte < 0xf0 then some 3
  else if 0xf0 ≤ byte ∧ byte < 0xf8 then some 4
  else none

/-- One more escaped byte: how many are then missing, and the code so far. -/
def pushByte? (missing code byte : Nat) : Option (Nat × Nat) :=
  if missing = 0 then (escapesFor? byte).map fun n => (n - 1, byte)
  else if 0x80 ≤ byte ∧ byte < 0xc0 then some (missing - 1, code * 256 + byte)
  else none

def escapedByte? (high low : Placed) : Option Nat := do
  return (← Text.hexDigit? high.char) * 16 + (← Text.hexDigit? low.char)

/-- The longest run of allowed characters. A percent sign escapes a byte, and the bytes of
one character stand together as one code. -/
def uriRun? (isAllowed : Char → Bool) (missing code : Nat) :
    List Placed → Option (List Char × List Placed)
  | ⟨'%', _, _⟩ :: high :: low :: r => do
    let (missing, code) ← pushByte? missing code (← escapedByte? high low)
    if missing ≠ 0 then uriRun? isAllowed missing code r
    else if code.isValidChar then
      let (cs, rest) ← uriRun? isAllowed 0 0 r
      return (Char.ofNat code :: cs, rest)
    else none
  | p :: r =>
    if missing ≠ 0 ∨ p.char = '%' then none
    else if isAllowed p.char then do
      let (cs, rest) ← uriRun? isAllowed 0 0 r
      return (p.char :: cs, rest)
    else some ([], p :: r)
  | [] => if missing = 0 then some ([], []) else none

def handle? (ps : List Placed) : Option (String × List Placed) :=
  if nextChar ps = '!' then
    let (letters, rest) := ps.tail.span fun p => isWordChar p.char
    let name := '!' :: charsOf letters
    if nextChar rest = '!' then some (String.ofList (name ++ ['!']), rest.tail)
    else some (String.ofList name, rest)
  else none

def isClosedHandle (handle : String) : Bool :=
  2 ≤ handle.length && handle.toList.getLast? == some '!'

def tagParts? (ps : List Placed) : Option (String × String × List Placed) :=
  if nextChar ps.tail = '<' then do
    let (uri, rest) ← uriRun? isUriChar 0 0 (ps.drop 2)
    if nextChar rest = '>' then return ("", String.ofList uri, rest.tail) else none
  else do
    let (handle, rest) ← handle? ps
    let (run, rest) ← uriRun? isTagChar 0 0 rest
    if isClosedHandle handle then
      if run = [] then none else return (handle, String.ofList run, rest)
    else
      let suffix := handle.toList.tail ++ run
      if suffix = [] then return ("", "!", rest) else return ("!", String.ofList suffix, rest)

/-- A tag ends at a gap, within brackets also at a mark. -/
def tag? (inFlow : Bool) (ps : List Placed) : Option (Token × List Placed) := do
  let (handle, suffix, rest) ← tagParts? ps
  if isGap (nextChar rest) ∨ (inFlow ∧ isFlowMark (nextChar rest)) then
    return (.tag handle suffix, rest)
  else none

/-! ## Directives -/

def dropBlanks (ps : List Placed) : List Placed := ps.dropWhile fun p => isBlank p.char

def versionNumber? (ps : List Placed) : Option (List Placed) :=
  let (digits, rest) := ps.span fun p => Text.isDigit p.char
  if digits = [] ∨ 9 < digits.length then none else some rest

def version? (ps : List Placed) : Option (Token × List Placed) := do
  let rest ← versionNumber? (dropBlanks ps)
  if nextChar rest = '.' then return (.version, ← versionNumber? rest.tail) else none

def tagLead? (ps : List Placed) : Option (List Char × List Placed) :=
  if nextChar ps = '!' then
    (uriRun? isUriChar 0 0 ps.tail).map fun (cs, rest) => ('!' :: cs, rest)
  else if isTagChar (nextChar ps) then uriRun? isUriChar 0 0 ps
  else none

def tagRule? (ps : List Placed) : Option (Token × List Placed) := do
  let (handle, rest) ← handle? (dropBlanks ps)
  if handle ≠ "!" ∧ !isClosedHandle handle then none
  let (lead, rest) ← tagLead? (dropBlanks rest)
  if isGap (nextChar rest) then return (.tagRule handle (String.ofList lead), rest) else none

/-- The directive behind a percent sign, to the end of its line. One of an unknown name is a
rule without handle. -/
def directive? (ps : List Placed) : Option (Token × List Placed) := do
  let (name, rest) := ps.span fun p => isWordChar p.char
  if name = [] ∨ !isGap (nextChar rest) then none
  let (t, rest) ←
    if textOf name = "YAML" then version? rest
    else if textOf name = "TAG" then tagRule? rest
    else some (.tagRule "" "", rest.dropWhile fun p => !isLineEnd p.char)
  let (_, rest) ← lineGap? rest
  if isLineEnd (nextChar rest) then return (t, if isBreak (nextChar rest) then rest.tail else rest)
  else none

end KeyRegistry.Yaml
