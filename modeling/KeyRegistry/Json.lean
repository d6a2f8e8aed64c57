/-!
# Structured values and their compact text

Objects keep their members in written order; `Json.sorted` puts them in key
order. An integer is a 64-bit one, signed or unsigned. All other numbers are
floats.
-/

namespace KeyRegistry

inductive Json
  | null
  | bool (b : Bool)
  | int (n : Int)
  | float (x : Float)
  | str (s : String)
  | arr (items : List Json)
  | obj (members : List (String × Json))
  deriving Inhabited

namespace Json

def hexDigit (n : Nat) : Char :=
  if n < 10 then Char.ofNat (48 + n) else Char.ofNat (87 + n)

def hex4 (n : Nat) : List Char :=
  [hexDigit (n / 4096 % 16), hexDigit (n / 256 % 16), hexDigit (n / 16 % 16), hexDigit (n % 16)]

def escapeChar (c : Char) : List Char :=
  if c = '"' then ['\\', '"']
  else if c = '\\' then ['\\', '\\']
  else if c = '\n' then ['\\', 'n']
  else if c = '\r' then ['\\', 'r']
  else if c = '\t' then ['\\', 't']
  else if c = '\x08' then ['\\', 'b']
  else if c = '\x0c' then ['\\', 'f']
  else if c.toNat < 0x20 then '\\' :: 'u' :: hex4 c.toNat
  else [c]

/-- The escapes of a text that must stay within ASCII; a character beyond the
basic plane is written as a surrogate pair. -/
def escapeAscii (c : Char) : List Char :=
  let n := c.toNat
  if n < 0x7f then escapeChar c
  else if n < 0x10000 then '\\' :: 'u' :: hex4 n
  else
    let m := n - 0x10000
    ('\\' :: 'u' :: hex4 (0xd800 + m / 1024)) ++ ('\\' :: 'u' :: hex4 (0xdc00 + m % 1024))

section Text

variable (escape : Char → List Char) (float : Float → List Char)

def quote (s : String) : List Char :=
  '"' :: s.toList.flatMap escape ++ ['"']

mutual

/-- The text without any blank; `escape` and `float` write characters and floats. -/
def compact : Json → List Char
  | .null => ['n', 'u', 'l', 'l']
  | .bool true => ['t', 'r', 'u', 'e']
  | .bool false => ['f', 'a', 'l', 's', 'e']
  | .int n => (toString n).toList
  | .float x => float x
  | .str s => quote escape s
  | .arr items => '[' :: compactItems items ++ [']']
  | .obj members => '\x7b' :: compactMembers members ++ ['\x7d']

def compactItems : List Json → List Char
  | [] => []
  | [v] => compact v
  | v :: w :: r => compact v ++ ',' :: compactItems (w :: r)

def compactMembers : List (String × Json) → List Char
  | [] => []
  | [(k, v)] => quote escape k ++ ':' :: compact v
  | (k, v) :: m :: r => quote escape k ++ ':' :: compact v ++ ',' :: compactMembers (m :: r)

end

end Text

/-- The members in key order, for objects of plain values. -/
def sortMembers (members : List (String × Json)) : List (String × Json) :=
  members.mergeSort fun a b => a.1 ≤ b.1

/-- The value of the last member of that name. -/
def field? (v : Json) (key : String) : Option Json :=
  match v with
  | .obj members => (members.reverse.find? fun m => m.1 == key).map (·.2)
  | _ => none

end Json

end KeyRegistry
