/-!
# Digits

Reading and writing of decimal and hexadecimal digits, within ASCII.
-/

namespace KeyRegistry.Text

def digitChar (d : Nat) : Char := Char.ofNat (48 + d)

def lastDigits : Nat → Nat → List Char
  | 0, _ => []
  | width + 1, n => lastDigits width (n / 10) ++ [digitChar (n % 10)]

@[simp] theorem lastDigits_zero (n : Nat) : lastDigits 0 n = [] := rfl

theorem lastDigits_succ (width n : Nat) :
    lastDigits (width + 1) n = lastDigits width (n / 10) ++ [digitChar (n % 10)] := rfl

@[simp] theorem length_lastDigits (width n : Nat) : (lastDigits width n).length = width := by
  induction width generalizing n with
  | zero => rfl
  | succ width ih => simp [lastDigits_succ, ih]

def dropTrailingZeros (ds : List Char) : List Char :=
  (ds.reverse.dropWhile (· = '0')).reverse

def isDigit (c : Char) : Bool := '0' ≤ c && c ≤ '9'

def digitValue (c : Char) : Nat := c.toNat - 48

def valueIn (base : Nat) (value : Char → Nat) (ds : List Char) : Nat :=
  ds.foldl (fun n c => n * base + value c) 0

def decimalValue (ds : List Char) : Nat := valueIn 10 digitValue ds

@[simp] theorem decimalValue_nil : decimalValue [] = 0 := rfl

def hexDigit? (c : Char) : Option Nat :=
  if isDigit c then some (digitValue c)
  else if 'a' ≤ c && c ≤ 'f' then some (c.toNat - 87)
  else if 'A' ≤ c && c ≤ 'F' then some (c.toNat - 55)
  else none

/-- The number that hexadecimal digits stand for; none if another character is among them. -/
def hexValue? (ds : List Char) : Option Nat :=
  ds.foldlM (fun n c => (hexDigit? c).map (n * 16 + ·)) 0

def natural? (cs : List Char) : Option Nat :=
  if cs ≠ [] ∧ cs.all isDigit then some (decimalValue cs) else none

/-- A leading sign, true for a minus, and the rest. -/
def cutSign : List Char → Bool × List Char
  | '-' :: r => (true, r)
  | '+' :: r => (false, r)
  | cs => (false, cs)

def integer? (cs : List Char) : Option Int :=
  let (negative, ds) := cutSign cs
  (natural? ds).map fun n => if negative then -(n : Int) else n

def isInWord (n : Int) : Bool := -(Nat.pow 2 63 : Int) ≤ n ∧ n < Nat.pow 2 63

end KeyRegistry.Text
