import KeyRegistry.Text.Digits

/-!
# Reading decimals

A decimal is a sign, digits with or without a point, and an exponent. It stands
for the nearest float. The names of the values beyond all decimals are read too.
-/

namespace KeyRegistry.Decimal

open Text (isDigit decimalValue cutSign integer?)

def infinity : Float := 1 / 0

def undefined : Float := 0 / 0

/-- The float nearest to `n * 10 ^ exponent`. Outside of some 300 places around
the point it is zero or infinite. -/
def nearest (n : Nat) (exponent : Int) : Float :=
  let places : Int := (Nat.toDigits 10 n).length + exponent
  if n = 0 ∨ places < -400 then 0
  else if 400 < places then infinity
  else Float.ofScientific n (decide (exponent < 0)) exponent.natAbs

def exponent? : List Char → Option Int
  | [] => some 0
  | c :: r => if c = 'e' ∨ c = 'E' then integer? r else none

def unsigned? (cs : List Char) : Option Float := do
  let (whole, rest) := cs.span isDigit
  let (fraction, rest) := match rest with
    | '.' :: r => r.span isDigit
    | r => ([], r)
  if whole = [] ∧ fraction = [] then none
  let e ← exponent? rest
  return nearest (decimalValue (whole ++ fraction)) (e - fraction.length)

def float? (cs : List Char) : Option Float := do
  let (negative, size) := cutSign cs
  let word := String.ofList (size.map Char.toLower)
  let x ←
    if word = "inf" ∨ word = "infinity" then some infinity
    else if word = "nan" then some undefined
    else unsigned? size
  return if negative then -x else x

end KeyRegistry.Decimal
