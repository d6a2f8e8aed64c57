import KeyRegistry.Decimal.Magnitude

/-!
# The shortest decimal text of a float

The reals that round to a float form an interval. The text shows the multiple
of the coarsest power of ten that lies in the interval, and of two such
multiples the nearer one. It never has an exponent.
-/

namespace KeyRegistry.Decimal

/-- An interval around a value, all three over one denominator. -/
structure Interval where
  low : Nat
  value : Nat
  high : Nat
  denominator : Nat
  /-- Whether the ends belong to it. -/
  closed : Bool

/-- The reals that round to a magnitude, in quarters of its last place. -/
def Magnitude.interval (a : Magnitude) : Interval :=
  let q := a.exponent - 2
  let scale := Nat.pow 2 q.toNat
  ⟨(4 * a.significand - if a.narrowBelow then 1 else 2) * scale, 4 * a.significand * scale,
    (4 * a.significand + 2) * scale, Nat.pow 2 (-q).toNat, a.significand % 2 = 0⟩

/-- Whether `n / d` lies within, for a fraction over the interval's denominator times `d`. -/
def Interval.holds (i : Interval) (n d : Nat) : Bool :=
  if i.closed then i.low * d ≤ n && n ≤ i.high * d else i.low * d < n && n < i.high * d

/-- The multiple of `10 ^ place` in the interval that is nearest to its value. -/
def Interval.onGrid? (i : Interval) (place : Int) : Option Nat :=
  let up := Nat.pow 10 place.toNat
  let down := Nat.pow 10 (-place).toNat
  let unit := i.denominator * up
  let below := i.value * down / unit
  let holdsBelow := i.holds (below * unit) down
  let holdsAbove := i.holds ((below + 1) * unit) down
  if holdsBelow && holdsAbove then
    some (if 2 * (i.value * down) < (2 * below + 1) * unit then below else below + 1)
  else if holdsBelow then some below
  else if holdsAbove then some (below + 1)
  else none

/-- The first place at or below `place` whose grid meets the interval, with the multiple. -/
def Interval.search (i : Interval) : Nat → Int → Nat × Int
  | 0, place => (0, place)
  | steps + 1, place =>
    match i.onGrid? place with
    | some n => (n, place)
    | none => i.search steps (place - 1)

/-- Digits and place of the shortest decimal; no float needs a place below the 400th. -/
def Magnitude.shortest (a : Magnitude) : Nat × Int :=
  let i := a.interval
  let top := (Nat.toDigits 10 (i.high / i.denominator)).length
  i.search (top + 400) top

def positional (n : Nat) (place : Int) : List Char :=
  let digits := Nat.toDigits 10 n
  match place with
  | .ofNat k => digits ++ List.replicate k '0'
  | .negSucc k =>
    let padded := List.replicate (k + 2 - digits.length) '0' ++ digits
    padded.take (padded.length - (k + 1)) ++ '.' :: padded.drop (padded.length - (k + 1))

def Magnitude.text (a : Magnitude) : List Char :=
  if a.significand = 0 then ['0']
  else
    let (n, place) := a.shortest
    positional n place

def signed (negative : Bool) (text : List Char) : List Char :=
  if negative then '-' :: text else text

def Reading.text : Reading → List Char
  | .finite negative size => signed negative size.text
  | .infinite negative => signed negative ['i', 'n', 'f']
  | .undefined => ['N', 'a', 'N']

def text (x : Float) : List Char := (read x).text

end KeyRegistry.Decimal
