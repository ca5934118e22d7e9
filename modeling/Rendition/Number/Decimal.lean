import Rendition.Number.Exact

namespace Rendition.Number

/-- `digits · 10 ^ exponent`. -/
structure Decimal where
  digits : Nat
  exponent : Int
  deriving DecidableEq, Repr

namespace Decimal

/-- A quarter of the distance to the next float above is the unit in which a float and the bounds of
the numbers that read back as it are whole: the float is four significands, the upper bound two
more, and the lower bound two less, or one less where the floats below lie twice as dense. -/
def lowerGap (x : Exact) : Nat := if x.significand = 1 <<< 52 ∧ x.exponent ≠ -1074 then 1 else 2

/-- Whether `n · 10 ^ k` reads back as the float: between the bounds, which themselves read back
only for an even significand. -/
def readsBack (x : Exact) (k : Int) (n : Nat) : Bool :=
  let scaled := 4 * n * Nat.pow 10 k.toNat * x.denominator
  let unit := (1 <<< x.exponent.toNat) * Nat.pow 10 (-k).toNat
  let low := (4 * x.significand - lowerGap x) * unit
  let high := (4 * x.significand + 2) * unit
  if x.significand % 2 = 0 then low ≤ scaled ∧ scaled ≤ high else low < scaled ∧ scaled < high

/-- Of the two multiples of `10 ^ k` beside the float the one that reads back, the nearer if both
do, the upper at a tie. -/
def onGrid? (x : Exact) (k : Int) : Option Nat :=
  let num := x.numerator * Nat.pow 10 (-k).toNat
  let den := x.denominator * Nat.pow 10 k.toNat
  let below := num / den
  let lower := readsBack x k below && below != 0
  let upper := readsBack x k (below + 1)
  if lower && !(upper && 2 * (num % den) ≥ den) then some below
  else if upper then some (below + 1)
  else none

/-- The point of the coarsest grid of powers of ten that reads back, hence one with the fewest
digits. -/
def shortest (x : Exact) : Decimal :=
  let grids := (List.range 640).map fun i : Nat ↦ (309 - i : Int)
  (grids.findSome? fun k ↦ (onGrid? x k).map fun n ↦ ⟨n, k⟩).getD ⟨0, 0⟩

def text (d : Decimal) : String :=
  let digits := toString d.digits
  if 0 ≤ d.exponent then digits ++ String.ofList (List.replicate d.exponent.toNat '0')
  else
    let places := (-d.exponent).toNat
    let padded := List.replicate (places + 1 - digits.length) '0' ++ digits.toList
    String.ofList (padded.take (padded.length - places) ++ '.' ::
      padded.drop (padded.length - places))

/-- Written out in full from `1e-5` up to `1e16`, with a digit after the point, and
otherwise with an exponent. -/
def literal (d : Decimal) : String :=
  let digits := toString d.digits
  let point := digits.length + d.exponent
  if 0 ≤ d.exponent ∧ point ≤ 16 then d.text ++ ".0"
  else if -5 < point ∧ point ≤ 16 then d.text
  else
    let fraction := if digits.length = 1 then [] else '.' :: digits.toList.drop 1
    String.ofList (digits.toList.take 1 ++ fraction) ++ "e" ++ toString (point - 1)

def ofExact (x : Exact) : Decimal := if x.significand = 0 then ⟨0, 0⟩ else shortest x

end Decimal

def write (format : Decimal → String) (x : Float) : String :=
  match Exact.ofFloat? x with
  | some e => (if e.negative then "-" else "") ++ format (.ofExact e)
  | none => if x.isNaN then "NaN" else if 0 < x then "inf" else "-inf"

def text (x : Float) : String := write Decimal.text x

def literal (x : Float) : String := write Decimal.literal x

end Rendition.Number
