namespace Rendition.Number

/-- The exact value of a finite float: `± significand · 2 ^ exponent`. -/
structure Exact where
  negative : Bool
  significand : Nat
  exponent : Int
  deriving DecidableEq, Repr

namespace Exact

/-- Reads the sign, exponent and fraction fields; infinities and NaN have no exact value. -/
def ofFloat? (x : Float) : Option Exact :=
  let bits := x.toBits.toNat
  let field := (bits >>> 52) % (1 <<< 11)
  let fraction := bits % (1 <<< 52)
  if field = 2047 then none
  else some
    { negative := decide (1 <<< 63 ≤ bits)
      significand := if field = 0 then fraction else (1 <<< 52) + fraction
      exponent := (max field 1 : Nat) - 1075 }

/-- The value is `numerator / denominator`, sign aside. -/
def numerator (x : Exact) : Nat := x.significand <<< x.exponent.toNat

def denominator (x : Exact) : Nat := 1 <<< (-x.exponent).toNat

theorem denominator_pos (x : Exact) : 0 < x.denominator := by
  rw [denominator, Nat.one_shiftLeft]
  exact Nat.two_pow_pos _

def signed (x : Exact) (n : Nat) : Int := if x.negative then -n else n

def isWhole (x : Exact) : Bool := x.numerator % x.denominator = 0

def truncate (x : Exact) : Int := x.signed (x.numerator / x.denominator)

/-- To the nearest integer, a half away from zero. -/
def round (x : Exact) : Int := x.signed ((2 * x.numerator + x.denominator) / (2 * x.denominator))

end Exact

def isWhole (x : Float) : Bool := (Exact.ofFloat? x).any Exact.isWhole

def truncate (x : Float) : Int := ((Exact.ofFloat? x).map Exact.truncate).getD 0

def round (x : Float) : Int := ((Exact.ofFloat? x).map Exact.round).getD 0

def clamp (low high n : Int) : Int := max low (min high n)

theorem clamp_of_mem {low high n : Int} (hl : low ≤ n) (hh : n ≤ high) : clamp low high n = n := by
  simp only [clamp]; omega

/-- The larger of two floats, and the one that is a number if only one is. -/
def larger (x y : Float) : Float := if x.isNaN || x < y then y else x

def smaller (x y : Float) : Float := if x.isNaN || y < x then y else x

end Rendition.Number
