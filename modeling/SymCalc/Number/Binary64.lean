/-!
# Binary floating point numbers

A finite binary64 number is a whole number times a power of two. This module takes a
`Float` apart into these, and builds the `Float` nearest to a quotient of whole numbers.
-/

namespace SymCalc.Number

/-- What the bits of a binary64 number stand for. -/
inductive Binary64 where
  /-- Not a number. -/
  | nan
  /-- Infinity with its sign. -/
  | infinite (negative : Bool)
  /-- The number `significand * 2 ^ exponent` with its sign, which zero has too. -/
  | finite (negative : Bool) (significand : Nat) (exponent : Int)
  deriving DecidableEq, Repr

namespace Binary64

/-- The number of bits of a full significand. -/
def precision : Nat := 53

/-- The exponent of the smallest positive number. -/
def minExponent : Int := -1074

/-- The largest exponent of a full significand. -/
def maxExponent : Int := 971

/-- Takes the bits apart. Numbers below the smallest full significand have the least exponent. -/
def ofBits (bits : UInt64) : Binary64 :=
  let negative := bits >>> 63 == 1
  let biased := ((bits >>> 52) &&& 0x7FF).toNat
  let fraction := (bits &&& 0xFFFFFFFFFFFFF).toNat
  if biased = 0x7FF then if fraction = 0 then infinite negative else nan
  else if biased = 0 then finite negative fraction minExponent
  else finite negative (fraction + Nat.pow 2 52) (minExponent + (biased - 1 : Nat))

/-- What a `Float` stands for. -/
def ofFloat (x : Float) : Binary64 := ofBits x.toBits

end Binary64

/-- The whole number nearest to a quotient; a half goes to the even neighbour. -/
def roundDiv (num den : Nat) : Nat :=
  let q := num / den
  let twice := 2 * (num % den)
  if twice < den then q
  else if den < twice then q + 1
  else q + q % 2

/-- A quotient rounds to its floor or to the number after it. -/
theorem roundDiv_eq_or (num den : Nat) :
    roundDiv num den = num / den ∨ roundDiv num den = num / den + 1 := by
  simp only [roundDiv]
  split
  · exact Or.inl rfl
  · split
    · exact Or.inr rfl
    · have := Nat.mod_two_eq_zero_or_one (num / den)
      omega

/-- The positive binary64 number nearest to a quotient, as bits, or nothing if it is too
large; a half goes to the even neighbour. The exponent is the one that leaves a full
significand before rounding, but not below the least. -/
def nearestBits? (num den : Nat) : Option UInt64 :=
  if num = 0 then some 0
  else
    let guess : Int := (Nat.log2 num : Int) - Nat.log2 den - 52
    -- The guess leaves 52 or 53 bits before the point.
    let scaled (e : Int) : Nat × Nat :=
      if 0 ≤ e then (num, den * Nat.pow 2 e.toNat) else (num * Nat.pow 2 (-e).toNat, den)
    let whole (e : Int) : Nat := (scaled e).1 / (scaled e).2
    let exact := if whole guess < Nat.pow 2 52 then guess - 1 else guess
    let exponent := max exact Binary64.minExponent
    let significand := roundDiv (scaled exponent).1 (scaled exponent).2
    let (significand, exponent) :=
      if significand = Nat.pow 2 53 then (Nat.pow 2 52, exponent + 1) else (significand, exponent)
    if Binary64.maxExponent < exponent then none
    else if significand < Nat.pow 2 52 then some significand.toUInt64
    else
      let biased := (exponent - Binary64.minExponent).toNat + 1
      some (biased.toUInt64 <<< 52 ||| (significand - Nat.pow 2 52).toUInt64)

end SymCalc.Number
