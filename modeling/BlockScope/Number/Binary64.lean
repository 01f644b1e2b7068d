/-!
# Floating-point literals

A literal is kept as its 64-bit binary interchange word and never computed with. `ofDecimal` rounds
`m · 10 ^ e` to the nearest word, a half to the even one, in exact arithmetic; `text` writes the fewest
decimal digits that lie nearer to the word than to any other, positionally and without an exponent.
-/
namespace BlockScope

/-- A binary64 number by its bits: the sign, eleven bits of exponent, fifty-two of fraction. -/
structure Binary64 where
  bits : UInt64
  deriving DecidableEq, Repr, Inhabited

namespace Binary64

def pow2 (n : Nat) : Nat := Nat.pow 2 n

def pow10 (n : Nat) : Nat := Nat.pow 10 n

/-- A word from its sign and the rest of its bits. -/
def ofMagnitude (negative : Bool) (magnitude : Nat) : Binary64 :=
  ⟨(if negative then magnitude + pow2 63 else magnitude).toUInt64⟩

/-- The bits of infinity without a sign. -/
def infinite : Nat := 2047 * pow2 52

/-- The quotient rounded to the nearest integer, a half to the even one. -/
def roundDiv (num den : Nat) : Nat :=
  let q := num / den
  let twice := 2 * (num % den)
  if twice < den then q
  else if den < twice then q + 1
  else if q % 2 = 0 then q else q + 1

/-- The greatest `p` with `2 ^ p ≤ num / den`. -/
def log2Div (num den : Nat) : Int :=
  let p : Int := (num.log2 : Int) - (den.log2 : Int)
  if num * pow2 (-p).toNat < den * pow2 p.toNat then p - 1 else p

/-- The bits without a sign of the word nearest to the positive quotient `num / den`. -/
def roundQuotient (num den : Nat) : Nat :=
  let unit := max (log2Div num den - 52) (-1074)
  let significand := roundDiv (num * pow2 (-unit).toNat) (den * pow2 unit.toNat)
  if significand < pow2 52 then significand
  else min infinite ((unit + 1074).toNat * pow2 52 + significand)

/-- The word nearest to `mantissa · 10 ^ exponent`. Beyond the two bounds every number rounds to
infinity or to zero, so the powers of ten that are formed stay small. -/
def ofDecimal (negative : Bool) (mantissa : Nat) (exponent : Int) : Binary64 :=
  let digits : Int := (Nat.toDigits 10 mantissa).length
  ofMagnitude negative <|
    if mantissa = 0 ∨ exponent + digits < -330 then 0
    else if 310 < exponent + digits then infinite
    else roundQuotient (mantissa * pow10 exponent.toNat) (pow10 (-exponent).toNat)

/-- The sign is minus. -/
def negative (x : Binary64) : Bool := pow2 63 ≤ x.bits.toNat

def fraction (x : Binary64) : Nat := x.bits.toNat % pow2 52

def exponentField (x : Binary64) : Nat := x.bits.toNat / pow2 52 % 2048

/-- A finite word stands for `significand · 2 ^ scale`, its sign apart. -/
def significand (x : Binary64) : Nat :=
  if x.exponentField = 0 then x.fraction else pow2 52 + x.fraction

def scale (x : Binary64) : Int :=
  if x.exponentField = 0 then -1074 else (x.exponentField : Int) - 1075

/-- Decimal digits and where the point stands: `0.d₁d₂… · 10 ^ point`. -/
structure Digits where
  digits : Nat
  point : Int
  deriving DecidableEq, Repr

/-- The least `e` with `m · 2 ^ s < 10 ^ e`, for a positive number that a word can hold. -/
def pointOf (m : Nat) (s : Int) : Int :=
  ((Nat.toDigits 10 (m * pow2 s.toNat * pow10 400 / pow2 (-s).toNat)).length : Int) - 400

/-- Of the two neighbours of `m · 2 ^ s` among the numbers of `count` decimal digits, the nearer one
that rounds back to it, and of two that are equally near the upper. All quantities are in quarters of
the last binary place, put over one denominator; the ends of the interval that rounds to the number
belong to it iff `m` is even. -/
def nearestOf (m : Nat) (s point : Int) (count : Nat) : Option Nat :=
  let place := point - (count : Int)
  let quarter := pow2 (s - 2).toNat * pow10 (-place).toNat
  let step := pow10 place.toNat * pow2 (2 - s).toNat
  let value := 4 * m * quarter
  let below := if m = pow2 52 ∧ -1074 < s then quarter else 2 * quarter
  let above := 2 * quarter
  let down := value / step
  let up := down + 1
  let fits (d : Nat) : Bool :=
    if m % 2 = 0 then value ≤ d * step + below && d * step ≤ value + above
    else value < d * step + below && d * step < value + above
  let upNearer := up * step - value ≤ value - down * step
  if fits up && (!fits down || upNearer) then some up
  else if fits down then some down
  else none

/-- The first count from `count` on at which a decimal rounds back. -/
def shortestFrom (m : Nat) (s point : Int) : (tries count : Nat) → Digits
  | 0, _ => ⟨0, 0⟩
  | tries + 1, count =>
    match nearestOf m s point count with
    | some d => if d = pow10 count then ⟨1, point + 1⟩ else ⟨d, point⟩
    | none => shortestFrom m s point tries (count + 1)

/-- The shortest decimal that rounds to a positive finite word; seventeen digits always do. -/
def shortest (x : Binary64) : Digits :=
  shortestFrom x.significand x.scale (pointOf x.significand x.scale) 17 1

/-- Positional notation: zeros fill the places between the digits and the point. -/
def Digits.text (d : Digits) : String :=
  let digits := Nat.toDigits 10 d.digits
  let zeros (n : Int) := List.replicate n.toNat '0'
  if d.point ≤ 0 then String.ofList (['0', '.'] ++ zeros (-d.point) ++ digits)
  else if (digits.length : Int) ≤ d.point then
    String.ofList (digits ++ zeros (d.point - digits.length))
  else String.ofList (digits.take d.point.toNat ++ ['.'] ++ digits.drop d.point.toNat)

/-- The decimal text of a literal; whole numbers carry no point, and a zero keeps its sign. -/
def text (x : Binary64) : String :=
  if x.exponentField = 2047 ∧ x.fraction ≠ 0 then "NaN"
  else
    let magnitude :=
      if x.exponentField = 2047 then "inf"
      else if x.significand = 0 then "0"
      else x.shortest.text
    if x.negative then "-" ++ magnitude else magnitude

end Binary64
end BlockScope
