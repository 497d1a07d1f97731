/-!
# Binary64 numbers as exact data

A number of the binary64 format is kept as the integer and the power of two that it is, so that
comparisons with integers and tests for integrality are exact. There is no arithmetic: numbers are
read, compared and written. Reading rounds a decimal to the nearest number of the format, a tie to
the even one.
-/

namespace DiffAlgebra

/-- A number of the format. -/
inductive Binary64 where
  /-- The number `mantissa * 2 ^ exponent`, negated if `negative` is set. -/
  | finite (negative : Bool) (mantissa : Nat) (exponent : Int)
  | infinite (negative : Bool)
  deriving DecidableEq, Repr

namespace Binary64

def minExponent : Int := -1074

def maxExponent : Int := 971

def precision : Nat := 53

/-- The integer nearest to `num / den`, a tie going to the even one. -/
def roundHalfEven (num den : Nat) : Nat :=
  let q := num / den
  let r := num % den
  if 2 * r < den then q
  else if den < 2 * r then q + 1
  else if q % 2 = 0 then q else q + 1

def inUnits (num den : Nat) (e : Int) : Nat × Nat :=
  if 0 ≤ e then (num, den * Nat.pow 2 e.toNat) else (num * Nat.pow 2 (-e).toNat, den)

/-- The exponent of the last place of the number nearest to `num / den`, before rounding. -/
def unitExponent (num den : Nat) : Int :=
  let low := max ((num.log2 : Int) - den.log2 - precision) minExponent
  let (n, d) := inUnits num den low
  if n / d < Nat.pow 2 precision then low else low + 1

/-- The number nearest to `num / den`, which is negated if `negative` is set. -/
def ofFraction (negative : Bool) (num den : Nat) : Binary64 :=
  if num = 0 then finite negative 0 minExponent
  else
    let e := unitExponent num den
    let (n, d) := inUnits num den e
    let m := roundHalfEven n d
    let (m, e) := if m = Nat.pow 2 precision then (Nat.pow 2 (precision - 1), e + 1) else (m, e)
    if maxExponent < e then infinite negative else finite negative m e

/-- The number nearest to `digits * 10 ^ exponent`. A decimal beyond 400 places on either side of
the point is infinite or zero whatever its digits are. -/
def ofDecimal (negative : Bool) (digits : Nat) (exponent : Int) : Binary64 :=
  let places : Int := (Nat.toDigits 10 digits).length + exponent
  if digits = 0 ∨ places < -400 then finite negative 0 minExponent
  else if 400 < places then infinite negative
  else if 0 ≤ exponent then ofFraction negative (digits * Nat.pow 10 exponent.toNat) 1
  else ofFraction negative digits (Nat.pow 10 (-exponent).toNat)

def toRat? : Binary64 → Option Rat
  | finite negative m e =>
    let q : Rat :=
      if 0 ≤ e then ((m * Nat.pow 2 e.toNat : Nat) : Rat) else mkRat m (Nat.pow 2 (-e).toNat)
    some (if negative then -q else q)
  | infinite _ => none

def truncate? : Binary64 → Option Int
  | finite negative m e =>
    let n : Nat := if 0 ≤ e then m * Nat.pow 2 e.toNat else m / Nat.pow 2 (-e).toNat
    some (if negative then -n else n)
  | infinite _ => none

def toInt? (x : Binary64) : Option Int :=
  match x.toRat? with
  | some q => if q.den = 1 then some q.num else none
  | none => none

def gtInt (n : Int) (x : Binary64) : Bool :=
  match x with
  | infinite negative => !negative
  | finite .. => match x.toRat? with
    | some q => decide ((n : Rat) < q)
    | none => false

def ltInt (x : Binary64) (n : Int) : Bool :=
  match x with
  | infinite negative => negative
  | finite .. => match x.toRat? with
    | some q => decide (q < (n : Rat))
    | none => false

def lt (x y : Binary64) : Bool :=
  match x.toRat?, y.toRat? with
  | some p, some q => decide (p < q)
  | some _, none => y == infinite false
  | none, some _ => x == infinite true
  | none, none => x == infinite true && y == infinite false

/-- Whether the numbers are equal; the two zeros are. -/
def same (x y : Binary64) : Bool :=
  match x.toRat?, y.toRat? with
  | some p, some q => p == q
  | none, none => x == y
  | _, _ => false

end Binary64

end DiffAlgebra
