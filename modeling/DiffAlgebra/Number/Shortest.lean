import DiffAlgebra.Number.Binary64

/-!
# Shortest decimals

A binary64 number is written with the fewest decimal digits that read back as the number, and of
those with the nearest. Each grid of decimals is searched at the two neighbours of the number only:
if any point of the grid reads back, one of the two does.
-/

namespace DiffAlgebra.Binary64

structure Fraction where
  num : Nat
  den : Nat

def Fraction.scaled (num : Nat) (e : Int) : Fraction :=
  if 0 ≤ e then ⟨num * Nat.pow 2 e.toNat, 1⟩ else ⟨num, Nat.pow 2 (-e).toNat⟩

def compareDecimal (n : Nat) (e : Int) (f : Fraction) : Ordering :=
  if 0 ≤ e then compare (n * Nat.pow 10 e.toNat * f.den) f.num
  else compare (n * f.den) (f.num * Nat.pow 10 (-e).toNat)

/-- The `p` with `10 ^ p ≤ f < 10 ^ (p + 1)`. -/
def decimalExponent (f : Fraction) : Int :=
  if f.den ≤ f.num then (Nat.toDigits 10 (f.num / f.den)).length - 1
  else
    let d := (Nat.toDigits 10 (f.den / f.num)).length
    if f.den ≤ f.num * Nat.pow 10 (d - 1) then -((d - 1 : Nat) : Int) else -d

structure Decimal where
  digits : Nat
  exponent : Int
  deriving Repr

/-- The neighbours of a positive number within which every decimal reads back as the number. The
ends themselves read back if `closed` is set. -/
structure Neighbourhood where
  low : Fraction
  centre : Fraction
  high : Fraction
  closed : Bool

/-- The neighbourhood of `mantissa * 2 ^ exponent`. Below a power of two the numbers lie twice as
dense as above it. -/
def neighbourhood (mantissa : Nat) (exponent : Int) : Neighbourhood :=
  let below := if mantissa = Nat.pow 2 (precision - 1) ∧ minExponent < exponent then 1 else 2
  { low := .scaled (4 * mantissa - below) (exponent - 2)
    centre := .scaled (4 * mantissa) (exponent - 2)
    high := .scaled (4 * mantissa + 2) (exponent - 2)
    closed := mantissa % 2 = 0 }

def Neighbourhood.holds (h : Neighbourhood) (n : Nat) (e : Int) : Bool :=
  match compareDecimal n e h.low, compareDecimal n e h.high with
  | .gt, .lt => true
  | .eq, _ | _, .eq => h.closed
  | _, _ => false

/-- Of the two neighbours `n` and `n + 1` on the grid `10 ^ e` that read back, the one nearer to
the centre, a tie going to the even one. -/
def Neighbourhood.nearer (h : Neighbourhood) (n : Nat) (e : Int) : Nat :=
  match compareDecimal (10 * n + 5) (e - 1) h.centre with
  | .gt => n
  | .lt => n + 1
  | .eq => if n % 2 = 0 then n else n + 1

/-- The best decimal on the grid `10 ^ e`, if one of the centre's neighbours reads back. -/
def Neighbourhood.onGrid? (h : Neighbourhood) (e : Int) : Option Decimal :=
  let n := if 0 ≤ e then h.centre.num / (h.centre.den * Nat.pow 10 e.toNat)
    else h.centre.num * Nat.pow 10 (-e).toNat / h.centre.den
  match h.holds n e, h.holds (n + 1) e with
  | true, true => some ⟨h.nearer n e, e⟩
  | true, false => some ⟨n, e⟩
  | false, true => some ⟨n + 1, e⟩
  | false, false => none

/-- The shortest decimal that reads back as `mantissa * 2 ^ exponent`; seventeen digits always
suffice. -/
def shortest (mantissa : Nat) (exponent : Int) : Decimal :=
  let h := neighbourhood mantissa exponent
  let p := decimalExponent h.centre
  ((List.range 17).findSome? fun (k : Nat) => h.onGrid? (p - k)).getD ⟨0, 0⟩

/-- The digits without the zeros at the end, and the number of places before the point. -/
def Decimal.normal (d : Decimal) : List Char × Int :=
  let all := Nat.toDigits 10 d.digits
  ((all.reverse.dropWhile (· == '0')).reverse, all.length + d.exponent)

/-- Positional from four zeros after the point up to sixteen places before it, with at least one
place after the point; scientific with at least two places of exponent outside these bounds. -/
def writeDecimal (digits : List Char) (point : Int) : String :=
  if -4 < point ∧ point ≤ 16 then
    if point ≤ 0 then "0." ++ String.ofList (List.replicate (-point).toNat '0' ++ digits)
    else
      let whole := digits.take point.toNat
      let whole := whole ++ List.replicate (point.toNat - whole.length) '0'
      let rest := digits.drop point.toNat
      String.ofList whole ++ "." ++ (if rest.isEmpty then "0" else String.ofList rest)
  else
    let e := point - 1
    let places := toString e.natAbs
    let places := if places.length < 2 then "0" ++ places else places
    let rest := digits.drop 1
    String.ofList (digits.take 1) ++ (if rest.isEmpty then "" else "." ++ String.ofList rest)
      ++ "e" ++ (if e < 0 then "-" else "+") ++ places

def render : Binary64 → String
  | infinite negative => if negative then "-inf" else "inf"
  | finite negative mantissa exponent =>
    let sign := if negative then "-" else ""
    if mantissa = 0 then sign ++ "0.0"
    else
      let (digits, point) := (shortest mantissa exponent).normal
      sign ++ writeDecimal digits point

end DiffAlgebra.Binary64
