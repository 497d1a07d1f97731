/-!
# Whole numbers read from text

A numeral is a row of decimal digits of any script, between which single low lines may stand, with
an optional sign in front and blanks on both sides.
-/

namespace DiffAlgebra.Text

def isBlank (c : Char) : Bool :=
  let n := c.toNat
  (9 ≤ n && n ≤ 13) || n == 32 || n == 0x85 || n == 0xA0 || n == 0x1680
    || (0x2000 ≤ n && n ≤ 0x200A) || n == 0x2028 || n == 0x2029 || n == 0x202F || n == 0x205F
    || n == 0x3000

/-- The zeros of the scripts that have decimal digits. The other nine digits follow each of them. -/
def zeros : List Nat := [
  48, 1632, 1776, 1984, 2406, 2534, 2662, 2790, 2918, 3046, 3174, 3302, 3430, 3558, 3664, 3792,
  3872, 4160, 4240, 6112, 6160, 6470, 6608, 6784, 6800, 6992, 7088, 7232, 7248, 42528, 43216,
  43264, 43472, 43504, 43600, 44016, 65296, 66720, 68912, 69734, 69872, 69942, 70096, 70384,
  70736, 70864, 71248, 71360, 71472, 71904, 72016, 72784, 73040, 73120, 92768, 92864, 93008,
  120782, 120792, 120802, 120812, 120822, 123200, 123632, 125264, 130032]

def digit? (c : Char) : Option Nat :=
  (zeros.find? fun z => z ≤ c.toNat && c.toNat < z + 10).map fun z => c.toNat - z

def digitsFrom (n : Nat) : List Char → Option Nat
  | [] => some n
  | '_' :: c :: cs => do digitsFrom (10 * n + (← digit? c)) cs
  | c :: cs => do digitsFrom (10 * n + (← digit? c)) cs

def natural? : List Char → Option Nat
  | [] => none
  | c :: cs => do digitsFrom (← digit? c) cs

def signed? : List Char → Option Int
  | '-' :: cs => (natural? cs).map fun n => -n
  | '+' :: cs => (natural? cs).map fun n => n
  | cs => (natural? cs).map fun n => n

def trimBlanks (cs : List Char) : List Char :=
  (((cs.dropWhile isBlank).reverse).dropWhile isBlank).reverse

def integer? (cs : List Char) : Option Int := signed? (trimBlanks cs)

/-- Core's blanks are blanks. -/
theorem isBlank_of_isWhitespace {c : Char} (h : c.isWhitespace = true) : isBlank c = true := by
  simp only [Char.isWhitespace, Bool.or_eq_true, decide_eq_true_eq] at h
  rcases h with ((rfl | rfl) | rfl) | rfl <;> rfl

end DiffAlgebra.Text
