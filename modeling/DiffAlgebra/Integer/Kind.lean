/-!
# Kinds of fixed-width integers

A kind is a family (signed and trapping, unsigned and trapping, or signed and wrapping) together
with a width. The width fixes the range of the kind in memory and its number of bytes on the wire;
the two agree except for the narrow pointer widths, which always travel as eight bytes.
-/

namespace DiffAlgebra

/-- How a kind treats the sign and a result that leaves its range. -/
inductive Family where
  /-- Two's complement range; a result outside it traps. -/
  | signed
  /-- Non-negative range; a result outside it traps, and there is no negation. -/
  | unsigned
  /-- Two's complement range; a result outside it is reduced modulo the number of values. -/
  | wrapping
  deriving DecidableEq, Repr

def pointerBits : Nat := 64

/-- Widths of integers. `size` is the width of a pointer, and `narrow` is that of a pointer on a
host with fewer bits. -/
inductive Width where
  | w8
  | w16
  | w32
  | w64
  | w128
  | size
  | narrow (bits : Nat) (pos : 0 < bits) (small : bits < 64)
  deriving DecidableEq

namespace Width

/-- Bits of a value in memory. -/
def bits : Width → Nat
  | w8 => 8
  | w16 => 16
  | w32 => 32
  | w64 => 64
  | w128 => 128
  | size => pointerBits
  | narrow n _ _ => n

/-- Bytes of a value on the wire. Pointer-sized integers take eight, however wide a pointer is. -/
def bytes : Width → Nat
  | w8 => 1
  | w16 => 2
  | w32 => 4
  | w64 => 8
  | w128 => 16
  | size => 8
  | narrow _ _ _ => 8

def suffix : Width → String
  | w8 => "8"
  | w16 => "16"
  | w32 => "32"
  | w64 => "64"
  | w128 => "128"
  | size => "Size"
  | narrow n _ _ => "Size" ++ toString n

theorem bits_pos (w : Width) : 0 < w.bits := by
  cases w <;> simp [bits, pointerBits]
  assumption

/-- No value has more bits in memory than on the wire. -/
theorem bits_le_bytes (w : Width) : w.bits ≤ 8 * w.bytes := by
  cases w <;> simp [bits, bytes, pointerBits]
  omega

end Width

/-- A fixed-width integer type. -/
structure IntKind where
  family : Family
  width : Width
  deriving DecidableEq

namespace IntKind

def bits (k : IntKind) : Nat := k.width.bits

def isSigned (k : IntKind) : Bool :=
  match k.family with
  | .unsigned => false
  | .signed | .wrapping => true

def cardinality (k : IntKind) : Nat := Nat.pow 2 k.bits

def half (k : IntKind) : Nat := Nat.pow 2 (k.bits - 1)

def min (k : IntKind) : Int :=
  if k.isSigned then -(k.half : Int) else 0

def max (k : IntKind) : Int :=
  if k.isSigned then (k.half : Int) - 1 else (k.cardinality : Int) - 1

/-- The integer `n` is a value of the kind. -/
def Holds (k : IntKind) (n : Int) : Prop := k.min ≤ n ∧ n ≤ k.max

instance (k : IntKind) (n : Int) : Decidable (k.Holds n) :=
  inferInstanceAs (Decidable (_ ∧ _))

def name (k : IntKind) : String :=
  match k.family with
  | .signed => "I" ++ k.width.suffix
  | .unsigned => "U" ++ k.width.suffix
  | .wrapping => "WrappingI" ++ k.width.suffix

/-- A narrow pointer-sized kind is a special case of the pointer-sized kind of its family. -/
def isSub (k l : IntKind) : Bool :=
  k == l || (k.family == l.family && l.width == .size &&
    match k.width with
    | .narrow _ _ _ => true
    | _ => false)

def standardWidths : List Width := [.w8, .w16, .w32, .w64, .w128, .size]

/-- The standard kinds of a family, by increasing width and the pointer-sized one last. -/
def standard (f : Family) : List IntKind := standardWidths.map fun w => ⟨f, w⟩

@[simp] theorem isSub_self (k : IntKind) : k.isSub k = true := by simp [isSub]

theorem half_pos (k : IntKind) : 0 < k.half := Nat.two_pow_pos _

theorem cardinality_eq (k : IntKind) : k.cardinality = 2 * k.half := by
  have hb : k.bits = k.bits - 1 + 1 := by
    have := k.width.bits_pos
    unfold bits
    omega
  unfold cardinality half
  rw [hb, Nat.mul_comm]
  rfl

theorem holds_zero (k : IntKind) : k.Holds 0 := by
  have h := k.half_pos
  have hc := k.cardinality_eq
  unfold Holds min max
  split <;> omega

/-- The range has as many values as the bits can tell apart. -/
theorem max_sub_min (k : IntKind) : k.max - k.min + 1 = k.cardinality := by
  have hc := k.cardinality_eq
  unfold min max
  split <;> omega

end IntKind

end DiffAlgebra
