import DiffAlgebra.Integer.Kind

/-!
# Integers as bytes

Integers are written in a fixed number of bytes, the least significant first. Negative ones are
written in two's complement.
-/

namespace DiffAlgebra.Bytes

/-- The `w` least significant bytes of `n`. -/
def ofNat : Nat → Nat → List UInt8
  | 0, _ => []
  | w + 1, n => UInt8.ofNat n :: ofNat w (n / 256)

def toNat : List UInt8 → Nat
  | [] => 0
  | b :: bs => b.toNat + 256 * toNat bs

def capacity (w : Nat) : Nat := Nat.pow 256 w

def fits (signed : Bool) (w : Nat) (n : Int) : Bool :=
  if signed then -(capacity w : Int) ≤ 2 * n && 2 * n < capacity w else 0 ≤ n && n < capacity w

def ofInt (w : Nat) (n : Int) : List UInt8 := ofNat w (n % capacity w).toNat

def toInt (signed : Bool) (bs : List UInt8) : Int :=
  let n := toNat bs
  if signed && capacity bs.length ≤ 2 * n then (n : Int) - capacity bs.length else n

theorem capacity_succ (w : Nat) : capacity (w + 1) = 256 * capacity w := Nat.mul_comm ..

/-- A byte has eight bits. -/
theorem capacity_eq (w : Nat) : capacity w = Nat.pow 2 (8 * w) := by
  show 256 ^ w = 2 ^ (8 * w)
  rw [Nat.pow_mul]

@[simp] theorem length_ofNat (w n : Nat) : (ofNat w n).length = w := by
  induction w generalizing n with
  | zero => rfl
  | succ w ih => simp [ofNat, ih]

@[simp] theorem length_ofInt (w : Nat) (n : Int) : (ofInt w n).length = w := length_ofNat ..

theorem toNat_lt (bs : List UInt8) : toNat bs < capacity bs.length := by
  induction bs with
  | nil => exact Nat.zero_lt_one
  | cons b bs ih =>
    have hb : b.toNat < 256 := b.toNat_lt
    simp only [toNat, List.length_cons, capacity_succ]
    omega

/-- Writing and reading keeps a number up to the bytes that are left out. -/
theorem toNat_ofNat (w n : Nat) : toNat (ofNat w n) = n % capacity w := by
  induction w generalizing n with
  | zero => simp [ofNat, toNat, capacity, Nat.mod_one]
  | succ w ih =>
    have hb : (UInt8.ofNat n).toNat = n % 256 := rfl
    rw [ofNat, toNat, ih, hb, capacity_succ, Nat.mod_mul]

theorem ofNat_toNat (bs : List UInt8) : ofNat bs.length (toNat bs) = bs := by
  induction bs with
  | nil => rfl
  | cons b bs ih =>
    have hb : b.toNat < 256 := b.toNat_lt
    have hd : (b.toNat + 256 * toNat bs) / 256 = toNat bs := by omega
    have hm : UInt8.ofNat (b.toNat + 256 * toNat bs) = b := by
      apply UInt8.toNat_inj.1
      simp only [UInt8.toNat_ofNat']
      omega
    simp only [List.length_cons, ofNat, toNat, hd, hm, ih]

end DiffAlgebra.Bytes
