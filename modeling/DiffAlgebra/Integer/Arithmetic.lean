import DiffAlgebra.Fault

/-!
# Arithmetic of fixed-width integers

Every operation computes its exact result in the integers and then fits it to the kind: trapping
kinds accept what lies in the range, wrapping kinds take the value of the range that agrees with
the result modulo the number of values.
-/

namespace DiffAlgebra.IntKind

/-- The value of the range that agrees with `n` modulo the number of values. -/
def wrap (k : IntKind) (n : Int) : Int := (n - k.min) % k.cardinality + k.min

/-- The value that the exact result `n` of `op` is stored as. -/
def fit (k : IntKind) (op : ArithOp) (n : Int) : Except Fault Int :=
  match k.family with
  | .wrapping => .ok (k.wrap n)
  | .signed | .unsigned => if k.Holds n then .ok n else .error (.overflow op k n)

def ofInt (k : IntKind) (n : Int) : Except Fault Int := k.fit .construct n

def add (k : IntKind) (m n : Int) : Except Fault Int := k.fit .add (m + n)

/-- The product of two values of the kind. It has been fitted, so making a value of it does not
change it once more (`ofInt_of_fit`). -/
def mul (k : IntKind) (m n : Int) : Except Fault Int := k.fit .multiply (m * n)

/-- Additive inverse, which the unsigned kinds lack. -/
def neg (k : IntKind) (n : Int) : Except Fault Int :=
  match k.family with
  | .unsigned => .error .missingMember
  | .signed | .wrapping => k.fit .negate (-n)

theorem holds_wrap (k : IntKind) (n : Int) : k.Holds (k.wrap n) := by
  have hpos : (0 : Int) < k.cardinality := by
    have := k.half_pos
    have := k.cardinality_eq
    omega
  have h := k.max_sub_min
  have h₀ := Int.emod_nonneg (n - k.min) (Int.ne_of_gt hpos)
  have h₁ := Int.emod_lt_of_pos (n - k.min) hpos
  unfold Holds wrap
  omega

/-- Wrapping keeps the values of the range. -/
theorem wrap_of_holds {k : IntKind} {n : Int} (h : k.Holds n) : k.wrap n = n := by
  have hr := k.max_sub_min
  obtain ⟨hl, hu⟩ := h
  unfold wrap
  rw [Int.emod_eq_of_lt (by omega) (by omega)]
  omega

theorem holds_of_fit {k : IntKind} {op : ArithOp} {n r : Int} (h : k.fit op n = .ok r) :
    k.Holds r := by
  unfold fit at h
  split at h
  · cases h
    exact k.holds_wrap n
  all_goals
    split at h
    · cases h
      assumption
    · cases h

theorem fit_of_holds {k : IntKind} {op : ArithOp} {n : Int} (h : k.Holds n) :
    k.fit op n = .ok n := by
  unfold fit
  split <;> simp [h, wrap_of_holds h]

/-- A result that has been fitted is a value of the kind as it is. -/
theorem ofInt_of_fit {k : IntKind} {op : ArithOp} {n r : Int} (h : k.fit op n = .ok r) :
    k.ofInt r = .ok r :=
  fit_of_holds (holds_of_fit h)

end DiffAlgebra.IntKind
