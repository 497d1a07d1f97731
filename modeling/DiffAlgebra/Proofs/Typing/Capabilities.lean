import DiffAlgebra.Proofs.Laws.BuiltIn
import DiffAlgebra.Proofs.Laws.Purity
import DiffAlgebra.Session.Run

/-!
# Capabilities of composite types

A composite type takes its capabilities from its components, one level at a time. At any depth it
comes to the same: a type has a capability just if all the leaf types that it is composed of have
it. A type without leaves, such as the tuple without components, has all of them.
-/

namespace DiffAlgebra

variable {C : Catalog}

namespace DiffType

mutual

def leaves : DiffType C → List (DiffType C)
  | tuple ts => leavesAll ts
  | vec t => leaves t
  | tier t => [tier t]
  | anyInt g => [anyInt g]
  | int k => [int k]
  | present => [present]
  | custom n => [custom n]
  | anyTuple => [anyTuple]
  | anyVec => [anyVec]

def leavesAll : List (DiffType C) → List (DiffType C)
  | [] => []
  | t :: ts => leaves t ++ leavesAll ts

end

mutual

/-- What composite types have if all their components have it they have if all their leaves do. -/
theorem eq_all_leaves {p : DiffType C → Bool} (htuple : ∀ ts, p (tuple ts) = ts.all p)
    (hvec : ∀ t, p (vec t) = p t) : (t : DiffType C) → p t = t.leaves.all p
  | tuple ts => (htuple ts).trans (all_eq_all_leavesAll htuple hvec ts)
  | vec t => (hvec t).trans (eq_all_leaves htuple hvec t)
  | tier _ | anyInt _ | int _ | present | custom _ | anyTuple | anyVec => by simp [leaves]

theorem all_eq_all_leavesAll {p : DiffType C → Bool} (htuple : ∀ ts, p (tuple ts) = ts.all p)
    (hvec : ∀ t, p (vec t) = p t) : (ts : List (DiffType C)) → ts.all p = (leavesAll ts).all p
  | [] => rfl
  | t :: ts => by
    rw [List.all_cons, leavesAll, List.all_append, eq_all_leaves htuple hvec t,
      all_eq_all_leavesAll htuple hvec ts]

end

theorem isSub_tier_tuple (a : Tier) (ts : List (DiffType C)) :
    (tuple ts).isSub (tier a) = ts.all (·.isSub (tier a)) := by
  rw [Bool.eq_iff_iff, List.all_eq_true]
  exact provides_tierAll_iff

/-- A tuple type is of the strongest tier that all its components are of. -/
theorem tierOf_tuple (ts : List (DiffType C)) :
    (tuple ts).tierOf =
      if ts.all isAbelian then .abelian else if ts.all isMonoid then .monoid else .semigroup := by
  have habelian : (tuple ts).isAbelian = ts.all isAbelian := isSub_tier_tuple .abelian ts
  have hmonoid : (tuple ts).isMonoid = ts.all isMonoid := isSub_tier_tuple .monoid ts
  rw [← habelian, ← hmonoid, isAbelian, isMonoid]
  cases (tuple ts).tierOf <;> rfl

theorem multiplies_tuple (ts : List (DiffType C)) : (tuple ts).multiplies = ts.all multiplies := by
  change multipliesAll ts = ts.all multiplies
  induction ts with
  | nil => rfl
  | cons t ts ih => rw [multipliesAll, ih, List.all_cons]

private theorem commutative_tuple (ts : List (DiffType C)) :
    (tuple ts).commutative = ts.all commutative := by
  change commutativeAll ts = ts.all commutative
  induction ts with
  | nil => rfl
  | cons t ts ih => rw [commutativeAll, ih, List.all_cons]

theorem isSub_tier_eq (a : Tier) (t : DiffType C) :
    t.isSub (tier a) = t.leaves.all (·.isSub (tier a)) :=
  eq_all_leaves (p := (·.isSub (tier a))) (isSub_tier_tuple a) (fun _ => rfl) t

private theorem multiplies_eq (t : DiffType C) : t.multiplies = t.leaves.all multiplies :=
  eq_all_leaves multiplies_tuple (fun _ => rfl) t

private theorem commutative_eq (t : DiffType C) : t.commutative = t.leaves.all commutative :=
  eq_all_leaves commutative_tuple (fun _ => rfl) t

end DiffType

namespace Diff

variable {t : DiffType C} {x : Diff C}

private theorem exists_zero_composed (ht : t.Composed) (hmonoid : t.isMonoid = true) :
    ∃ z, zero? t = .ok (some z) ∧ z.typeOf = t := by
  induction ht with
  | int k => exact ⟨int k 0, rfl, rfl⟩
  | present => cases hmonoid
  | custom n => exact ⟨custom n (C.zero n), if_pos hmonoid, rfl⟩
  | tuple _ ih =>
    obtain ⟨zs, hz, -⟩ := exists_zero_tuple hmonoid fun t ht =>
      (ih t ht (isMonoid_of_mem hmonoid ht)).imp fun _ h => h.1
    exact ⟨_, hz, rfl⟩
  | vec => exact ⟨_, if_pos hmonoid, rfl⟩

private theorem negate_eq_missingMember (h : x.typeOf.isAbelian = false) :
    x.negate = .error .missingMember := by
  cases x with
  | int k n =>
    have hsigned : k.isSigned = false := DiffType.isAbelian_int k ▸ h
    cases hk : k.family <;> simp [IntKind.isSigned, hk] at hsigned
    simp [negate, IntKind.neg, hk]
  | present => rfl
  | custom n s =>
    have htier : (C.tier n).provides .abelian = false := h
    simp [negate, htier]
  | tuple ts xs =>
    have htype : (tupleType ts).isAbelian = false := h
    simp [negate, htype]
  | vec t xs =>
    have htype : (vecType t).isAbelian = false := h
    simp [negate, htype]

end Diff

namespace Object

private theorem multiply_eq_missingMember {x : Object C} (h : x.typeOf.multiplies = false)
    (v : Value C)
    (next : Nat) : (x.multiply v next).1 = .error .missingMember := by
  cases x with
  | int | present => cases h
  | custom l n s =>
    have hmultiplies : ¬ C.multiplies n = true := by
      rw [show C.multiplies n = false from h]
      decide
    simp only [multiply, multiplyOperand, multiplyCustom, run_get_bind, if_neg hmultiplies]
    rfl
  | tuple l ts xs =>
    have htype : ¬ (Diff.tupleType ts).multiplies = true := by
      rw [show (Diff.tupleType ts).multiplies = false from h]
      decide
    simp only [multiply, multiplyOperand, if_neg htype]
    rfl
  | vec l t xs =>
    have htype : ¬ (Diff.vecType t).multiplies = true := by
      rw [show (Diff.vecType t).multiplies = false from h]
      decide
    simp only [multiply, multiplyOperand, if_neg htype]
    rfl

end Object

namespace Session

/-- The capabilities that a type with a test for zero lists, the strongest additive one first. -/
def listed (abelian monoid multiplies : Bool) : List (Class C) :=
  (if abelian then [Class.diff (.tier .abelian)] else []) ++
    (if monoid then [Class.diff (.tier .monoid)] else []) ++
    [Class.diff (.tier .semigroup), Class.isZero] ++ if multiplies then [Class.multiply] else []

private theorem capabilities_eq (t : DiffType C) :
    (Class.diff t).capabilities = listed t.isAbelian t.isMonoid t.multiplies := by
  have htiers : [Tier.abelian, .monoid, .semigroup].filter t.tierOf.provides =
      (if t.isAbelian then [Tier.abelian] else []) ++ (if t.isMonoid then [Tier.monoid] else []) ++
        [Tier.semigroup] := by
    unfold DiffType.isAbelian DiffType.isMonoid
    cases t.tierOf <;> rfl
  rw [Class.capabilities, htiers, listed]
  cases t.isAbelian <;> cases t.isMonoid <;> rfl

theorem zero_eq {t : DiffType C} {r : Except Fault (Diff C)}
    (h : Diff.zero? t = r.map some) (next : Nat) :
    zero (.type (.diff t)) next = .built next r := by
  unfold zero
  rw [classOf, ok_bind, h]
  cases r <;> rfl

end Session

end DiffAlgebra
