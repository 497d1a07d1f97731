import DiffAlgebra.Contract.Form
import DiffAlgebra.Datum.Order
import DiffAlgebra.Proofs.Failure
import Mathlib.Data.Rat.Cast.Order
import Mathlib.Data.Rat.Lemmas

/-!
# Data without violations

A datum denotes an integer if it is that integer, or a real number with that value; a Boolean
denotes none. A datum violates nothing in an integer schema if it denotes an integer within the
bounds, and nothing in an array schema if it is an array whose items violate nothing in their
schemas, of the right length where there is one schema for each position.
-/

namespace DiffAlgebra

namespace Binary64

variable {x : Binary64} {n : Int}

theorem toInt?_eq_some : x.toInt? = some n ↔ x.toRat? = some (n : Rat) := by
  unfold toInt?
  cases x.toRat? with
  | none => simp
  | some q =>
    simp only [Option.some.injEq]
    split
    next hden =>
      rw [← (Rat.den_eq_one_iff q).mp hden]
      simp
    next hden =>
      constructor
      · intro h
        cases h
      · rintro rfl
        exact absurd (Rat.den_intCast n) hden

/-- An integer is its mantissa, as many places up or down as its exponent says. -/
theorem magnitude_eq {m : Nat} {e : Int}
    (h : (if 0 ≤ e then ((m * Nat.pow 2 e.toNat : Nat) : Rat) else mkRat m (Nat.pow 2 (-e).toNat)) =
      n) : ((if 0 ≤ e then m * Nat.pow 2 e.toNat else m / Nat.pow 2 (-e).toNat : Nat) : Int) = n := by
  split at h
  next he =>
    rw [if_pos he]
    exact_mod_cast h
  next he =>
    have hpos : 0 < Nat.pow 2 (-e).toNat := Nat.pow_pos (by decide)
    rw [Rat.mkRat_eq_div, div_eq_iff (by exact_mod_cast hpos.ne')] at h
    have hm : (m : Int) = n * (Nat.pow 2 (-e).toNat : Nat) := by exact_mod_cast h
    rw [if_neg he, Int.natCast_ediv, hm]
    exact Int.mul_ediv_cancel _ (by omega)

private theorem truncate?_eq_some (h : x.toRat? = some (n : Rat)) : x.truncate? = some n := by
  cases x with
  | infinite negative => cases h
  | finite negative m e =>
    have h := Option.some.inj h
    refine congrArg some ?_
    cases negative with
    | false => exact magnitude_eq h
    | true =>
      have hneg := magnitude_eq (n := -n) (m := m) (e := e) (by
        rw [Int.cast_neg, ← h]
        simp)
      simp only [if_true]
      omega

private theorem ltInt_eq (h : x.toRat? = some (n : Rat)) (m : Int) :
    x.ltInt m = decide (n < m) := by
  cases x with
  | infinite negative => cases h
  | finite negative m e => simp [ltInt, h]

private theorem gtInt_eq (h : x.toRat? = some (n : Rat)) (m : Int) :
    x.gtInt m = decide (m < n) := by
  cases x with
  | infinite negative => cases h
  | finite negative m e => simp [gtInt, h]

end Binary64

variable {C : Catalog} {δ : Type}

/-- The datum is a number, and its value is the integer `n`. -/
inductive Datum.Denotes : Datum C δ → Int → Prop where
  | int (n : Int) : Denotes (.int n) n
  | real {x : Binary64} {n : Int} (value : x.toRat? = some (n : Rat)) : Denotes (.real x) n

namespace Datum.Denotes

variable {d : Datum C δ} {m n : Int}

theorem unique (h : d.Denotes m) (h' : d.Denotes n) : m = n := by
  cases h with
  | int =>
    cases h'
    rfl
  | real value =>
    cases h' with
    | real value' => exact Rat.intCast_inj.mp (Option.some.inj (value.symm.trans value'))

theorem isBelow_eq (h : d.Denotes n) (bound : Int) :
    Contract.isBelow bound d = decide (n < bound) := by
  cases h with
  | int => rfl
  | real value => exact Binary64.ltInt_eq value bound

theorem isAbove_eq (h : d.Denotes n) (bound : Int) :
    Contract.isAbove bound d = decide (bound < n) := by
  cases h with
  | int => rfl
  | real value => exact Binary64.gtInt_eq value bound

theorem formInteger_eq (h : d.Denotes n) : Diff.formInteger d = .ok n := by
  cases h with
  | int => rfl
  | real value => simp [Diff.formInteger, Binary64.truncate?_eq_some value]

theorem same [DiffView δ C] {e : Datum C δ} (h : d.Denotes n) (h' : e.Denotes n) :
    Datum.same d.values e.values = true := by
  cases h <;> cases h' <;>
    simp_all [values, map, Datum.same, number?, Number.same, Binary64.toInt?_eq_some, Binary64.same]

end Datum.Denotes

namespace Contract

theorem isIntegral_iff {d : Datum C δ} : isIntegral d = true ↔ ∃ n, d.Denotes n := by
  constructor
  · intro h
    cases d with
    | int n => exact ⟨n, .int n⟩
    | real x =>
      obtain ⟨n, hn⟩ := Option.isSome_iff_exists.mp h
      exact ⟨n, .real (Binary64.toInt?_eq_some.mp hn)⟩
    | _ => cases h
  · rintro ⟨n, h⟩
    cases h with
    | int => rfl
    | real value => simp [isIntegral, Binary64.toInt?_eq_some.mpr value]

theorem violated_eq_nil {keyword : Keyword} {expected : Expected} {broken : Bool} :
    violated keyword expected broken = [] ↔ broken = false := by
  cases broken <;> simp [violated]

private theorem itemViolations_eq_nil {check : Datum C δ → List Violation} {xs : List (Datum C δ)} :
    itemViolations check xs = [] ↔ ∀ x ∈ xs, check x = [] := by
  simp only [itemViolations, List.flatMap_eq_nil_iff, List.map_eq_nil_iff, Prod.forall]
  constructor
  · intro h x hx
    obtain ⟨i, hi, rfl⟩ := List.mem_iff_getElem.mp hx
    exact h xs[i] i (List.mem_iff_getElem.mpr ⟨i, by simpa using hi, by simp⟩)
  · intro h x i hx
    exact h x (List.fst_mem_of_mem_zipIdx hx)

namespace Schema

theorem violations_integer_eq_nil {lo hi : Int} {d : Datum C δ} :
    (integer lo hi).violations d = [] ↔ ∃ n, d.Denotes n ∧ lo ≤ n ∧ n ≤ hi := by
  simp only [violations, List.append_eq_nil_iff, violated_eq_nil, Bool.not_eq_false',
    isIntegral_iff, and_assoc]
  constructor
  · rintro ⟨⟨n, hn⟩, hlo, hhi⟩
    rw [hn.isBelow_eq, decide_eq_false_iff_not, Int.not_lt] at hlo
    rw [hn.isAbove_eq, decide_eq_false_iff_not, Int.not_lt] at hhi
    exact ⟨n, hn, hlo, hhi⟩
  · rintro ⟨n, hn, hlo, hhi⟩
    refine ⟨⟨n, hn⟩, ?_, ?_⟩
    · rw [hn.isBelow_eq]
      exact decide_eq_false (Int.not_lt.mpr hlo)
    · rw [hn.isAbove_eq]
      exact decide_eq_false (Int.not_lt.mpr hhi)

theorem violations_null_eq_nil {d : Datum C δ} : null.violations d = [] ↔ d = .null := by
  cases d <;> simp [violations, violated_eq_nil, isNull]

theorem violationsAt_eq_nil {ss : List Schema} {i : Nat} {xs : List (Datum C δ)}
    (hlength : ss.length = xs.length) :
    violationsAt i ss xs = [] ↔ List.Forall₂ (fun s x => s.violations x = []) ss xs := by
  induction ss generalizing i xs with
  | nil =>
    cases List.length_eq_zero_iff.mp hlength.symm
    simp [violationsAt]
  | cons s ss ih =>
    cases xs with
    | nil => cases hlength
    | cons x xs =>
      simp [violationsAt, ih (Nat.succ.inj hlength)]

theorem violations_tuple_eq_nil {ss : List Schema} {d : Datum C δ} :
    (tuple ss).violations d = [] ↔
      ∃ l xs, d = .list l xs ∧ List.Forall₂ (fun s x => s.violations x = []) ss xs := by
  cases d with
  | list l xs =>
    have hlength : ss.length ≤ xs.length ∧ xs.length ≤ ss.length ↔ ss.length = xs.length := by
      omega
    simp only [violations, arrayItems?, List.append_eq_nil_iff, violated_eq_nil,
      decide_eq_false_iff_not, Nat.not_lt, hlength, Datum.list.injEq]
    constructor
    · rintro ⟨hlength, h⟩
      exact ⟨l, xs, ⟨rfl, rfl⟩, (violationsAt_eq_nil hlength).mp h⟩
    · rintro ⟨_, _, ⟨rfl, rfl⟩, h⟩
      exact ⟨h.length_eq, (violationsAt_eq_nil h.length_eq).mpr h⟩
  | _ => simp [violations, arrayItems?, violated_eq_nil]

theorem violations_sequence_eq_nil {s : Schema} {d : Datum C δ} :
    (sequence s).violations d = [] ↔ ∃ l xs, d = .list l xs ∧ ∀ x ∈ xs, s.violations x = [] := by
  cases d with
  | list l xs => simp [violations, arrayItems?, itemViolations_eq_nil]
  | _ => simp [violations, arrayItems?, violated_eq_nil]

theorem accepts_iff {s : Schema} {d : Datum C δ} : s.accepts d = true ↔ s.violations d = [] :=
  List.isEmpty_iff

/-- Validation succeeds where there is no violation, and otherwise fails with one. -/
theorem validate_cases (s : Schema) (d : Datum C δ) :
    (s.violations d = [] ∧ s.validate d = .ok ()) ∨
      (s.violations d ≠ [] ∧ ∃ v, s.validate d = .error (.contract v)) := by
  unfold validate
  split
  next h => exact Or.inl ⟨h, rfl⟩
  next v vs h => exact Or.inr ⟨by simp [h], v, rfl⟩

end Schema

end Contract

end DiffAlgebra
