import DiffAlgebra.Proofs.Addition.Leaves
import Mathlib.Algebra.BigOperators.Group.List.Basic
import Mathlib.Algebra.Ring.Int.Defs

/-!
# Columns

The integers at one place of several values are a column. Without trapping signed kinds no sum on
the way to a total exceeds the sums of the columns, so a total is in range as soon as the columns of
unsigned integers are.
-/

namespace DiffAlgebra.Diff

variable {C : Catalog}

def integerAt (k : IntKind) (path : List Nat) (x : Diff C) : Option Int :=
  match x.leafAt path with
  | some (l, n) => if l = k then some n else none
  | none => none

/-- The integers of a kind at a place, for those values that have the place. -/
def column (k : IntKind) (path : List Nat) (xs : List (Diff C)) : List Int :=
  xs.filterMap (integerAt k path)

/-- At every place of unsigned integers, the exact sum of the column is in range. -/
def ColumnsFit (xs : List (Diff C)) : Prop :=
  ∀ (k : IntKind) path, k.family = .unsigned → (column k path xs).sum ≤ k.max

theorem integerAt_eq_some {k : IntKind} {path : List Nat} {x : Diff C} {n : Int} :
    integerAt k path x = some n ↔ x.leafAt path = some (k, n) := by
  unfold integerAt
  cases h : x.leafAt path with
  | none => simp
  | some a =>
    obtain ⟨l, m⟩ := a
    by_cases hl : l = k <;> simp [hl]

private theorem sum_column_cons (k : IntKind) (path : List Nat) (x : Diff C) (xs : List (Diff C)) :
    (column k path (x :: xs)).sum = (integerAt k path x).getD 0 + (column k path xs).sum := by
  cases h : integerAt k path x <;> simp [column, h]

private theorem sum_column_perm {xs ys : List (Diff C)} (h : xs.Perm ys) (k : IntKind)
    (path : List Nat) : (column k path xs).sum = (column k path ys).sum :=
  (h.filterMap _).sum_eq

theorem ColumnsFit.perm {xs ys : List (Diff C)} (h : xs.Perm ys) (hfit : ColumnsFit xs) :
    ColumnsFit ys := by
  intro k path hk
  rw [← sum_column_perm h]
  exact hfit k path hk

/-- What merging preserves of the integers if no kind is a trapping signed one. -/
def Bounded (k : IntKind) (n : Int) : Prop :=
  (k.family = .wrapping → k.Holds n) ∧ (k.family = .unsigned → 0 ≤ n) ∧ k.family ≠ .signed

private theorem bounded_of_holds {k : IntKind} {n : Int} (hk : k.family ≠ .signed) (h : k.Holds n) :
    Bounded k n := by
  refine ⟨fun _ => h, fun hu => ?_, hk⟩
  have hmin : k.min = 0 := by simp [IntKind.min, IntKind.isSigned, hu]
  have hle := h.1
  omega

theorem Shaped.bounded {t : DiffType C} {x : Diff C} (h : Shaped IntKind.Holds t x)
    (ht : t.Over (·.family ≠ .signed)) : Shaped Bounded t x :=
  (h.exact.shaped ht).mono fun _ _ hP => bounded_of_holds hP.1 hP.2

private theorem bounded_settle_add {k : IntKind} {m n : Int} (hm : Bounded k m) (hn : Bounded k n) :
    Bounded k (k.settle (m + n)) := by
  refine ⟨fun hk => ?_, fun hk => ?_, hm.2.2⟩
  · simp [IntKind.settle, hk, k.holds_wrap]
  · have hm' := hm.2.1 hk
    have hn' := hn.2.1 hk
    simp only [IntKind.settle, hk]
    omega

section

variable {t : DiffType C} {x y : Diff C} {xs : List (Diff C)}

private theorem integerAt_nonneg (hx : Shaped Bounded t x) {k : IntKind} (hk : k.family = .unsigned)
    (path : List Nat) : 0 ≤ (integerAt k path x).getD 0 := by
  cases h : integerAt k path x with
  | none => simp
  | some n => exact (hx.leaf (integerAt_eq_some.mp h)).2.1 hk

private theorem sum_column_nonneg (hxs : ∀ x ∈ xs, Shaped Bounded t x) {k : IntKind}
    (hk : k.family = .unsigned) (path : List Nat) : 0 ≤ (column k path xs).sum := by
  induction xs with
  | nil => simp [column]
  | cons x xs ih =>
    have hx := integerAt_nonneg (hxs x List.mem_cons_self) hk path
    have hrest := ih fun y hy => hxs y (List.mem_cons_of_mem _ hy)
    rw [sum_column_cons]
    omega

theorem kind_eq {P Q : IntKind → Int → Prop} (hx : Shaped P t x) (hy : Shaped Q t y)
    {path : List Nat} {a b : IntKind × Int} (ha : x.leafAt path = some a)
    (hb : y.leafAt path = some b) : a.1 = b.1 := by
  have h := hx.leafAt_merge hy path
  rw [hx.merge_comm hy, hy.leafAt_merge hx, ha, hb] at h
  exact (congrArg Prod.fst (Option.some.inj h)).symm

theorem integerAt_merge {P Q : IntKind → Int → Prop} (hx : Shaped P t x) (hy : Shaped Q t y)
    {k : IntKind} (hk : k.family = .unsigned) (path : List Nat) :
    (integerAt k path (merge x y)).getD 0 =
      (integerAt k path x).getD 0 + (integerAt k path y).getD 0 := by
  have hsettle (n : Int) : k.settle n = n := by simp [IntKind.settle, hk]
  simp only [integerAt, hx.leafAt_merge hy path]
  cases ha : x.leafAt path with
  | none => simp
  | some a =>
    cases hb : y.leafAt path with
    | none => simp
    | some b =>
      have h := kind_eq hx hy ha hb
      by_cases hak : a.1 = k
      · simp [Shaped.mergeLeaf, hak, ← h, hsettle]
      · simp [Shaped.mergeLeaf, hak, ← h]

private theorem sum_column_merge {P Q : IntKind → Int → Prop} (hx : Shaped P t x)
    (hy : Shaped Q t y)
    {k : IntKind} (hk : k.family = .unsigned) (path : List Nat) (xs : List (Diff C)) :
    (column k path (merge x y :: xs)).sum = (column k path (x :: y :: xs)).sum := by
  rw [sum_column_cons, sum_column_cons, sum_column_cons, integerAt_merge hx hy hk]
  omega

/-- The columns of the values that make up a merge add up to its integers. -/
theorem integerAt_mergeList {P : IntKind → Int → Prop} (hxs : ∀ x ∈ xs, Shaped P t x) {z : Diff C}
    (hz : mergeList xs = some z) {k : IntKind} (hk : k.family = .unsigned) (path : List Nat) :
    (integerAt k path z).getD 0 = (column k path xs).sum := by
  induction xs generalizing z with
  | nil => cases hz
  | cons x xs ih =>
    have hx := hxs x List.mem_cons_self
    have hrest := fun y hy => hxs y (List.mem_cons_of_mem _ hy)
    rw [sum_column_cons]
    cases hy : mergeList xs with
    | none =>
      rw [mergeList, hy] at hz
      cases hz
      simp [mergeList_eq_none hy, column]
    | some y =>
      rw [mergeList, hy] at hz
      cases hz
      rw [integerAt_merge hx (anyShaped_mergeList hrest hy) hk, ih hrest hy]

/-- Without trapping signed integers, a value is in range if its unsigned integers are. -/
theorem inRange_of_le_max (hx : Shaped Bounded t x)
    (h : ∀ (k : IntKind) path, k.family = .unsigned → (integerAt k path x).getD 0 ≤ k.max) :
    x.InRange := by
  intro path k n hleaf
  obtain ⟨hwrapping, hunsigned, hsigned⟩ := hx.leaf hleaf
  cases hk : k.family with
  | signed => exact absurd hk hsigned
  | wrapping => exact hwrapping hk
  | unsigned =>
    have hmax := h k path hk
    rw [integerAt_eq_some.mpr hleaf] at hmax
    have hmin : k.min = 0 := by simp [IntKind.min, IntKind.isSigned, hk]
    have hn := hunsigned hk
    exact ⟨by omega, hmax⟩

private theorem sum_column_congr {P Q : IntKind → Int → Prop} {ys : List (Diff C)}
    (hxs : ∀ x ∈ xs, Shaped P t x) (hys : ∀ y ∈ ys, Shaped Q t y)
    (h : mergeList xs = mergeList ys) {k : IntKind} (hk : k.family = .unsigned)
    (path : List Nat) : (column k path xs).sum = (column k path ys).sum := by
  cases hz : mergeList xs with
  | none => rw [mergeList_eq_none hz, mergeList_eq_none (h.symm.trans hz)]
  | some z =>
    rw [← integerAt_mergeList hxs hz hk, ← integerAt_mergeList hys (h.symm.trans hz) hk]

theorem ColumnsFit.congr {P Q : IntKind → Int → Prop} {ys : List (Diff C)}
    (hxs : ∀ x ∈ xs, Shaped P t x) (hys : ∀ y ∈ ys, Shaped Q t y)
    (h : mergeList xs = mergeList ys) (hfit : ColumnsFit xs) : ColumnsFit ys := by
  intro k path hk
  rw [← sum_column_congr hxs hys h hk]
  exact hfit k path hk

/-- The columns of a part fit if those of the whole do. -/
theorem ColumnsFit.of_append {ys : List (Diff C)} (hxs : ∀ x ∈ xs, Shaped Bounded t x)
    (hys : ∀ y ∈ ys, Shaped Bounded t y) (h : ColumnsFit (xs ++ ys)) :
    ColumnsFit xs ∧ ColumnsFit ys := by
  have hsum (k : IntKind) (path : List Nat) :
      (column k path (xs ++ ys)).sum = (column k path xs).sum + (column k path ys).sum := by
    simp [column]
  constructor <;> intro k path hk
  · have hle := h k path hk
    have hnonneg := sum_column_nonneg hys hk path
    rw [hsum] at hle
    omega
  · have hle := h k path hk
    have hnonneg := sum_column_nonneg hxs hk path
    rw [hsum] at hle
    omega

/-- The columns of a total that is in range fit. -/
theorem columnsFit_of_mergeList {P : IntKind → Int → Prop} (hxs : ∀ x ∈ xs, Shaped P t x)
    {z : Diff C} (hz : mergeList xs = some z) (hrange : z.InRange) : ColumnsFit xs := by
  intro k path hk
  rw [← integerAt_mergeList hxs hz hk]
  cases h : integerAt k path z with
  | none => exact k.holds_zero.2
  | some n => exact (hrange path k n (integerAt_eq_some.mp h)).2

/-- A sum does not trap if the columns fit, those of further values included. -/
theorem inRange_merge (hx : Shaped Bounded t x) (hy : Shaped Bounded t y)
    (hxs : ∀ z ∈ xs, Shaped Bounded t z) (hfit : ColumnsFit (x :: y :: xs)) :
    (merge x y).InRange := by
  have hmerge := hx.merged hy (fun _ _ h => h) (fun _ _ h => h) fun _ _ _ => bounded_settle_add
  refine inRange_of_le_max hmerge fun k path hk => ?_
  have hle := hfit k path hk
  have hnonneg := sum_column_nonneg hxs hk path
  rw [← sum_column_merge hx hy hk, sum_column_cons] at hle
  omega

end

end DiffAlgebra.Diff
