import DiffAlgebra.Proofs.Addition.Leaves
import DiffAlgebra.Proofs.Failure

/-!
# Addition is merging and then checking

The sum of a value and an operand that it takes is their merge, provided that all its leaves lie in
their ranges. Otherwise addition fails with the first leaf that does not. Two exact values of one
type take each other.
-/

namespace DiffAlgebra.Diff

variable {C : Catalog}

mutual

def checked : Diff C → Except Fault (Diff C)
  | int k n => if k.Holds n then .ok (int k n) else .error (.overflow .add k n)
  | present => .ok present
  | custom n s => .ok (custom n s)
  | tuple ts xs => do .ok (tuple ts (← checkedAll xs))
  | vec t xs => do .ok (vec t (← checkedAll xs))

def checkedAll : List (Diff C) → Except Fault (List (Diff C))
  | [] => .ok []
  | x :: xs => do
    let y ← checked x
    let ys ← checkedAll xs
    .ok (y :: ys)

end

mutual

theorem checked_cases : (x : Diff C) → (x.InRange ∧ x.checked = .ok x) ∨
    (¬ x.InRange ∧ ∃ k n, x.checked = .error (.overflow .add k n))
  | int k n => by
    rw [inRange_int]
    by_cases h : k.Holds n
    · exact Or.inl ⟨h, by simp [checked, h]⟩
    · exact Or.inr ⟨h, k, n, by simp [checked, h]⟩
  | present => Or.inl ⟨(inRange_iff_parts (by simp)).mpr (by simp [parts]), rfl⟩
  | custom _ _ => Or.inl ⟨(inRange_iff_parts (by simp)).mpr (by simp [parts]), rfl⟩
  | tuple ts xs => by
    rw [inRange_iff_parts (by simp)]
    rcases checkedAll_cases xs with ⟨hxs, h⟩ | ⟨hxs, k, n, h⟩
    · exact Or.inl ⟨hxs, by simp [checked, h]⟩
    · exact Or.inr ⟨hxs, k, n, by simp [checked, h]⟩
  | vec t xs => by
    rw [inRange_iff_parts (by simp)]
    rcases checkedAll_cases xs with ⟨hxs, h⟩ | ⟨hxs, k, n, h⟩
    · exact Or.inl ⟨hxs, by simp [checked, h]⟩
    · exact Or.inr ⟨hxs, k, n, by simp [checked, h]⟩

theorem checkedAll_cases : (xs : List (Diff C)) →
    ((∀ x ∈ xs, x.InRange) ∧ checkedAll xs = .ok xs) ∨
    (¬ (∀ x ∈ xs, x.InRange) ∧ ∃ k n, checkedAll xs = .error (.overflow .add k n))
  | [] => Or.inl ⟨by simp, rfl⟩
  | x :: xs => by
    rcases checked_cases x with ⟨hx, h⟩ | ⟨hx, k, n, h⟩
    · rcases checkedAll_cases xs with ⟨hxs, h'⟩ | ⟨hxs, k, n, h'⟩
      · exact Or.inl ⟨List.forall_mem_cons.mpr ⟨hx, hxs⟩, by simp [checkedAll, h, h']⟩
      · refine Or.inr ⟨fun hall => hxs (List.forall_mem_cons.mp hall).2, k, n, ?_⟩
        simp [checkedAll, h, h']
    · refine Or.inr ⟨fun hall => hx (List.forall_mem_cons.mp hall).1, k, n, ?_⟩
      simp [checkedAll, h]

end

theorem checkedAll_of_inRange {xs : List (Diff C)} (h : ∀ x ∈ xs, x.InRange) :
    checkedAll xs = .ok xs :=
  (checkedAll_cases xs).elim And.right fun h' => absurd h h'.1

/-- Components are added as they are merged, if counterparts are, and the rest is kept. -/
theorem addAll_eq {xs ys : List (Diff C)} (hxs : ∀ x ∈ xs, x.InRange) (hys : ∀ y ∈ ys, y.InRange)
    (h : ∀ p ∈ xs.zip ys, p.2.isA p.1.typeOf = true ∧ p.1.add p.2 = (merge p.1 p.2).checked) :
    checkedAll (mergeAll xs ys) =
      (addAll xs ys).map fun zs => zs ++ xs.drop ys.length ++ ys.drop xs.length := by
  induction xs generalizing ys with
  | nil => simp [mergeAll, addAll, checkedAll_of_inRange hys]
  | cons x xs ih =>
    cases ys with
    | nil => simp [mergeAll, addAll, checkedAll_of_inRange hxs]
    | cons y ys =>
      obtain ⟨hisA, hadd⟩ := h (x, y) List.mem_cons_self
      have hrest := ih (fun z hz => hxs z (List.mem_cons_of_mem _ hz))
        (fun z hz => hys z (List.mem_cons_of_mem _ hz)) fun p hp => h p (List.mem_cons_of_mem _ hp)
      simp only [mergeAll, addAll, checkedAll, hrest, coerce_of_isA hisA, hadd, ok_bind]
      cases (merge x y).checked with
      | error f => rfl
      | ok z => cases addAll xs ys <;> simp

/-- A value whose integers lie in their ranges, and of which copies can be made. -/
structure Summand (x : Diff C) : Prop where
  inRange : x.InRange
  clonable : x.clonable = true

theorem Summand.part {x y : Diff C} (h : x.Summand) (hy : y ∈ x.parts) : y.Summand := by
  refine ⟨fun path k n hleaf => ?_, clonable_of_mem_parts h.clonable hy⟩
  obtain ⟨i, hi⟩ := List.getElem?_of_mem hy
  apply h.inRange (i :: path) k n
  rw [leafAt_cons, hi]
  exact hleaf

/-- The second value is an operand that the first one takes as it is: at every place that both have,
its integer is of the kind of the other, or of a special case of that kind. -/
inductive Takes : Diff C → Diff C → Prop where
  | int {k l : IntKind} {m n : Int} (kind : l.isSub k = true) : Takes (int k m) (int l n)
  | present : Takes present present
  | tuple {ts : List (DiffType C)} {xs ys : List (Diff C)} (length_eq : xs.length = ys.length)
      (components : ∀ p ∈ xs.zip ys, Takes p.1 p.2) : Takes (tuple (some ts) xs) (tuple (some ts) ys)
  | vec {t : DiffType C} {xs ys : List (Diff C)} (elements : ∀ p ∈ xs.zip ys, Takes p.1 p.2) :
      Takes (vec (some t) xs) (vec (some t) ys)

namespace Takes

variable {x y : Diff C}

theorem isA (h : Takes x y) : y.isA x.typeOf = true := by
  cases h with
  | int kind => exact kind
  | present | tuple | vec => exact DiffType.isSub_self _

/-- The sum of a value and an operand that it takes is their merge, once it is checked. -/
theorem add_eq (h : Takes x y) (hx : x.Summand) (hy : y.Summand) :
    x.add y = (merge x y).checked := by
  induction h with
  | int =>
    simp only [add, IntKind.add, IntKind.fit_eq, merge, checked]
    split <;> rfl
  | present => rfl
  | @tuple ts xs ys length_eq components ih =>
    have hall := addAll_eq (fun _ h => (hx.part h).inRange) (fun _ h => (hy.part h).inRange)
      fun p hp => by
        obtain ⟨hpx, hpy⟩ := List.of_mem_zip hp
        exact ⟨(components p hp).isA, ih p hp (hx.part hpx) (hy.part hpy)⟩
    have hclone := cloneAll_parts hx.clonable
    simp only [parts] at hall hclone
    simp only [add, merge, checked, parts, hall, hclone, ok_bind]
    cases addAll xs ys with
    | error f => rfl
    | ok zs => simp [length_eq]
  | @vec t xs ys elements ih =>
    have hall := addAll_eq (fun _ h => (hx.part h).inRange) (fun _ h => (hy.part h).inRange)
      fun p hp => by
        obtain ⟨hpx, hpy⟩ := List.of_mem_zip hp
        exact ⟨(elements p hp).isA, ih p hp (hx.part hpx) (hy.part hpy)⟩
    have hclone := cloneAll_parts hx.clonable
    have hrest : cloneAll (ys.drop xs.length) = .ok (ys.drop xs.length) :=
      cloneAll_eq fun y h => (hy.part (List.mem_of_mem_drop h)).clonable
    simp only [parts] at hall hclone
    simp only [add, merge, checked, parts, hall, hclone, ok_bind]
    cases addAll xs ys with
    | error f => rfl
    | ok zs => simp [hrest]

theorem plus_eq (h : Takes x y) (hx : x.Summand) (hy : y.Summand) :
    x.plus (.diff y) = (merge x y).checked := by
  simp [plus, coerce_of_isA h.isA, h.add_eq hx hy]

end Takes

namespace Shaped

variable {P Q : IntKind → Int → Prop} {t : DiffType C} {x y : Diff C}

theorem inRange (h : Shaped IntKind.Holds t x) : x.InRange := h.holds_iff_inRange.mp h

theorem takes (hx : Shaped P t x) (hy : Shaped Q t y) : Takes x y := by
  induction hx generalizing y with
  | int =>
    cases hy with
    | int => exact .int (IntKind.isSub_self _)
  | present =>
    cases hy with
    | present => exact .present
  | @tuple ts xs length_eq _ ih =>
    cases hy with
    | @tuple _ ys length_eq' components' =>
      refine .tuple (length_eq.symm.trans length_eq') fun p hp => ?_
      obtain ⟨i, hi⟩ := List.getElem?_of_mem hp
      obtain ⟨hpx, hpy⟩ := List.getElem?_zip_eq_some.mp hi
      obtain ⟨t, ht⟩ := exists_getElem?_eq length_eq' hpy
      exact ih (t, p.1) (mem_zip_of_getElem? ht hpx) (components' _ (mem_zip_of_getElem? ht hpy))
  | vec _ ih =>
    cases hy with
    | vec elements' =>
      refine .vec fun p hp => ?_
      obtain ⟨hpx, hpy⟩ := List.of_mem_zip hp
      exact ih _ hpx (elements' _ hpy)

theorem summand (h : Shaped IntKind.Holds t x) : x.Summand := ⟨h.inRange, h.clonable⟩

theorem plus_eq (hx : Shaped IntKind.Holds t x) (hy : Shaped IntKind.Holds t y) :
    x.plus (.diff y) = (merge x y).checked :=
  (hx.takes hy).plus_eq hx.summand hy.summand

theorem holds_merge {R : IntKind → Int → Prop} (hx : Shaped Q t x) (hy : Shaped R t y)
    (h : (merge x y).InRange) : Shaped IntKind.Holds t (merge x y) := by
  have hmerge := hx.merged hy (R := fun _ _ => True) (fun _ _ _ => trivial)
    (fun _ _ _ => trivial) fun _ _ _ _ _ => trivial
  exact hmerge.holds_iff_inRange.mpr h

/-- A sum is the merge of its operands if that is in range, and overflows otherwise. -/
theorem plus_cases (hx : Shaped IntKind.Holds t x) (hy : Shaped IntKind.Holds t y) :
    (x.plus (.diff y) = .ok (merge x y) ∧ Shaped IntKind.Holds t (merge x y)) ∨
    (¬ (merge x y).InRange ∧ ∃ k n, x.plus (.diff y) = .error (.overflow .add k n)) := by
  rw [hx.plus_eq hy]
  exact (checked_cases (merge x y)).imp_left fun ⟨hrange, h⟩ => ⟨h, hx.holds_merge hy hrange⟩

end Shaped

end DiffAlgebra.Diff
