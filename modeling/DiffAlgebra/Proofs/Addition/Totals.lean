import DiffAlgebra.Proofs.Addition.Checked
import DiffAlgebra.Proofs.Addition.Columns

/-!
# Totals

The total of a list of exact values of one type is their merge, if it is reached. A sum that traps
is the only way to fail, and without trapping signed integers none does as long as the columns fit.
-/

namespace DiffAlgebra.Diff

variable {C : Catalog}

/-- What the total of a list comes to: the exact merge of the list, or an overflow. -/
def TotalOf (t : DiffType C) (xs : List (Diff C)) (r : Except Fault (Diff C)) : Prop :=
  (∃ z, r = .ok z ∧ mergeList xs = some z ∧ Shaped IntKind.Holds t z) ∨
  ∃ f, r = .error f ∧ f.kind = .overflow ∧ (t.Over (·.family ≠ .signed) → ¬ ColumnsFit xs)

variable {t : DiffType C} {x y : Diff C} {xs : List (Diff C)}

/-- A sum is the merge of its operands, or it traps, and then the columns do not fit, whatever
values come after. -/
theorem plus_cases (hx : Shaped IntKind.Holds t x) (hy : Shaped IntKind.Holds t y)
    (hxs : ∀ z ∈ xs, Shaped IntKind.Holds t z) :
    (x.plus (.diff y) = .ok (merge x y) ∧ Shaped IntKind.Holds t (merge x y)) ∨
    ∃ f, x.plus (.diff y) = .error f ∧ f.kind = .overflow ∧
      (t.Over (·.family ≠ .signed) → ¬ ColumnsFit (x :: y :: xs)) := by
  refine (hx.plus_cases hy).imp_right fun ⟨hrange, k, n, h⟩ => ⟨_, h, rfl, fun ht hfit => hrange ?_⟩
  exact inRange_merge (hx.bounded ht) (hy.bounded ht) (fun z hz => (hxs z hz).bounded ht) hfit

private theorem totalOf_plusAll (hx : Shaped IntKind.Holds t x)
    (hxs : ∀ y ∈ xs, Shaped IntKind.Holds t y) :
    TotalOf t (x :: xs) (x.plusAll (xs.map .diff)) := by
  induction xs generalizing x with
  | nil => exact Or.inl ⟨x, rfl, rfl, hx⟩
  | cons y ys ih =>
    have hy := hxs y List.mem_cons_self
    have hys := fun z hz => hxs z (List.mem_cons_of_mem _ hz)
    rw [List.map_cons, plusAll]
    rcases plus_cases hx hy hys with ⟨h, hshape⟩ | ⟨f, hf, hfault⟩
    · rw [h, ok_bind]
      have hmerge : mergeList (merge x y :: ys) = mergeList (x :: y :: ys) := by
        have hpair : ∀ z ∈ [x, y], Shaped IntKind.Holds t z := by simp [hx, hy]
        exact (mergeList_append hpair hys).symm
      rcases ih hshape hys with ⟨w, hw, hws, hshape'⟩ | ⟨f, hf, hkind, hfit⟩
      · exact Or.inl ⟨w, hw, hmerge.symm.trans hws, hshape'⟩
      · refine Or.inr ⟨f, hf, hkind, fun ht hfit' => hfit ht ?_⟩
        exact hfit'.congr (List.forall_mem_cons.mpr ⟨hx, hxs⟩)
          (List.forall_mem_cons.mpr ⟨hshape, hys⟩) hmerge.symm
    · rw [hf, error_bind]
      exact Or.inr ⟨f, rfl, hfault⟩

theorem totalOf_accumulate (hx : Shaped IntKind.Holds t x)
    (hxs : ∀ y ∈ xs, Shaped IntKind.Holds t y) :
    TotalOf t (x :: xs) (accumulate ((x :: xs).map .diff)) := by
  rw [List.map_cons, accumulate_cons hx.clonable]
  exact totalOf_plusAll hx hxs

end DiffAlgebra.Diff
