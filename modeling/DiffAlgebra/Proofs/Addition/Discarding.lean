import DiffAlgebra.Proofs.Addition.Padding
import DiffAlgebra.Proofs.Sharing.Results

/-!
# Zeros may be discarded

Values that test as zero may be left out of a sum. The total is the same up to padding, it tests as
zero or not as before, and leaving a zero out neither avoids an overflow nor causes one.
-/

namespace DiffAlgebra

variable {C : Catalog}

/-- The second list is the first one without some of the members that have a property. -/
inductive Discards {α : Type} (p : α → Prop) : List α → List α → Prop where
  | nil : Discards p [] []
  | keep (x : α) {xs ys : List α} (rest : Discards p xs ys) : Discards p (x :: xs) (x :: ys)
  | discard {x : α} {xs ys : List α} (h : p x) (rest : Discards p xs ys) : Discards p (x :: xs) ys

namespace Discards

variable {α β : Type} {p : β → Prop}

theorem map {f : α → β} {xs ys : List α} (h : Discards (fun x => p (f x)) xs ys) :
    Discards p (xs.map f) (ys.map f) := by
  induction h with
  | nil => exact .nil
  | keep x _ ih => exact .keep (f x) ih
  | discard h _ ih => exact .discard h ih

theorem subset {xs ys : List β} (h : Discards p xs ys) : ys ⊆ xs := by
  induction h with
  | nil => exact List.Subset.refl _
  | keep x _ ih => exact List.cons_subset_cons x ih
  | discard _ _ ih => exact List.Subset.trans ih (List.subset_cons_self _ _)

end Discards

namespace Diff

/-- Two sums come to totals that are equal up to padding, or both overflow. -/
def SameTotal (r r' : Except Fault (Diff C)) : Prop :=
  (∃ z z', r = .ok z ∧ r' = .ok z' ∧ PadEq z z') ∨
  ∃ f f', r = .error f ∧ r' = .error f' ∧ f.kind = .overflow ∧ f'.kind = .overflow

variable {t : DiffType C} {x x' y : Diff C} {ys zs : List (Diff C)}

theorem Shaped.plus_of_isZero (hx : Shaped IntKind.Holds t x) (hy : Shaped IntKind.Holds t y)
    (hy₀ : y.isZero = true) :
    x.plus (.diff y) = .ok (merge x y) ∧ Shaped IntKind.Holds t (merge x y) := by
  have hrange := (hx.padEq_merge_of_isZero hy hy₀).symm.inRange hx.inRange
  rcases hx.plus_cases hy with h | ⟨h, -⟩
  · exact h
  · exact absurd hrange h

private theorem Shaped.zero_plus (hx : Shaped IntKind.Holds t x) (hy : Shaped IntKind.Holds t y)
    (hx₀ : x.isZero = true) :
    x.plus (.diff y) = .ok (merge x y) ∧ Shaped IntKind.Holds t (merge x y) := by
  have hrange := (hx.padEq_zero_merge hy hx₀).symm.inRange hy.inRange
  rcases hx.plus_cases hy with h | ⟨h, -⟩
  · exact h
  · exact absurd hrange h

/-- Zeros may be discarded while adding to values that are equal up to padding. -/
theorem sameTotal_plusAll (h : Discards (·.isZero = true) ys zs) (hx : Shaped IntKind.Holds t x)
    (hx' : Shaped IntKind.Holds t x') (heq : PadEq x x') (hys : ∀ y ∈ ys, Shaped IntKind.Holds t y) :
    SameTotal (x.plusAll (ys.map .diff)) (x'.plusAll (zs.map .diff)) := by
  -- the totals so far differ, and stay equal up to padding, which decides for both whether a sum is
  -- in range
  induction h generalizing x x' with
  | nil => exact Or.inl ⟨x, x', rfl, rfl, heq⟩
  | keep y _ ih =>
    obtain ⟨hy, hys⟩ := List.forall_mem_cons.mp hys
    have hmerge := padEq_merge heq hx hx' hy
    simp only [List.map_cons, plusAll]
    rcases hx.plus_cases hy with ⟨hsum, hshape⟩ | ⟨hrange, k, n, hf⟩
    · rcases hx'.plus_cases hy with ⟨hsum', hshape'⟩ | ⟨hrange, -⟩
      · rw [hsum, hsum', ok_bind, ok_bind]
        exact ih hshape hshape' hmerge hys
      · exact absurd (hmerge.inRange hshape.inRange) hrange
    · rcases hx'.plus_cases hy with ⟨-, hshape'⟩ | ⟨-, k', n', hf'⟩
      · exact absurd (hmerge.symm.inRange hshape'.inRange) hrange
      · rw [hf, hf', error_bind, error_bind]
        exact Or.inr ⟨_, _, rfl, rfl, rfl, rfl⟩
  | discard hy₀ _ ih =>
    obtain ⟨hy, hys⟩ := List.forall_mem_cons.mp hys
    obtain ⟨hsum, hshape⟩ := hx.plus_of_isZero hy hy₀
    simp only [List.map_cons, plusAll, hsum, ok_bind]
    exact ih hshape hx' (hshape.padEq_trans hx' (hx.padEq_merge_of_isZero hy hy₀) heq) hys

/-- Adding to a zero may as well start with the first value that is not discarded. -/
theorem sameTotal_of_isZero (h : Discards (·.isZero = true) ys zs) (hzs : zs ≠ [])
    (hx : Shaped IntKind.Holds t x) (hx₀ : x.isZero = true)
    (hys : ∀ y ∈ ys, Shaped IntKind.Holds t y) :
    SameTotal (x.plusAll (ys.map .diff)) (accumulate (zs.map .diff)) := by
  induction h generalizing x with
  | nil => exact absurd rfl hzs
  | keep y h _ =>
    obtain ⟨hy, hys⟩ := List.forall_mem_cons.mp hys
    obtain ⟨hsum, hshape⟩ := hx.zero_plus hy hx₀
    simp only [List.map_cons, plusAll, hsum, ok_bind, accumulate, hy.clone_eq]
    exact sameTotal_plusAll h hshape hy (hx.padEq_zero_merge hy hx₀) hys
  | discard hy₀ _ ih =>
    obtain ⟨hy, hys⟩ := List.forall_mem_cons.mp hys
    obtain ⟨hsum, hshape⟩ := hx.plus_of_isZero hy hy₀
    simp only [List.map_cons, plusAll, hsum, ok_bind]
    exact ih hzs hshape ((hx.padEq_merge_of_isZero hy hy₀).isZero_eq.trans hx₀) hys

private theorem sameTotal_accumulate (h : Discards (·.isZero = true) ys zs) (hzs : zs ≠ [])
    (hys : ∀ y ∈ ys, Shaped IntKind.Holds t y) :
    SameTotal (accumulate (ys.map .diff)) (accumulate (zs.map .diff)) := by
  cases h with
  | nil => exact absurd rfl hzs
  | keep x h =>
    obtain ⟨hx, hys⟩ := List.forall_mem_cons.mp hys
    simp only [List.map_cons, accumulate, hx.clone_eq, ok_bind]
    exact sameTotal_plusAll h hx hx hx.padEq_refl hys
  | discard hx₀ h =>
    obtain ⟨hx, hys⟩ := List.forall_mem_cons.mp hys
    simp only [List.map_cons, accumulate, hx.clone_eq, ok_bind]
    exact sameTotal_of_isZero h hzs hx hx₀ hys

end Diff

namespace Session

/-- Zeros may be left out of an accumulation, as long as something is left. It reaches a total as
before, the same one up to padding, which tests as zero if the other one does, or it overflows as
before. -/
theorem accumulate_discards {t : DiffType C} (ht : t.Concrete) {xs ys : List (Object C)}
    (h : Discards (fun x => x.value.isZero = true) xs ys) (hys : ys ≠ [])
    (hexact : ∀ x ∈ xs, Diff.Exact t x.value) {v w : Value C} (hv : v.items = .ok (xs.map .diff))
    (hw : w.items = .ok (ys.map .diff)) {n₁ n₂ : Nat}
    (hlabels : ∀ l ∈ Object.labelsAll xs, l < n₁ ∧ l < n₂) :
    (∃ z₁ z₂, (accumulate v n₁).result = .ok (.diff z₁) ∧
      (accumulate w n₂).result = .ok (.diff z₂) ∧ Diff.PadEq z₁.value z₂.value ∧
      isZero (.diff z₁) = isZero (.diff z₂)) ∨
    ∃ f₁ f₂, (accumulate v n₁).result = .error f₁ ∧ (accumulate w n₂).result = .error f₂ ∧
      f₁.kind = .overflow ∧ f₂.kind = .overflow := by
  have hlabels₂ : ∀ l ∈ Object.labelsAll ys, l < n₂ := by
    intro l hl
    rw [Object.labelsAll_eq_flatMap] at hl
    obtain ⟨y, hy, hly⟩ := List.mem_flatMap.mp hl
    refine (hlabels l ?_).2
    rw [Object.labelsAll_eq_flatMap]
    exact List.mem_flatMap.mpr ⟨y, h.subset hy, hly⟩
  have hshaped : ∀ d ∈ xs.map Object.value, Diff.Shaped IntKind.Holds t d := by
    intro d hd
    obtain ⟨x, hx, rfl⟩ := List.mem_map.mp hd
    exact (hexact x hx).shaped_holds ht
  have hvalues : Discards (·.isZero = true) (xs.map Object.value) (ys.map Object.value) := h.map
  have htotal := Diff.sameTotal_accumulate hvalues (by simpa using hys) hshaped
  obtain ⟨r₁, hr₁, hvalue₁⟩ := accumulate_eq hv fun l hl => (hlabels l hl).1
  obtain ⟨r₂, hr₂, hvalue₂⟩ := accumulate_eq hw hlabels₂
  rw [hr₁, hr₂]
  rw [hvalue₁, hvalue₂] at htotal
  rcases htotal with ⟨d₁, d₂, h₁, h₂, heq⟩ | ⟨f₁, f₂, h₁, h₂, hkinds⟩
  · obtain ⟨z₁, rfl, rfl⟩ := map_eq_ok.mp h₁
    obtain ⟨z₂, rfl, rfl⟩ := map_eq_ok.mp h₂
    exact Or.inl ⟨z₁, z₂, rfl, rfl, heq, congrArg (fun b => Except.ok (Datum.bool b)) heq.isZero_eq⟩
  · obtain rfl := map_eq_error.mp h₁
    obtain rfl := map_eq_error.mp h₂
    exact Or.inr ⟨f₁, f₂, rfl, rfl, hkinds⟩

/-- The zeros are sequences of two and of three zeros, of which one comes first. The total without
them is shorter. -/
theorem accumulate_discards_ragged :
    let k : IntKind := ⟨.unsigned, .w8⟩
    let x₁ : Object specimens := .vec 1 (some (.int k)) [.int 2 k 0, .int 3 k 0]
    let x₂ : Object specimens := .vec 4 (some (.int k)) [.int 5 k 7]
    let x₃ : Object specimens := .vec 6 (some (.int k)) [.int 7 k 0, .int 8 k 0, .int 9 k 0]
    ∃ z₁ z₂, (accumulate (.list 0 [.diff x₁, .diff x₂, .diff x₃]) 10).result = .ok (.diff z₁) ∧
      (accumulate (.tuple 0 [.diff x₂]) 10).result = .ok (.diff z₂) ∧ z₁.value ≠ z₂.value ∧
      Diff.PadEq z₁.value z₂.value ∧ isZero (.diff z₁) = isZero (.diff z₂) := by
  intro k x₁ x₂ x₃
  have h : Discards (fun x : Object specimens => x.value.isZero = true) [x₁, x₂, x₃] [x₂] :=
    .discard rfl (.keep x₂ (.discard rfl .nil))
  have hexact : ∀ x ∈ [x₁, x₂, x₃], Diff.Exact (.vec (.int k)) x.value := by
    intro x hx
    simp only [List.mem_cons, List.not_mem_nil, or_false] at hx
    rcases hx with rfl | rfl | rfl
    all_goals
      refine .vec fun e he => ?_
      simp only [Object.valueAll, Object.value, List.mem_cons, List.not_mem_nil, or_false] at he
      rcases he with rfl | rfl | rfl
      all_goals exact .int (by decide)
  have hlabels : ∀ l ∈ Object.labelsAll [x₁, x₂, x₃], l < 10 ∧ l < 10 := by decide
  have hresult := accumulate_discards (v := .list 0 [.diff x₁, .diff x₂, .diff x₃])
    (w := .tuple 0 [.diff x₂]) (.vec (.int k)) h (by simp) hexact rfl rfl hlabels
  have h₁ : (accumulate (.list 0 [.diff x₁, .diff x₂, .diff x₃]) 10).result =
      .ok (.diff (.vec 10 (some (.int k)) [.int 15 k 7, .int 16 k 0, .int 17 k 0])) := by rfl
  have h₂ : (accumulate (.tuple 0 [.diff x₂]) 10).result =
      .ok (.diff (.vec 10 (some (.int k)) [.int 11 k 7])) := by rfl
  rw [h₁, h₂] at hresult
  refine ⟨_, _, h₁, h₂, by simp [Object.value, Object.valueAll], ?_⟩
  rcases hresult with ⟨z₁, z₂, hz₁, hz₂, hresult⟩ | ⟨f, -, hf, -⟩
  · cases hz₁
    cases hz₂
    exact hresult
  · cases hf

end Session

end DiffAlgebra
