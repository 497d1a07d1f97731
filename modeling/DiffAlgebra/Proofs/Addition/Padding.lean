import DiffAlgebra.Proofs.Addition.Checked

/-!
# Values up to padding

Many values test as zero that are not the zero of their type, such as sequences of zeros of any
length. Adding one of them may lengthen a sequence, so it leaves a value as it is only up to zeros
beyond the ends of its sequences. That relation is an equivalence of values of one type, and neither
sums nor the test for zero nor the check of ranges tell related values apart.
-/

namespace DiffAlgebra.Diff

variable {C : Catalog}

/-- Two values are equal up to padding: elements that one of two sequences has beyond the end of the
other are zero. -/
inductive PadEq : Diff C → Diff C → Prop where
  | int (k : IntKind) (n : Int) : PadEq (int k n) (int k n)
  | present : PadEq present present
  | tuple {ts : Option (List (DiffType C))} {xs ys : List (Diff C)}
      (length_eq : xs.length = ys.length)
      (components : ∀ (i : Nat) x y, xs[i]? = some x → ys[i]? = some y → PadEq x y) :
      PadEq (tuple ts xs) (tuple ts ys)
  | vec {t : Option (DiffType C)} {xs ys : List (Diff C)}
      (common : ∀ (i : Nat) x y, xs[i]? = some x → ys[i]? = some y → PadEq x y)
      (left : ∀ (i : Nat) x, xs[i]? = some x → ys[i]? = none → x.isZero = true)
      (right : ∀ (i : Nat) y, xs[i]? = none → ys[i]? = some y → y.isZero = true) :
      PadEq (vec t xs) (vec t ys)

/-- The second value is the first one with zeros added beyond the ends of its sequences. -/
inductive PaddedTo : Diff C → Diff C → Prop where
  | int (k : IntKind) (n : Int) : PaddedTo (int k n) (int k n)
  | present : PaddedTo present present
  | tuple {ts : Option (List (DiffType C))} {xs ys : List (Diff C)}
      (length_eq : xs.length = ys.length)
      (components : ∀ (i : Nat) x y, xs[i]? = some x → ys[i]? = some y → PaddedTo x y) :
      PaddedTo (tuple ts xs) (tuple ts ys)
  | vec {t : Option (DiffType C)} {xs ys : List (Diff C)} (length_le : xs.length ≤ ys.length)
      (common : ∀ (i : Nat) x y, xs[i]? = some x → ys[i]? = some y → PaddedTo x y)
      (padding : ∀ (i : Nat) y, xs[i]? = none → ys[i]? = some y → y.isZero = true) :
      PaddedTo (vec t xs) (vec t ys)

theorem PaddedTo.padEq {x y : Diff C} (h : PaddedTo x y) : PadEq x y := by
  induction h with
  | int k n => exact .int k n
  | present => exact .present
  | tuple length_eq _ ih => exact .tuple length_eq ih
  | vec length_le _ padding ih =>
    refine .vec ih (fun i x hx hy => ?_) padding
    have hlt := (List.getElem?_eq_some_iff.mp hx).1
    have hle := List.getElem?_eq_none_iff.mp hy
    omega

theorem isZeroAll_iff {xs : List (Diff C)} :
    isZeroAll xs = true ↔ ∀ (i : Nat) x, xs[i]? = some x → x.isZero = true := by
  rw [isZeroAll_eq_all, List.all_eq_true]
  refine ⟨fun h i x hx => h x (List.mem_of_getElem? hx), fun h x hx => ?_⟩
  obtain ⟨i, hi⟩ := List.getElem?_of_mem hx
  exact h i x hi

private theorem isZero_of_mem_parts {x y : Diff C} (hx : x.isZero = true) (hy : y ∈ x.parts) :
    y.isZero = true := by
  obtain ⟨i, hi⟩ := List.getElem?_of_mem hy
  cases x with
  | int | present | custom => cases hy
  | tuple | vec => exact isZeroAll_iff.mp hx i y hi

theorem PadEq.symm {x y : Diff C} (h : PadEq x y) : PadEq y x := by
  induction h with
  | int k n => exact .int k n
  | present => exact .present
  | tuple length_eq _ ih => exact .tuple length_eq.symm fun i y x hy hx => ih i x y hx hy
  | vec _ left right ih =>
    exact .vec (fun i y x hy hx => ih i x y hx hy) (fun i y hy hx => right i y hx hy)
      fun i x hy hx => left i x hx hy

theorem PadEq.isZero_of_isZero {x y : Diff C} (h : PadEq x y) (hx : x.isZero = true) :
    y.isZero = true := by
  induction h with
  | int | present => exact hx
  | @tuple _ xs ys length_eq _ ih =>
    refine isZeroAll_iff.mpr fun i y hy => ?_
    obtain ⟨x, hxi⟩ := exists_getElem?_eq length_eq hy
    exact ih i x y hxi hy (isZeroAll_iff.mp hx i x hxi)
  | @vec _ xs ys _ _ right ih =>
    refine isZeroAll_iff.mpr fun i y hy => ?_
    cases hxi : xs[i]? with
    | none => exact right i y hxi hy
    | some x => exact ih i x y hxi hy (isZeroAll_iff.mp hx i x hxi)

theorem PadEq.isZero_eq {x y : Diff C} (h : PadEq x y) : x.isZero = y.isZero :=
  Bool.eq_iff_iff.mpr ⟨h.isZero_of_isZero, h.symm.isZero_of_isZero⟩

namespace Shaped

variable {P Q : IntKind → Int → Prop} {t : DiffType C} {x y z : Diff C}

theorem paddedTo_refl (h : Shaped P t x) : PaddedTo x x := by
  induction h with
  | int => exact .int _ _
  | present => exact .present
  | @tuple ts xs length_eq _ ih =>
    refine .tuple rfl fun i x y hx hy => ?_
    cases hx.symm.trans hy
    obtain ⟨t, ht⟩ := exists_getElem?_eq length_eq hx
    exact ih (t, x) (mem_zip_of_getElem? ht hx)
  | vec _ ih =>
    refine .vec (Nat.le_refl _) (fun i x y hx hy => ?_) fun i y hnone hy => ?_
    · cases hx.symm.trans hy
      exact ih x (List.mem_of_getElem? hx)
    · cases hy.symm.trans hnone

theorem padEq_refl (h : Shaped P t x) : PadEq x x := h.paddedTo_refl.padEq

/-- All zeros of one type are equal up to padding. -/
theorem padEq_of_isZero (hx : Shaped P t x) (hy : Shaped Q t y) (hx₀ : x.isZero = true)
    (hy₀ : y.isZero = true) : PadEq x y := by
  induction hx generalizing y with
  | int =>
    cases hy with
    | int =>
      simp only [isZero, beq_iff_eq] at hx₀ hy₀
      subst hx₀ hy₀
      exact .int _ _
  | present => cases hx₀
  | @tuple ts xs length_eq _ ih =>
    cases hy with
    | @tuple _ ys length_eq' components =>
      have hxs₀ := isZeroAll_iff.mp hx₀
      have hys₀ := isZeroAll_iff.mp hy₀
      refine .tuple (length_eq.symm.trans length_eq') fun i x y hx hy => ?_
      obtain ⟨t, ht⟩ := exists_getElem?_eq length_eq' hy
      have hyt := components (t, y) (mem_zip_of_getElem? ht hy)
      exact ih (t, x) (mem_zip_of_getElem? ht hx) hyt (hxs₀ i x hx) (hys₀ i y hy)
  | vec _ ih =>
    cases hy with
    | vec elements =>
      have hxs₀ := isZeroAll_iff.mp hx₀
      have hys₀ := isZeroAll_iff.mp hy₀
      refine .vec (fun i x y hx hy => ?_) (fun i x hx _ => hxs₀ i x hx) fun i y _ hy => hys₀ i y hy
      exact ih x (List.mem_of_getElem? hx) (elements y (List.mem_of_getElem? hy)) (hxs₀ i x hx)
        (hys₀ i y hy)

/-- Equality up to padding is transitive, between values of one type. -/
theorem padEq_trans (hx : Shaped P t x) (hz : Shaped Q t z) (hxy : PadEq x y) (hyz : PadEq y z) :
    PadEq x z := by
  induction hxy generalizing t z with
  | int | present => exact hyz
  | @tuple ts xs ys length_eq _ ih =>
    cases hyz with
    | tuple length_eq' components =>
      refine .tuple (length_eq.trans length_eq') fun i x z hxi hzi => ?_
      obtain ⟨y, hy⟩ := exists_getElem?_eq length_eq' hzi
      obtain ⟨u, hxu, hu⟩ := hx.part hxi
      exact ih i x y hxi hy hxu (hu hz hzi) (components i y z hy hzi)
  | @vec _ xs ys common left right ih =>
    cases hyz with
    | vec common' left' right' =>
      refine .vec (fun i x z hxi hzi => ?_) (fun i x hxi hzi => ?_) fun i z hxi hzi => ?_
      · obtain ⟨u, hxu, hu⟩ := hx.part hxi
        -- where the one in the middle has ended both others are zero, though not of one length
        cases hyi : ys[i]? with
        | none => exact hxu.padEq_of_isZero (hu hz hzi) (left i x hxi hyi) (right' i z hyi hzi)
        | some y => exact ih i x y hxi hyi hxu (hu hz hzi) (common' i y z hyi hzi)
      · cases hyi : ys[i]? with
        | none => exact left i x hxi hyi
        | some y => exact (common i x y hxi hyi).isZero_eq.trans (left' i y hyi hzi)
      · cases hyi : ys[i]? with
        | none => exact right' i z hyi hzi
        | some y => exact (common' i y z hyi hzi).isZero_of_isZero (right i y hxi hyi)

end Shaped

/-- The integers of a zero are zeros, which lie in every range. -/
theorem inRange_of_isZero {x : Diff C} (h : x.isZero = true) : x.InRange := by
  intro path k n hleaf
  induction path generalizing x with
  | nil =>
    cases x with
    | int =>
      cases hleaf
      simp only [isZero, beq_iff_eq] at h
      exact h ▸ k.holds_zero
    | present | custom | tuple | vec => cases hleaf
  | cons i path ih =>
    rw [leafAt_cons] at hleaf
    obtain ⟨y, hy, hleaf⟩ := Option.bind_eq_some_iff.mp hleaf
    exact ih (isZero_of_mem_parts h (List.mem_of_getElem? hy)) hleaf

/-- Padding does not matter to whether integers lie in their ranges. -/
theorem PadEq.inRange {x y : Diff C} (h : PadEq x y) (hx : x.InRange) : y.InRange := by
  induction h with
  | int | present => exact hx
  | tuple length_eq _ ih =>
    rw [inRange_iff_parts (by simp)] at hx ⊢
    intro y hy
    obtain ⟨i, hyi⟩ := List.getElem?_of_mem hy
    obtain ⟨x, hxi⟩ := exists_getElem?_eq length_eq hyi
    exact ih i x y hxi hyi (hx x (List.mem_of_getElem? hxi))
  | @vec _ xs _ _ _ right ih =>
    rw [inRange_iff_parts (by simp)] at hx ⊢
    intro y hy
    obtain ⟨i, hyi⟩ := List.getElem?_of_mem hy
    cases hxi : xs[i]? with
    | none => exact inRange_of_isZero (right i y hxi hyi)
    | some x => exact ih i x y hxi hyi (hx x (List.mem_of_getElem? hxi))

inductive PadAt : Option (Diff C) → Option (Diff C) → Prop where
  | none : PadAt none none
  | both {x y : Diff C} (h : PadEq x y) : PadAt (some x) (some y)
  | left {x : Diff C} (h : x.isZero = true) : PadAt (some x) none
  | right {y : Diff C} (h : y.isZero = true) : PadAt none (some y)

theorem padEq_vec_iff {t : Option (DiffType C)} {xs ys : List (Diff C)} :
    PadEq (vec t xs) (vec t ys) ↔ ∀ i : Nat, PadAt xs[i]? ys[i]? := by
  constructor
  · rintro (_ | _ | _ | ⟨common, left, right⟩) i
    cases hx : xs[i]? with
    | none =>
      cases hy : ys[i]? with
      | none => exact .none
      | some y => exact .right (right i y hx hy)
    | some x =>
      cases hy : ys[i]? with
      | none => exact .left (left i x hx hy)
      | some y => exact .both (common i x y hx hy)
  · intro h
    refine .vec (fun i x y hx hy => ?_) (fun i x hx hy => ?_) fun i y hx hy => ?_
    all_goals
      have hi := h i
      rw [hx, hy] at hi
      cases hi
      assumption

theorem padEq_tuple_iff {ts : Option (List (DiffType C))} {xs ys : List (Diff C)}
    (hlength : xs.length = ys.length) :
    PadEq (tuple ts xs) (tuple ts ys) ↔ ∀ i : Nat, PadAt xs[i]? ys[i]? := by
  constructor
  · rintro (_ | _ | ⟨-, components⟩ | _) i
    cases hx : xs[i]? with
    | none =>
      have hy : ys[i]? = none := by simpa [hlength] using hx
      rw [hy]
      exact .none
    | some x =>
      obtain ⟨y, hy⟩ := exists_getElem?_eq hlength.symm hx
      rw [hy]
      exact .both (components i x y hx hy)
  · intro h
    refine .tuple hlength fun i x y hx hy => ?_
    have hi := h i
    rw [hx, hy] at hi
    cases hi
    assumption

section

variable {t : DiffType C} {x x' y : Diff C}

/-- Adding a zero pads a value, if it changes it at all. -/
theorem Shaped.paddedTo_merge (hx : Shaped IntKind.Holds t x) (hy : Shaped IntKind.Holds t y)
    (hy₀ : y.isZero = true) : PaddedTo x (merge x y) := by
  induction hx generalizing y with
  | int leaf =>
    cases hy with
    | int =>
      simp only [isZero, beq_iff_eq] at hy₀
      simp only [merge, hy₀, Int.add_zero, IntKind.settle_of_holds leaf]
      exact .int _ _
  | present => exact .present
  | @tuple ts xs length_eq components ih =>
    cases hy with
    | @tuple _ ys length_eq' components' =>
      have hlength : xs.length = (mergeAll xs ys).length := by
        rw [length_mergeAll]
        omega
      refine .tuple hlength fun i x z hx hz => ?_
      obtain ⟨t, ht⟩ := exists_getElem?_eq length_eq hx
      obtain ⟨y, hyi⟩ := exists_getElem?_eq (length_eq'.symm.trans length_eq) hx
      rw [parts, getElem?_mergeAll, hx, hyi] at hz
      cases hz
      exact ih (t, x) (mem_zip_of_getElem? ht hx) (components' _ (mem_zip_of_getElem? ht hyi))
        (isZeroAll_iff.mp hy₀ i y hyi)
  | @vec t xs elements ih =>
    cases hy with
    | @vec _ ys elements' =>
      have hlength : xs.length ≤ (mergeAll xs ys).length := by
        rw [length_mergeAll]
        omega
      refine .vec hlength (fun i x z hx hz => ?_) fun i z hx hz => ?_
      all_goals rw [parts, getElem?_mergeAll, hx] at hz
      · have hxi := List.mem_of_getElem? hx
        cases hyi : ys[i]? with
        | none =>
          rw [hyi] at hz
          cases hz
          exact (elements x hxi).paddedTo_refl
        | some y =>
          rw [hyi] at hz
          cases hz
          exact ih x hxi (elements' y (List.mem_of_getElem? hyi)) (isZeroAll_iff.mp hy₀ i y hyi)
      · exact isZeroAll_iff.mp hy₀ i z (by simpa using hz)

theorem Shaped.padEq_merge_of_isZero (hx : Shaped IntKind.Holds t x)
    (hy : Shaped IntKind.Holds t y) (hy₀ : y.isZero = true) : PadEq (merge x y) x :=
  (hx.paddedTo_merge hy hy₀).padEq.symm

theorem Shaped.padEq_zero_merge (hx : Shaped IntKind.Holds t x) (hy : Shaped IntKind.Holds t y)
    (hx₀ : x.isZero = true) : PadEq (merge x y) y := by
  rw [hx.merge_comm hy]
  exact hy.padEq_merge_of_isZero hx hx₀

/-- Padding at one place before an operand is added is padding at that place afterwards, if sums of
the elements there are. -/
theorem PadAt.merged {i : Nat} (h : PadAt x.parts[i]? x'.parts[i]?)
    (hx : Shaped IntKind.Holds t x) (hx' : Shaped IntKind.Holds t x')
    (hy : Shaped IntKind.Holds t y)
    (hmerge : ∀ a a', x.parts[i]? = some a → x'.parts[i]? = some a' → ∀ {u b},
      Shaped IntKind.Holds u a → Shaped IntKind.Holds u a' → Shaped IntKind.Holds u b →
      PadEq (merge a b) (merge a' b)) :
    PadAt (mergeAll x.parts y.parts)[i]? (mergeAll x'.parts y.parts)[i]? := by
  rw [getElem?_mergeAll, getElem?_mergeAll]
  generalize ha : x.parts[i]? = o, ha' : x'.parts[i]? = o' at h hmerge
  cases hb : y.parts[i]? with
  | none =>
    rw [Option.merge_none_right, Option.merge_none_right]
    exact h
  | some b =>
    obtain ⟨u, hbu, hu⟩ := hy.part hb
    cases h with
    | none => exact .both hbu.padEq_refl
    | both => exact .both (hmerge _ _ rfl rfl (hu hx ha) (hu hx' ha') hbu)
    | left h => exact .both ((hu hx ha).padEq_zero_merge hbu h)
    | right h => exact .both ((hu hx' ha').padEq_zero_merge hbu h).symm

/-- Sums with one operand are equal up to padding if the other operands are. -/
theorem padEq_merge (h : PadEq x x') (hx : Shaped IntKind.Holds t x)
    (hx' : Shaped IntKind.Holds t x') (hy : Shaped IntKind.Holds t y) :
    PadEq (merge x y) (merge x' y) := by
  induction h generalizing t y with
  | int k n =>
    cases hy with
    | int => exact .int _ _
    | _ => cases hx
  | present => exact .present
  | @tuple ts xs xs' length_eq components ih =>
    have hlength : (mergeAll xs y.parts).length = (mergeAll xs' y.parts).length := by
      simp only [length_mergeAll, length_eq]
    refine (padEq_tuple_iff hlength).mpr fun i => ?_
    have htuple : PadEq (tuple ts xs) (tuple ts xs') := .tuple length_eq components
    have hi := (padEq_tuple_iff length_eq).mp htuple i
    exact PadAt.merged hi hx hx' hy (ih i)
  | @vec u xs xs' common left right ih =>
    refine padEq_vec_iff.mpr fun i => ?_
    have hvec : PadEq (vec u xs) (vec u xs') := .vec common left right
    have hi := padEq_vec_iff.mp hvec i
    exact PadAt.merged hi hx hx' hy (ih i)

end

end DiffAlgebra.Diff
