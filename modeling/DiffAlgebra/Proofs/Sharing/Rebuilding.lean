import DiffAlgebra.Proofs.Shape
import DiffAlgebra.Proofs.Typing.Objects

/-!
# Building objects again

A reference to a type that is composed of leaf types resolves to that very type, and the components
of a well-typed object are of the types of its own. So an object that is built again from references
is the object it was, whether this is done for the object alone or from the bottom up.
-/

namespace DiffAlgebra

variable {C : Catalog}

namespace DiffType

private theorem resolvedAll_eq {ts : List (DiffType C)} (h : ∀ t ∈ ts, t.resolved = .ok t) :
    resolvedAll ts = .ok ts := by
  induction ts with
  | nil => rfl
  | cons t ts ih =>
    obtain ⟨ht, hts⟩ := List.forall_mem_cons.mp h
    simp [resolvedAll, ht, ih hts]

namespace Composed

variable {s t : DiffType C}

/-- A reference to a type that is composed of leaf types resolves to the type. -/
theorem resolved_eq (h : t.Composed) : t.resolved = .ok t := by
  induction h with
  | int | present | custom => rfl
  | tuple _ ih => simp [resolved, resolvedAll_eq ih]
  | vec _ ih => simp [resolved, ih]

/-- Special cases of leaf types are leaf types, and other composed types have none. -/
theorem of_isSub (ht : t.Composed) (h : s.isSub t = true) : s.Composed := by
  cases ht with
  | int k =>
    cases s with
    | int l => exact .int l
    | _ => cases h
  | present =>
    cases s with
    | present => exact .present
    | _ => cases h
  | custom n =>
    cases s with
    | custom m => exact .custom m
    | _ => cases h
  | tuple components =>
    cases s with
    | tuple ss =>
      rw [eqAll_of_beqAll _ _ h]
      exact .tuple components
    | _ => cases h
  | vec element =>
    cases s with
    | vec s =>
      rw [eq_of_beq _ _ h]
      exact .vec element
    | _ => cases h

end Composed

end DiffType

namespace Diff

theorem composed_of_mem_parts {x p : Diff C} (hx : x.Fits) (ht : x.typeOf.Composed)
    (hp : p ∈ x.parts) : p.typeOf.Composed := by
  cases x with
  | int | present | custom => cases hp
  | tuple ts xs =>
    cases ts with
    | none => cases ht
    | some ts =>
      cases ht with
      | tuple components =>
        obtain ⟨t, ht, hpt⟩ := exists_mem_of_forall₂ hx hp
        exact (components t ht).of_isSub hpt
  | vec t xs =>
    cases t with
    | none => cases ht
    | some t =>
      cases ht with
      | vec element => exact element.of_isSub (hx t rfl p hp)

mutual

/-- A well-typed value of a composed type can be built again from copies of its components. -/
theorem clonable_of_composed : (x : Diff C) → x.wellTyped = true → x.typeOf.Composed →
    x.clonable = true
  | int _ _, _, _ | present, _, _ | custom _ _, _, _ => rfl
  | tuple _ xs, hx, ht => by
    obtain ⟨hfits, hparts⟩ := wellTyped_iff.mp hx
    exact clonableAll_of_composed xs hparts fun _ hp => composed_of_mem_parts hfits ht hp
  | vec (some _) xs, hx, ht => by
    obtain ⟨hfits, hparts⟩ := wellTyped_iff.mp hx
    exact clonableAll_of_composed xs hparts fun _ hp => composed_of_mem_parts hfits ht hp
  | vec none _, _, ht => nomatch ht

theorem clonableAll_of_composed : (xs : List (Diff C)) → (∀ p ∈ xs, p.wellTyped = true) →
    (∀ p ∈ xs, p.typeOf.Composed) → clonableAll xs = true
  | [], _, _ => rfl
  | x :: xs, hxs, hts => by
    obtain ⟨hx, hxs⟩ := List.forall_mem_cons.mp hxs
    obtain ⟨ht, hts⟩ := List.forall_mem_cons.mp hts
    rw [clonableAll, clonable_of_composed x hx ht, clonableAll_of_composed xs hxs hts]
    rfl

end

end Diff

namespace Object

theorem checkComponents_eq_ok {ts : List (DiffType C)} {xs : List (Object C)}
    (h : List.Forall₂ (fun t x => x.value.isA t = true) ts xs) :
    checkComponents ts xs = .ok () := by
  induction h with
  | nil => rfl
  | cons hx _ ih =>
    unfold checkComponents
    rw [if_pos hx, ih]

private theorem composeAs_tuple {l : Nat} {ts : List (DiffType C)} {xs : List (Object C)}
    (h : (tuple l (some ts) xs).value.Fits) :
    composeAs l (.tuple ts) xs = .ok (tuple l (some ts) xs) := by
  have hcheck : checkComponents ts xs = .ok () :=
    checkComponents_eq_ok (List.forall₂_map_right_iff.mp (fits_tuple.mp h))
  simp [composeAs, hcheck]

private theorem composeAs_vec {l : Nat} {t : DiffType C} {xs : List (Object C)}
    (h : (vec l (some t) xs).value.Fits) :
    composeAs l (.vec t) xs = .ok (vec l (some t) xs) := by
  have hcheck : checkComponents (xs.map fun _ => t) xs = .ok () := by
    refine checkComponents_eq_ok ?_
    rw [List.forall₂_map_left_iff, List.forall₂_same]
    exact List.forall_mem_map.mp (fits_vec.mp h t rfl)
  simp only [composeAs, hcheck, ok_bind]

/-- An object is of a composed type, and it is well typed. -/
structure Proper (x : Object C) : Prop where
  wellTyped : x.value.wellTyped = true
  composed : x.typeOf.Composed

namespace Proper

variable {x p : Object C}

theorem fits (h : x.Proper) : x.value.Fits := (Diff.wellTyped_iff.mp h.wellTyped).1

theorem part (h : x.Proper) (hp : p ∈ x.parts) : p.Proper := by
  have hpart : p.value ∈ x.value.parts := by
    rw [parts_value, valueAll_eq_map]
    exact List.mem_map_of_mem hp
  exact ⟨Diff.wellTyped_of_mem_parts h.wellTyped hpart,
    Diff.composed_of_mem_parts h.fits h.composed hpart⟩

/-- Building an object again with the components it has gives the object. -/
theorem recompose_eq (h : x.Proper) : x.recompose = .ok x := by
  have hfits := h.fits
  have hcomposed := h.composed
  cases x with
  | int | present | custom => rfl
  | tuple l ts xs =>
    cases ts with
    | none => cases hcomposed
    | some ts =>
      have hresolved : (DiffType.tuple ts).resolved = .ok (.tuple ts) := hcomposed.resolved_eq
      simp only [recompose, Diff.tupleType, hresolved, ok_bind, composeAs_tuple hfits]
  | vec l t xs =>
    cases t with
    | none => cases hcomposed
    | some t =>
      have hresolved : (DiffType.vec t).resolved = .ok (.vec t) := hcomposed.resolved_eq
      simp only [recompose, Diff.vecType, hresolved, ok_bind, composeAs_vec hfits]

/-- Building an object again from the bottom up gives the object. -/
theorem rebuild_eq (h : x.Proper) : x.rebuild = .ok x := by
  induction x using parts_induction with
  | step x ih =>
    have hparts : rebuildAll x.parts = .ok x.parts := by
      rw [rebuildAll_eq_mapM, mapM_eq_ok, List.forall₂_same]
      exact fun p hp => ih p hp (h.part hp)
    have hrecompose := h.recompose_eq
    cases x with
    | int | present | custom => rfl
    | tuple | vec =>
      rw [parts] at hparts
      rw [rebuild, hparts]
      exact hrecompose

theorem clone_eq (h : x.Proper) : x.value.clone = .ok x.value :=
  Diff.clone_eq_ok.mpr ⟨Diff.clonable_of_composed x.value h.wellTyped h.composed, rfl⟩

end Proper

end Object

end DiffAlgebra
