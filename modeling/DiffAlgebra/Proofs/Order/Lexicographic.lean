import DiffAlgebra.Diff.Order
import DiffAlgebra.Proofs.Shape

/-!
# The lexicographic order of values

Where "less" is answered with true, the values stand in the lexicographic order of their leaves: the
first components that are not equal decide, and the lengths if there are none. The answer is
transitive whatever the leaves are, no value is less than itself, and among the values of a type
over integers and presence markers there always is an answer.
-/

namespace DiffAlgebra.Diff

variable {C : Catalog}

/-- The order of integers carried to composite values of one type, lexicographically. -/
inductive Precedes : Diff C → Diff C → Prop where
  | int {k : IntKind} {m n : Int} (less : m < n) : Precedes (.int k m) (.int k n)
  | tuple {ts : Option (List (DiffType C))} {xs ys : List (Diff C)} (less : List.Lex Precedes xs ys) :
      Precedes (.tuple ts xs) (.tuple ts ys)
  | vec {t : Option (DiffType C)} {xs ys : List (Diff C)} (less : List.Lex Precedes xs ys) :
      Precedes (.vec t xs) (.vec t ys)

private theorem lessAll?_self (xs : List (Diff C)) : lessAll? xs xs = some false := by
  induction xs with
  | nil => rfl
  | cons x xs ih => simp [lessAll?, ih]

private theorem less?_self_ne (x : Diff C) : less? x x ≠ some true := by
  cases x <;> simp [less?, lessAll?_self]

theorem ne_of_less? {x y : Diff C} (h : less? x y = some true) : x ≠ y := by
  rintro rfl
  exact less?_self_ne x h

theorem lessAll?_cons_eq_true {x y : Diff C} {xs ys : List (Diff C)} :
    lessAll? (x :: xs) (y :: ys) = some true ↔
      (x = y ∧ lessAll? xs ys = some true) ∨ less? x y = some true := by
  simp only [lessAll?]
  split
  · rename_i heq
    have hne : less? x y ≠ some true := fun h => ne_of_less? h heq
    simp only [heq, true_and, or_iff_left (heq ▸ hne)]
  · rename_i hne
    simp only [hne, false_and, false_or]

mutual

theorem less?_trans : (x : Diff C) → {y z : Diff C} → less? x y = some true →
    less? y z = some true → less? x z = some true
  | .int k m, y, z, hxy, hyz => by
    cases y <;> simp only [less?, reduceCtorEq] at hxy
    cases z <;> simp only [less?, reduceCtorEq] at hyz
    grind [less?]
  | .present, y, z, hxy, _ => by cases y <;> simp [less?] at hxy
  | .custom n s, y, z, hxy, _ => by simp [less?] at hxy
  | .tuple ts xs, y, z, hxy, hyz => by
    cases y <;> simp only [less?, reduceCtorEq, Option.ite_none_right_eq_some] at hxy
    cases z <;> simp only [less?, reduceCtorEq, Option.ite_none_right_eq_some] at hyz
    simpa [less?, hxy.1, hyz.1] using lessAll?_trans xs hxy.2 hyz.2
  | .vec t xs, y, z, hxy, hyz => by
    cases y <;> simp only [less?, reduceCtorEq, Option.ite_none_right_eq_some] at hxy
    cases z <;> simp only [less?, reduceCtorEq, Option.ite_none_right_eq_some] at hyz
    simpa [less?, hxy.1, hyz.1] using lessAll?_trans xs hxy.2 hyz.2

theorem lessAll?_trans : (xs : List (Diff C)) → {ys zs : List (Diff C)} →
    lessAll? xs ys = some true → lessAll? ys zs = some true → lessAll? xs zs = some true
  | [], [], zs, hxy, _ => by simp [lessAll?] at hxy
  | [], y :: ys, [], _, hyz => by simp [lessAll?] at hyz
  | [], y :: ys, z :: zs, _, _ => rfl
  | x :: xs, [], zs, hxy, _ => by simp [lessAll?] at hxy
  | x :: xs, y :: ys, [], _, hyz => by simp [lessAll?] at hyz
  | x :: xs, y :: ys, z :: zs, hxy, hyz => by
    rw [lessAll?_cons_eq_true] at hxy hyz ⊢
    rcases hxy with ⟨rfl, hxy⟩ | hxy
    · rcases hyz with ⟨rfl, hyz⟩ | hyz
      · exact .inl ⟨rfl, lessAll?_trans xs hxy hyz⟩
      · exact .inr hyz
    · rcases hyz with ⟨rfl, hyz⟩ | hyz
      · exact .inr hxy
      · exact .inr (less?_trans x hxy hyz)

end

mutual

theorem less?_eq_true_iff : (x y : Diff C) → (less? x y = some true ↔ Precedes x y)
  | .int k m, y => by
    constructor
    · intro h
      cases y <;> simp only [less?, reduceCtorEq, Option.ite_none_right_eq_some] at h
      obtain ⟨rfl, h⟩ := h
      exact .int (by simpa using h)
    · rintro ⟨less⟩
      simpa [less?] using less
  | .present, y => by
    constructor
    · intro h
      cases y <;> simp [less?] at h
    · nofun
  | .custom n s, y => by
    constructor
    · intro h
      simp [less?] at h
    · nofun
  | .tuple ts xs, y => by
    constructor
    · intro h
      cases y <;> simp only [less?, reduceCtorEq, Option.ite_none_right_eq_some] at h
      obtain ⟨rfl, h⟩ := h
      exact .tuple ((lessAll?_eq_true_iff xs _).mp h)
    · intro h
      cases h with
      | tuple less => simpa [less?] using (lessAll?_eq_true_iff xs _).mpr less
  | .vec t xs, y => by
    constructor
    · intro h
      cases y <;> simp only [less?, reduceCtorEq, Option.ite_none_right_eq_some] at h
      obtain ⟨rfl, h⟩ := h
      exact .vec ((lessAll?_eq_true_iff xs _).mp h)
    · intro h
      cases h with
      | vec less => simpa [less?] using (lessAll?_eq_true_iff xs _).mpr less

theorem lessAll?_eq_true_iff : (xs ys : List (Diff C)) →
    (lessAll? xs ys = some true ↔ List.Lex Precedes xs ys)
  | [], [] => by simp [lessAll?]
  | [], y :: ys => by simp [lessAll?]
  | x :: xs, [] => by simp [lessAll?]
  | x :: xs, y :: ys => by
    rw [lessAll?_cons_eq_true, List.cons_lex_cons_iff, less?_eq_true_iff x y,
      lessAll?_eq_true_iff xs ys, or_comm]

end

private theorem exists_lessAll? {xs ys : List (Diff C)}
    (h : ∀ p ∈ xs.zip ys, ∃ b, less? p.1 p.2 = some b) :
    ∃ b, lessAll? xs ys = some b := by
  induction xs generalizing ys with
  | nil => exact ⟨_, rfl⟩
  | cons x xs ih =>
    cases ys with
    | nil => exact ⟨_, rfl⟩
    | cons y ys =>
      rw [List.zip_cons_cons, List.forall_mem_cons] at h
      simp only [lessAll?]
      split
      · exact ih h.2
      · exact h.1

/-- Two values of a type over integers and presence markers are ordered. -/
theorem Shaped.exists_less? {P Q : IntKind → Int → Prop} {t : DiffType C} {x y : Diff C}
    (hx : Shaped P t x) (hy : Shaped Q t y) : ∃ b, less? x y = some b := by
  induction hx generalizing y with
  | int =>
    cases hy
    exact ⟨_, if_pos rfl⟩
  | present =>
    cases hy
    exact ⟨_, rfl⟩
  | tuple length_eq _ ih =>
    cases hy with
    | tuple _ components =>
      simp only [less?, if_true]
      refine exists_lessAll? fun p hp => ?_
      obtain ⟨i, hi⟩ := List.getElem?_of_mem hp
      obtain ⟨hleft, hright⟩ := List.getElem?_zip_eq_some.mp hi
      obtain ⟨u, hu⟩ := exists_getElem?_eq length_eq hleft
      exact ih _ (mem_zip_of_getElem? hu hleft) (components _ (mem_zip_of_getElem? hu hright))
  | vec _ ih =>
    cases hy with
    | vec elements =>
      simp only [less?, if_true]
      refine exists_lessAll? fun p hp => ?_
      have hmem := List.of_mem_zip hp
      exact ih _ hmem.1 (elements _ hmem.2)

end DiffAlgebra.Diff
