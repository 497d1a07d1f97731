import DiffAlgebra.Proofs.Addition.Merge

/-!
# The leaves of values

A leaf is reached from a value by the positions on the way to it. Merging merges the leaves at each
place, and a value is in range if each of its leaves is.
-/

namespace DiffAlgebra.Diff

variable {C : Catalog}

def leafAt : Diff C → List Nat → Option (IntKind × Int)
  | int k n, [] => some (k, n)
  | x, i :: path =>
    match x.parts[i]? with
    | some y => leafAt y path
    | none => none
  | _, [] => none

theorem leafAt_cons (x : Diff C) (i : Nat) (path : List Nat) :
    x.leafAt (i :: path) = x.parts[i]?.bind fun y => y.leafAt path := by
  cases x <;> cases h : (parts _)[i]? <;> simp_all [leafAt]

def InRange (x : Diff C) : Prop := ∀ path k n, x.leafAt path = some (k, n) → k.Holds n

theorem inRange_int {k : IntKind} {n : Int} : (int k n : Diff C).InRange ↔ k.Holds n := by
  constructor
  · intro h
    exact h [] k n rfl
  · rintro h (_ | ⟨i, path⟩) l m hleaf
    · cases hleaf
      exact h
    · simp [leafAt_cons, parts] at hleaf

theorem inRange_iff_parts {x : Diff C} (hx : ∀ k n, x ≠ int k n) :
    x.InRange ↔ ∀ y ∈ x.parts, y.InRange := by
  constructor
  · intro h y hy path k n hleaf
    obtain ⟨i, hi⟩ := List.getElem?_of_mem hy
    apply h (i :: path) k n
    rw [leafAt_cons, hi]
    exact hleaf
  · rintro h (_ | ⟨i, path⟩) k n hleaf
    · cases x with
      | int l m => exact absurd rfl (hx l m)
      | present | custom | tuple | vec => cases hleaf
    · rw [leafAt_cons] at hleaf
      obtain ⟨y, hy, hleaf⟩ := Option.bind_eq_some_iff.mp hleaf
      exact h y (List.mem_of_getElem? hy) path k n hleaf

namespace Shaped

variable {P Q : IntKind → Int → Prop} {t : DiffType C} {x y : Diff C}

theorem leaf (h : Shaped P t x) {path : List Nat} {k : IntKind} {n : Int}
    (hleaf : x.leafAt path = some (k, n)) : P k n := by
  induction h generalizing path with
  | int leaf =>
    cases path with
    | nil =>
      cases hleaf
      exact leaf
    | cons i path => simp [leafAt_cons, parts] at hleaf
  | present =>
    cases path with
    | nil => cases hleaf
    | cons i path => simp [leafAt_cons, parts] at hleaf
  | @tuple ts xs length_eq components ih =>
    cases path with
    | nil => cases hleaf
    | cons i path =>
      rw [leafAt_cons] at hleaf
      obtain ⟨y, hy, hleaf⟩ := Option.bind_eq_some_iff.mp hleaf
      obtain ⟨t, ht⟩ := exists_mem_zip length_eq (List.mem_of_getElem? hy)
      exact ih _ ht hleaf
  | vec elements ih =>
    cases path with
    | nil => cases hleaf
    | cons i path =>
      rw [leafAt_cons] at hleaf
      obtain ⟨y, hy, hleaf⟩ := Option.bind_eq_some_iff.mp hleaf
      exact ih y (List.mem_of_getElem? hy) hleaf

theorem of_leaves (h : Shaped P t x)
    (hleaf : ∀ path k n, x.leafAt path = some (k, n) → Q k n) : Shaped Q t x := by
  induction h with
  | int => exact .int (hleaf [] _ _ rfl)
  | present => exact .present
  | @tuple ts xs length_eq components ih =>
    refine .tuple length_eq fun p hp => ih p hp fun path k n hp' => ?_
    obtain ⟨i, hi⟩ := List.getElem?_of_mem hp
    have hx := (List.getElem?_zip_eq_some.mp hi).2
    apply hleaf (i :: path)
    simpa [leafAt_cons, parts, hx] using hp'
  | vec elements ih =>
    refine .vec fun x hx => ih x hx fun path k n hx' => ?_
    obtain ⟨i, hi⟩ := List.getElem?_of_mem hx
    apply hleaf (i :: path)
    simpa [leafAt_cons, parts, hi] using hx'

theorem holds_iff_inRange (h : Shaped P t x) : Shaped IntKind.Holds t x ↔ x.InRange :=
  ⟨fun h' _ _ _ hleaf => h'.leaf hleaf, h.of_leaves⟩

def mergeLeaf (a b : IntKind × Int) : IntKind × Int := (a.1, a.1.settle (a.2 + b.2))

/-- Values of one shape have leaves of one kind at a place, and their merge has the merged leaf. -/
theorem leafAt_merge (hx : Shaped P t x) (hy : Shaped Q t y) (path : List Nat) :
    (merge x y).leafAt path = Option.merge mergeLeaf (x.leafAt path) (y.leafAt path) := by
  induction hx generalizing y path with
  | int =>
    cases hy with
    | int =>
      cases path with
      | nil => rfl
      | cons i path => simp [leafAt_cons, merge, parts]
  | present =>
    cases hy with
    | present =>
      cases path with
      | nil => rfl
      | cons i path => simp [leafAt_cons, merge, parts]
  | @tuple ts xs _ _ ih =>
    cases hy with
    | @tuple _ ys length_eq components =>
      cases path with
      | nil => rfl
      | cons i path =>
        simp only [leafAt_cons, merge, parts, getElem?_mergeAll]
        cases hx : xs[i]? with
        | none => simp
        | some x =>
          cases hy : ys[i]? with
          | none => simp
          | some y =>
            obtain ⟨t, ht⟩ := exists_getElem?_eq length_eq hy
            have hyt := components (t, y) (mem_zip_of_getElem? ht hy)
            exact ih (t, x) (mem_zip_of_getElem? ht hx) hyt path
  | @vec _ xs _ ih =>
    cases hy with
    | @vec _ ys elements =>
      cases path with
      | nil => rfl
      | cons i path =>
        simp only [leafAt_cons, merge, parts, getElem?_mergeAll]
        cases hx : xs[i]? with
        | none => simp
        | some x =>
          cases hy : ys[i]? with
          | none => simp
          | some y =>
            exact ih x (List.mem_of_getElem? hx) (elements y (List.mem_of_getElem? hy)) path

end Shaped

end DiffAlgebra.Diff
