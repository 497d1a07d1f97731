import DiffAlgebra.Proofs.Shape

/-!
# Merging values without regard for ranges

The merge of two values of one shape adds their leaves at every position that both have, and keeps
those that only one has. Trapping kinds add in the integers, wrapping kinds modulo the number of
their values. Merging is commutative and associative, other than addition, which may trap on the
way.
-/

namespace DiffAlgebra

namespace IntKind

/-- What an exact result is stored as if ranges do not matter: only wrapping kinds change it. -/
def settle (k : IntKind) (n : Int) : Int :=
  match k.family with
  | .wrapping => k.wrap n
  | .signed | .unsigned => n

theorem settle_of_holds {k : IntKind} {n : Int} (h : k.Holds n) : k.settle n = n := by
  unfold settle
  split
  · exact wrap_of_holds h
  · rfl
  · rfl

theorem settle_of_family_ne {k : IntKind} {n : Int} (h : k.family ≠ .wrapping) :
    k.settle n = n := by
  unfold settle
  split
  · exact absurd ‹_› h
  · rfl
  · rfl

private theorem wrap_add_wrap (k : IntKind) (m n : Int) :
    k.wrap (k.wrap m + n) = k.wrap (m + n) := by
  unfold wrap
  have h : (m - k.min) % k.cardinality + k.min + n - k.min =
      (m - k.min) % k.cardinality + n := by omega
  have h' : m + n - k.min = m - k.min + n := by omega
  rw [h, Int.emod_add_emod, h']

theorem settle_settle_add (k : IntKind) (m n : Int) :
    k.settle (k.settle m + n) = k.settle (m + n) := by
  unfold settle
  split
  · exact k.wrap_add_wrap m n
  · rfl
  · rfl

theorem settle_add_settle (k : IntKind) (m n : Int) :
    k.settle (m + k.settle n) = k.settle (m + n) := by
  rw [Int.add_comm, settle_settle_add, Int.add_comm]

/-- A result fits if it lies in the range once it is settled. -/
theorem fit_eq (k : IntKind) (op : ArithOp) (n : Int) :
    k.fit op n =
      if k.Holds (k.settle n) then .ok (k.settle n) else .error (.overflow op k (k.settle n)) := by
  cases hk : k.family with
  | wrapping => simp [fit, settle, hk, k.holds_wrap n]
  | signed | unsigned => simp [fit, settle, hk]

end IntKind

namespace Diff

variable {C : Catalog}

mutual

def merge : Diff C → Diff C → Diff C
  | int k m => fun y =>
    match y with
    | int _ n => int k (k.settle (m + n))
    | _ => int k m
  | present => fun _ => present
  | custom n s => fun _ => custom n s
  | tuple ts xs => fun y => tuple ts (mergeAll xs y.parts)
  | vec t xs => fun y => vec t (mergeAll xs y.parts)

def mergeAll : List (Diff C) → List (Diff C) → List (Diff C)
  | [] => fun ys => ys
  | x :: xs => fun ys =>
    match ys with
    | [] => x :: xs
    | y :: ys => merge x y :: mergeAll xs ys

end

theorem getElem?_mergeAll (xs ys : List (Diff C)) (i : Nat) :
    (mergeAll xs ys)[i]? = Option.merge merge xs[i]? ys[i]? := by
  induction xs generalizing ys i with
  | nil => simp [mergeAll]
  | cons x xs ih =>
    cases ys with
    | nil => simp [mergeAll]
    | cons y ys =>
      cases i with
      | zero => rfl
      | succ i => simpa [mergeAll] using ih ys i

/-- A component of a merge is a component of either list alone, or the merge of one of each. -/
theorem mergeAll_cases {xs ys : List (Diff C)} {i : Nat} {z : Diff C}
    (h : (mergeAll xs ys)[i]? = some z) :
    xs[i]? = some z ∨ ys[i]? = some z ∨
      ∃ x y, xs[i]? = some x ∧ ys[i]? = some y ∧ z = merge x y := by
  rw [getElem?_mergeAll] at h
  cases hx : xs[i]? with
  | none =>
    rw [hx] at h
    exact Or.inr (Or.inl (by simpa using h))
  | some x =>
    cases hy : ys[i]? with
    | none =>
      rw [hx, hy] at h
      exact Or.inl h
    | some y =>
      rw [hx, hy] at h
      exact Or.inr (Or.inr ⟨x, y, rfl, rfl, (Option.some.inj h).symm⟩)

theorem length_mergeAll (xs ys : List (Diff C)) :
    (mergeAll xs ys).length = max xs.length ys.length := by
  induction xs generalizing ys with
  | nil => simp [mergeAll]
  | cons x xs ih =>
    cases ys with
    | nil => simp [mergeAll]
    | cons y ys =>
      have h := ih ys
      simp only [mergeAll, List.length_cons]
      omega

theorem mergeAll_comm {xs ys : List (Diff C)}
    (h : ∀ (i : Nat) x y, xs[i]? = some x → ys[i]? = some y → merge x y = merge y x) :
    mergeAll xs ys = mergeAll ys xs := by
  apply List.ext_getElem?
  intro i
  rw [getElem?_mergeAll, getElem?_mergeAll]
  cases hx : xs[i]? with
  | none => simp
  | some x =>
    cases hy : ys[i]? with
    | none => rfl
    | some y => exact congrArg some (h i x y hx hy)

theorem mergeAll_assoc {xs ys zs : List (Diff C)}
    (h : ∀ (i : Nat) x y z, xs[i]? = some x → ys[i]? = some y → zs[i]? = some z →
      merge (merge x y) z = merge x (merge y z)) :
    mergeAll (mergeAll xs ys) zs = mergeAll xs (mergeAll ys zs) := by
  apply List.ext_getElem?
  intro i
  simp only [getElem?_mergeAll]
  cases hx : xs[i]? with
  | none => simp
  | some x =>
    cases hy : ys[i]? with
    | none => simp
    | some y =>
      cases hz : zs[i]? with
      | none => rfl
      | some z => exact congrArg some (h i x y z hx hy hz)

namespace Shaped

variable {P Q R : IntKind → Int → Prop} {t : DiffType C} {x y z : Diff C}

/-- What holds of the leaves of two values, and of their settled sums, holds of the leaves of the
merge. -/
theorem merged (hx : Shaped P t x) (hy : Shaped Q t y) (hPR : ∀ k n, P k n → R k n)
    (hQR : ∀ k n, Q k n → R k n) (hsum : ∀ k m n, P k m → Q k n → R k (k.settle (m + n))) :
    Shaped R t (merge x y) := by
  induction hx generalizing y with
  | int leaf =>
    cases hy with
    | int leaf' => exact .int (hsum _ _ _ leaf leaf')
  | present => exact .present
  | @tuple ts xs length_eq components ih =>
    cases hy with
    | @tuple _ ys length_eq' components' =>
      have hlength : ts.length = (mergeAll xs ys).length := by
        rw [length_mergeAll]
        omega
      refine .tuple hlength ?_
      rintro ⟨u, z⟩ hp
      obtain ⟨i, hi⟩ := List.getElem?_of_mem hp
      obtain ⟨hu, hz⟩ := List.getElem?_zip_eq_some.mp hi
      rcases mergeAll_cases hz with hx | hy | ⟨x, y, hx, hy, rfl⟩
      · exact (components _ (mem_zip_of_getElem? hu hx)).mono hPR
      · exact (components' _ (mem_zip_of_getElem? hu hy)).mono hQR
      · exact ih _ (mem_zip_of_getElem? hu hx) (components' _ (mem_zip_of_getElem? hu hy))
  | @vec _ xs elements ih =>
    cases hy with
    | @vec _ ys elements' =>
      refine .vec fun z hz => ?_
      obtain ⟨i, hi⟩ := List.getElem?_of_mem hz
      rcases mergeAll_cases hi with hx | hy | ⟨x, y, hx, hy, rfl⟩
      · exact (elements _ (List.mem_of_getElem? hx)).mono hPR
      · exact (elements' _ (List.mem_of_getElem? hy)).mono hQR
      · exact ih _ (List.mem_of_getElem? hx) (elements' _ (List.mem_of_getElem? hy))

theorem merge_comm (hx : Shaped P t x) (hy : Shaped Q t y) : merge x y = merge y x := by
  induction hx generalizing y with
  | int =>
    cases hy with
    | int => simp [merge, Int.add_comm]
  | present =>
    cases hy with
    | present => rfl
  | @tuple ts xs _ _ ih =>
    cases hy with
    | @tuple _ ys length_eq components =>
      have h : mergeAll xs ys = mergeAll ys xs := by
        apply mergeAll_comm
        intro i x y hx hy
        obtain ⟨t, ht⟩ := exists_getElem?_eq length_eq hy
        have hyt := components (t, y) (mem_zip_of_getElem? ht hy)
        exact ih (t, x) (mem_zip_of_getElem? ht hx) hyt
      simp [merge, parts, h]
  | @vec _ xs _ ih =>
    cases hy with
    | @vec _ ys elements =>
      have h : mergeAll xs ys = mergeAll ys xs := by
        apply mergeAll_comm
        intro i x y hx hy
        exact ih x (List.mem_of_getElem? hx) (elements y (List.mem_of_getElem? hy))
      simp [merge, parts, h]

theorem merge_assoc (hx : Shaped P t x) (hy : Shaped Q t y) (hz : Shaped R t z) :
    merge (merge x y) z = merge x (merge y z) := by
  induction hx generalizing y z with
  | int =>
    cases hy with
    | int =>
      cases hz with
      | int => simp [merge, IntKind.settle_settle_add, IntKind.settle_add_settle, Int.add_assoc]
  | present => rfl
  | @tuple ts xs _ _ ih =>
    cases hy with
    | @tuple _ ys _ hys =>
      cases hz with
      | @tuple _ zs length_eq hzs =>
        have h : mergeAll (mergeAll xs ys) zs = mergeAll xs (mergeAll ys zs) := by
          apply mergeAll_assoc
          intro i x y z hx hy hz
          obtain ⟨t, ht⟩ := exists_getElem?_eq length_eq hz
          have hyt := hys (t, y) (mem_zip_of_getElem? ht hy)
          have hzt := hzs (t, z) (mem_zip_of_getElem? ht hz)
          exact ih (t, x) (mem_zip_of_getElem? ht hx) hyt hzt
        simp [merge, parts, h]
  | @vec _ xs _ ih =>
    cases hy with
    | @vec _ ys hys =>
      cases hz with
      | @vec _ zs hzs =>
        have h : mergeAll (mergeAll xs ys) zs = mergeAll xs (mergeAll ys zs) := by
          apply mergeAll_assoc
          intro i x y z hx hy hz
          exact ih x (List.mem_of_getElem? hx) (hys y (List.mem_of_getElem? hy))
            (hzs z (List.mem_of_getElem? hz))
        simp [merge, parts, h]

end Shaped

def mergeList : List (Diff C) → Option (Diff C)
  | [] => none
  | x :: xs => Option.merge merge (some x) (mergeList xs)

theorem mergeList_eq_none {xs : List (Diff C)} (h : mergeList xs = none) : xs = [] := by
  cases xs with
  | nil => rfl
  | cons x xs => cases hy : mergeList xs <;> simp [mergeList, hy] at h

section Merging

variable {P Q : IntKind → Int → Prop} {t : DiffType C} {xs ys : List (Diff C)}

private theorem shaped_mergeList (h : ∀ x ∈ xs, Shaped P t x)
    (hsum : ∀ k m n, P k m → P k n → P k (k.settle (m + n))) {z : Diff C}
    (hz : mergeList xs = some z) : Shaped P t z := by
  induction xs generalizing z with
  | nil => cases hz
  | cons x xs ih =>
    have hx := h x List.mem_cons_self
    have hxs := fun y hy => h y (List.mem_cons_of_mem _ hy)
    cases hrest : mergeList xs with
    | none =>
      rw [mergeList, hrest] at hz
      cases hz
      exact hx
    | some y =>
      rw [mergeList, hrest] at hz
      cases hz
      exact hx.merged (ih hxs hrest) (fun _ _ hP => hP) (fun _ _ hP => hP) hsum

theorem anyShaped_mergeList (h : ∀ x ∈ xs, Shaped P t x) {z : Diff C}
    (hz : mergeList xs = some z) : Shaped (fun _ _ => True) t z :=
  shaped_mergeList (fun x hx => (h x hx).mono fun _ _ _ => trivial) (fun _ _ _ _ _ => trivial) hz

theorem mergeList_append (hxs : ∀ x ∈ xs, Shaped P t x) (hys : ∀ y ∈ ys, Shaped Q t y) :
    mergeList (xs ++ ys) = Option.merge merge (mergeList xs) (mergeList ys) := by
  induction xs with
  | nil => simp [mergeList]
  | cons x xs ih =>
    have hx := hxs x List.mem_cons_self
    have hrest := fun y hy => hxs y (List.mem_cons_of_mem _ hy)
    rw [List.cons_append, mergeList, mergeList, ih hrest]
    cases hu : mergeList xs with
    | none => simp
    | some u =>
      cases hv : mergeList ys with
      | none => simp
      | some v =>
        have hu := anyShaped_mergeList hrest hu
        have hv := anyShaped_mergeList hys hv
        exact congrArg some (hx.merge_assoc hu hv).symm

/-- The merge of a list does not depend on its order. -/
theorem mergeList_perm (h : xs.Perm ys) (hxs : ∀ x ∈ xs, Shaped P t x) :
    mergeList xs = mergeList ys := by
  induction h with
  | nil => rfl
  | cons x _ ih => rw [mergeList, mergeList, ih fun y hy => hxs y (List.mem_cons_of_mem _ hy)]
  | swap x y xs =>
    have hy := hxs y (by simp)
    have hx := hxs x (by simp)
    simp only [mergeList]
    cases hz : mergeList xs with
    | none => exact congrArg some (hy.merge_comm hx)
    | some z =>
      have hz := anyShaped_mergeList (fun w hw => hxs w (by simp [hw])) hz
      have h : merge y (merge x z) = merge x (merge y z) := by
        rw [← hy.merge_assoc hx hz, hy.merge_comm hx, hx.merge_assoc hy hz]
      exact congrArg some h
  | trans h _ ih ih' => exact (ih hxs).trans (ih' fun x hx => hxs x (h.mem_iff.mpr hx))

end Merging

end Diff

end DiffAlgebra
