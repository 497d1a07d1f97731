import DiffAlgebra.Proofs.Addition.Checked
import DiffAlgebra.Proofs.Sharing.Results

/-!
# Sums of components

The components at one place of several values, of those that have the place, add up on their own.
The sum of the values has these sums as its components; it is reached if all of them are, and
otherwise it fails as one of them fails.
-/

namespace DiffAlgebra

variable {C : Catalog}

/-- The components at a place, of those differences that have the place, in order. -/
def componentsAt {δ : Type} [DiffView δ C] (i : Nat) (xs : List δ) : List δ :=
  xs.filterMap fun x => (DiffView.parts x)[i]?

/-- The number of places at which some of the differences have a component. -/
def width {δ : Type} [DiffView δ C] (xs : List δ) : Nat :=
  (xs.map fun x => (DiffView.parts x).length).foldr max 0

private theorem width_eq {δ : Type} [DiffView δ C] {xs : List δ} {n : Nat} (hne : xs ≠ [])
    (h : ∀ x ∈ xs, (DiffView.parts x).length = n) : width xs = n := by
  induction xs with
  | nil => exact absurd rfl hne
  | cons x xs ih =>
    obtain ⟨hx, hxs⟩ := List.forall_mem_cons.mp h
    change max (DiffView.parts x).length (width xs) = n
    cases xs with
    | nil => rw [hx]; exact Nat.max_zero n
    | cons y ys => rw [hx, ih (by simp) hxs, Nat.max_self]

namespace Diff

def sumAt (i : Nat) (xs : List (Diff C)) : Except Fault (Diff C) :=
  accumulate ((componentsAt i xs).map .diff)

/-- What a sum of values comes to, told by the sums of their components. -/
inductive SumOf (xs : List (Diff C)) : Except Fault (Diff C) → Prop where
  | reached {z : Diff C} (length_eq : z.parts.length = width xs)
      (component : ∀ (i : Nat) w, z.parts[i]? = some w → sumAt i xs = .ok w) : SumOf xs (.ok z)
  | overflow {f : Fault} {i : Nat} (kind_eq : f.kind = .overflow) (lt : i < width xs)
      (component : sumAt i xs = .error f) : SumOf xs (.error f)

variable {t : DiffType C} {x y z : Diff C} {xs : List (Diff C)} {f : Fault}

theorem componentsAt_cons (i : Nat) (x : Diff C) (xs : List (Diff C)) :
    componentsAt i (x :: xs) = x.parts[i]?.toList ++ componentsAt i xs := by
  have hview : (DiffView.parts x)[i]? = x.parts[i]? := rfl
  unfold componentsAt
  rw [List.filterMap_cons, hview]
  cases x.parts[i]? <;> rfl

/-- Where the first value has a component, the components of the others are added to that. -/
theorem sumAt_cons {i : Nat} (hx : x.parts[i]? = some z) (hz : z.clonable = true) :
    sumAt i (x :: xs) = z.plusAll ((componentsAt i xs).map .diff) := by
  rw [sumAt, componentsAt_cons, hx]
  exact accumulate_cons hz _

private theorem Exact.length_parts {ts : List (DiffType C)} (h : Exact (.tuple ts) x) :
    ts.length = x.parts.length := by
  cases h with
  | tuple length_eq => exact length_eq

theorem parts_merge {P Q : IntKind → Int → Prop} (hx : Shaped P t x) (hy : Shaped Q t y) :
    (merge x y).parts = mergeAll x.parts y.parts := by
  cases hx <;> cases hy <;> rfl

/-- A value that is reached adds up with further ones as its two summands do, at every place. -/
theorem sumAt_merge (hx : Shaped IntKind.Holds t x) (hy : Shaped IntKind.Holds t y)
    (hmerge : (merge x y).InRange) (i : Nat) (xs : List (Diff C)) :
    sumAt i (merge x y :: xs) = sumAt i (x :: y :: xs) := by
  have hparts := parts_merge hx hy
  cases ha : x.parts[i]? with
  | none => simp [sumAt, componentsAt_cons, hparts, getElem?_mergeAll, ha]
  | some a =>
    cases hb : y.parts[i]? with
    | none => simp [sumAt, componentsAt_cons, hparts, getElem?_mergeAll, ha, hb]
    | some b =>
      obtain ⟨u, hau, hu⟩ := hx.part ha
      have hab : (merge x y).parts[i]? = some (merge a b) := by
        rw [hparts, getElem?_mergeAll, ha, hb]
        rfl
      obtain ⟨v, hv, -⟩ := (hx.holds_merge hy hmerge).part hab
      rcases hau.plus_cases (hu hy hb) with ⟨hsum, -⟩ | ⟨hrange, -⟩
      · rw [sumAt_cons hab hv.clonable, sumAt_cons ha hau.clonable, componentsAt_cons, hb]
        simp [plusAll, hsum]
      · exact absurd hv.inRange hrange

private theorem exists_checked_of_checkedAll (h : checkedAll xs = .error f) :
    ∃ x ∈ xs, x.checked = .error f := by
  induction xs with
  | nil => cases h
  | cons x xs ih =>
    rcases bind_eq_error.mp h with hx | ⟨_, -, h⟩
    · exact ⟨x, List.mem_cons_self, hx⟩
    · rcases bind_eq_error.mp h with hxs | ⟨_, -, h⟩
      · obtain ⟨z, hz, hf⟩ := ih hxs
        exact ⟨z, List.mem_cons_of_mem _ hz, hf⟩
      · cases h

/-- What is out of range in a composite value is out of range in one of its components. -/
theorem exists_checked_part (hx : ∀ k n, x ≠ int k n) (h : x.checked = .error f) :
    ∃ p ∈ x.parts, p.checked = .error f := by
  cases x with
  | int k n => exact absurd rfl (hx k n)
  | present | custom => cases h
  | tuple ts xs | vec t xs =>
    rcases bind_eq_error.mp h with h | ⟨_, -, h⟩
    · exact exists_checked_of_checkedAll h
    · cases h

/-- An addition that overflows does so at one place, where the components overflow. -/
theorem exists_sumAt_eq_error (ht : ∀ k, t ≠ .int k) (hx : Shaped IntKind.Holds t x)
    (hy : Shaped IntKind.Holds t y) (h : x.plus (.diff y) = .error f) (xs : List (Diff C)) :
    ∃ i < max x.parts.length y.parts.length, sumAt i (x :: y :: xs) = .error f := by
  have hparts := parts_merge hx hy
  have hnotInt (k : IntKind) (n : Int) : merge x y ≠ int k n := by
    cases hx with
    | int => exact absurd rfl (ht _)
    | _ => simp [merge]
  have hkept {p : Diff C} (hp : Shaped IntKind.Holds t p) {i : Nat} {a : Diff C}
      (ha : p.parts[i]? = some a) : a.checked ≠ .error f := by
    obtain ⟨u, hau, -⟩ := hp.part ha
    rcases checked_cases a with ⟨-, h⟩ | ⟨hrange, -⟩
    · simp [h]
    · exact absurd hau.inRange hrange
  rw [hx.plus_eq hy] at h
  obtain ⟨p, hp, hf⟩ := exists_checked_part hnotInt h
  obtain ⟨i, hi⟩ := List.getElem?_of_mem hp
  rw [hparts] at hi
  have hlt := (List.getElem?_eq_some_iff.mp hi).1
  rw [length_mergeAll] at hlt
  refine ⟨i, hlt, ?_⟩
  rcases mergeAll_cases hi with hxi | hyi | ⟨a, b, ha, hb, rfl⟩
  · exact absurd hf (hkept hx hxi)
  · exact absurd hf (hkept hy hyi)
  · obtain ⟨u, hau, hu⟩ := hx.part ha
    rw [sumAt_cons ha hau.clonable, componentsAt_cons, hb]
    simp [plusAll, hau.plus_eq (hu hy hb), hf]

/-- The sum that values add up to goes component by component. -/
theorem sumOf_plusAll (ht : ∀ k, t ≠ .int k) (hx : Shaped IntKind.Holds t x)
    (hxs : ∀ y ∈ xs, Shaped IntKind.Holds t y) :
    SumOf (x :: xs) (x.plusAll (xs.map .diff)) := by
  -- the sum so far takes the place of the values that are in it, whose components have been added
  induction xs generalizing x with
  | nil =>
    refine .reached (Nat.max_zero _).symm fun i w hw => ?_
    obtain ⟨u, hwu, -⟩ := hx.part hw
    exact sumAt_cons hw hwu.clonable
  | cons y ys ih =>
    obtain ⟨hy, hys⟩ := List.forall_mem_cons.mp hxs
    have hwidth : width (x :: y :: ys) = max (max x.parts.length y.parts.length) (width ys) :=
      (Nat.max_assoc _ _ _).symm
    rw [List.map_cons, plusAll]
    rcases hx.plus_cases hy with ⟨hsum, hmerge⟩ | ⟨-, k, n, hf⟩
    · have hsame : width (merge x y :: ys) = width (x :: y :: ys) := by
        rw [hwidth, ← length_mergeAll, ← parts_merge hx hy]
        rfl
      have hrest := ih hmerge hys
      rw [hsum, ok_bind]
      generalize (merge x y).plusAll (ys.map .diff) = r at hrest ⊢
      cases hrest with
      | reached length_eq component =>
        refine .reached (length_eq.trans hsame) fun i w hw => ?_
        rw [← sumAt_merge hx hy hmerge.inRange]
        exact component i w hw
      | overflow kind_eq lt component =>
        refine .overflow kind_eq (hsame ▸ lt) ?_
        rw [← sumAt_merge hx hy hmerge.inRange]
        exact component
    · obtain ⟨i, hi, hcomponent⟩ := exists_sumAt_eq_error ht hx hy hf ys
      rw [hf, error_bind]
      exact .overflow rfl (by rw [hwidth]; omega) hcomponent

private theorem sumOf_accumulate (ht : ∀ k, t ≠ .int k) (hne : xs ≠ [])
    (hxs : ∀ x ∈ xs, Shaped IntKind.Holds t x) : SumOf xs (accumulate (xs.map .diff)) := by
  cases xs with
  | nil => exact absurd rfl hne
  | cons x xs =>
    obtain ⟨hx, hxs⟩ := List.forall_mem_cons.mp hxs
    rw [List.map_cons, accumulate_cons hx.clonable]
    exact sumOf_plusAll ht hx hxs

end Diff

namespace Session

open Object (labelsAll)

variable {xs : List (Object C)} {next : Nat}

def sumAt (i : Nat) (xs : List (Object C)) (next : Nat) : Except Fault (Value C) :=
  (accumulate (.list 0 ((componentsAt i xs).map .diff)) next).result

/-- A sum of objects with `n` components goes component by component. It is reached just if the sums
at all places are, it has these for its components, and otherwise it overflows as one of them does.
-/
structure Columnwise (n : Nat) (xs : List (Object C)) (next : Nat)
    (sum : Except Fault (Value C)) : Prop where
  reached_iff : (∃ z, sum = .ok (.diff z)) ↔ ∀ i < n, ∃ w, sumAt i xs next = .ok (.diff w)
  length_eq : ∀ z, sum = .ok (.diff z) → z.parts.length = n
  component : ∀ z, sum = .ok (.diff z) → ∀ (i : Nat) p, z.parts[i]? = some p →
    ∃ w, sumAt i xs next = .ok (.diff w) ∧ p.value = w.value
  overflow : (¬ ∃ z, sum = .ok (.diff z)) → ∃ f, sum = .error f ∧ f.kind = .overflow ∧
    ∃ i < n, sumAt i xs next = .error f

private theorem map_value_componentsAt (i : Nat) (xs : List (Object C)) :
    (componentsAt i xs).map Object.value = componentsAt i (xs.map Object.value) := by
  unfold componentsAt
  rw [List.map_filterMap, List.filterMap_map]
  refine List.filterMap_congr fun x _ => ?_
  have hparts : (DiffView.parts x).map Object.value = DiffView.parts x.value :=
    DiffView.parts_value x
  rw [Function.comp_apply, ← hparts, List.getElem?_map]

theorem width_map_value (xs : List (Object C)) : width (xs.map Object.value) = width xs := by
  unfold width
  rw [List.map_map]
  refine congrArg (List.foldr max 0) (List.map_congr_left fun x _ => ?_)
  have hparts : (DiffView.parts x).map Object.value = DiffView.parts x.value :=
    DiffView.parts_value x
  rw [Function.comp_apply, ← hparts, List.length_map]

private theorem labelsAll_componentsAt_subset (i : Nat) (xs : List (Object C)) :
    labelsAll (componentsAt i xs) ⊆ labelsAll xs := by
  intro l hl
  rw [Object.labelsAll_eq_flatMap] at hl ⊢
  obtain ⟨p, hp, hlp⟩ := List.mem_flatMap.mp hl
  obtain ⟨x, hx, hpx⟩ := List.mem_filterMap.mp hp
  have hpart : p ∈ x.parts := List.mem_of_getElem? hpx
  obtain ⟨y, hy, hyl⟩ := Object.mem_labels_iff.mp hlp
  refine List.mem_flatMap.mpr ⟨x, hx, Object.mem_labels_iff.mpr ⟨y, ?_, hyl⟩⟩
  exact Object.mem_nodes_of_mem_parts hpart hy

private theorem sumAt_eq (i : Nat) (hlabels : ∀ l ∈ labelsAll xs, l < next) :
    ∃ r : Except Fault (Object C), sumAt i xs next = r.map .diff ∧
      Diff.sumAt i (xs.map Object.value) = r.map Object.value := by
  rw [Diff.sumAt, ← map_value_componentsAt]
  exact accumulate_eq rfl fun l hl => hlabels l (labelsAll_componentsAt_subset i xs hl)

private theorem columnwise_of_sumOf (hlabels : ∀ l ∈ labelsAll xs, l < next)
    {r : Except Fault (Object C)}
    (h : Diff.SumOf (xs.map Object.value) (r.map Object.value)) :
    Columnwise (width xs) xs next (r.map .diff) := by
  have hsum (i : Nat) := sumAt_eq i hlabels
  cases r with
  | error f =>
    obtain ⟨hkind, i, hi, hf⟩ : f.kind = .overflow ∧ ∃ i < width xs, sumAt i xs next = .error f := by
      cases h with
      | overflow kind_eq lt component =>
        obtain ⟨r, hr, hvalue⟩ := hsum _
        obtain rfl := map_eq_error.mp (hvalue.symm.trans component)
        exact ⟨kind_eq, _, width_map_value xs ▸ lt, hr⟩
    refine ⟨⟨fun ⟨_, hz⟩ => (nomatch hz), fun hall => ?_⟩, fun _ hz => (nomatch hz),
      fun _ hz => (nomatch hz), fun _ => ⟨f, rfl, hkind, i, hi, hf⟩⟩
    obtain ⟨w, hw⟩ := hall i hi
    cases hf.symm.trans hw
  | ok z =>
    have hlength : z.parts.length = width xs := by
      cases h with
      | reached length_eq =>
        rw [width_map_value, Object.parts_value, Object.valueAll_eq_map, List.length_map] at length_eq
        exact length_eq
    have hcomponent {i : Nat} {p : Object C} (hp : z.parts[i]? = some p) :
        ∃ w, sumAt i xs next = .ok (.diff w) ∧ p.value = w.value := by
      cases h with
      | reached _ component =>
        have hvalue : z.value.parts[i]? = some p.value := by
          rw [Object.parts_value, Object.valueAll_eq_map, List.getElem?_map, hp]
          rfl
        obtain ⟨r, hr, hr'⟩ := hsum i
        obtain ⟨w, rfl, hw⟩ := map_eq_ok.mp (hr'.symm.trans (component i _ hvalue))
        exact ⟨w, hr, hw.symm⟩
    refine ⟨⟨fun _ i hi => ?_, fun _ => ⟨z, rfl⟩⟩, ?_, ?_, fun hno => absurd ⟨z, rfl⟩ hno⟩
    · obtain ⟨w, hw, -⟩ := hcomponent (List.getElem?_eq_getElem (hlength ▸ hi))
      exact ⟨w, hw⟩
    · intro y hy
      cases hy
      exact hlength
    · intro y hy i p hp
      cases hy
      exact hcomponent hp

/-- Accumulation goes component by component. For a tuple type there are as many sums of components
as it has components. For a sequence type there are as many as the longest sequence has elements,
each of them over those sequences that are long enough, in order. -/
theorem accumulate_columnwise {t : DiffType C} (ht : t.Concrete) (hne : xs ≠ [])
    (hexact : ∀ x ∈ xs, Diff.Exact t x.value) {v : Value C} (hv : v.items = .ok (xs.map .diff))
    (hlabels : ∀ l ∈ labelsAll xs, l < next) :
    (∀ ts, t = .tuple ts → Columnwise ts.length xs next (accumulate v next).result) ∧
    ∀ u, t = .vec u →
      Columnwise ((xs.map (·.parts.length)).foldr max 0) xs next (accumulate v next).result := by
  have hshaped : ∀ d ∈ xs.map Object.value, Diff.Shaped IntKind.Holds t d :=
    List.forall_mem_map.mpr fun x hx => (hexact x hx).shaped_holds ht
  obtain ⟨r, hr, hvalue⟩ := accumulate_eq hv hlabels
  have hcolumns (hnotInt : ∀ k, t ≠ .int k) :
      Columnwise (width xs) xs next (accumulate v next).result := by
    rw [hr]
    refine columnwise_of_sumOf hlabels ?_
    rw [← hvalue]
    exact Diff.sumOf_accumulate hnotInt (by simpa using hne) hshaped
  refine ⟨?_, ?_⟩
  · rintro ts rfl
    have hwidth : width xs = ts.length := by
      refine width_eq hne fun x hx => ?_
      have hparts : x.value.parts.length = x.parts.length := by
        rw [Object.parts_value, Object.valueAll_eq_map, List.length_map]
      exact hparts.symm.trans (hexact x hx).length_parts.symm
    rw [← hwidth]
    exact hcolumns (by simp)
  · rintro u rfl
    exact hcolumns (by simp)

/-- The elements overflow at both places, and the sequences where an addition first does, at the
second place. -/
theorem accumulate_columnwise_ragged :
    let k : IntKind := ⟨.signed, .w8⟩
    let xs : List (Object specimens) := [.vec 1 (some (.int k)) [.int 2 k 100, .int 3 k 100],
      .vec 4 (some (.int k)) [.int 5 k 1, .int 6 k 28], .vec 7 (some (.int k)) [.int 8 k 100]]
    let r := (accumulate (.list 0 (xs.map .diff)) 9).result
    Columnwise 2 xs 9 r ∧ r = .error (.overflow .add k 128) ∧ sumAt 1 xs 9 = r ∧
      sumAt 0 xs 9 = .error (.overflow .add k 201) := by
  intro k xs r
  have hexact : ∀ x ∈ xs, Diff.Exact (.vec (.int k)) x.value := by
    intro x hx
    simp only [xs, List.mem_cons, List.not_mem_nil, or_false] at hx
    rcases hx with rfl | rfl | rfl
    all_goals
      refine .vec fun e he => ?_
      simp only [Object.valueAll, Object.value, List.mem_cons, List.not_mem_nil, or_false] at he
      rcases he with rfl | rfl
      all_goals exact .int (by decide)
  have hlabels : ∀ l ∈ labelsAll xs, l < 9 := by decide
  have hcolumns := accumulate_columnwise (v := .list 0 (xs.map .diff)) (.vec (.int k)) (by simp [xs])
    hexact rfl hlabels
  have hwidth : (xs.map (·.parts.length)).foldr max 0 = 2 := rfl
  have htotal : r = .error (.overflow .add k 128) := rfl
  have hfirst : sumAt 0 xs 9 = .error (.overflow .add k 201) := rfl
  have hsecond : sumAt 1 xs 9 = .error (.overflow .add k 128) := rfl
  exact ⟨hwidth ▸ hcolumns.2 _ rfl, htotal, hsecond.trans htotal.symm, hfirst⟩

end Session

end DiffAlgebra
