import DiffAlgebra.Proofs.Shape
import DiffAlgebra.Proofs.Sharing.Data

/-!
# Well-typed values

A value fits its type if an integer lies in the range of its kind, a tuple has one component of each
of its types, and the elements of a sequence are of the element type. A value is well typed if it
and all its parts fit. Coercion and construction give well-typed instances of the type they are
asked for, out of well-typed data.
-/

namespace DiffAlgebra

variable {C : Catalog}

namespace DiffType

private theorem eq_tuple_of_isSub {s : DiffType C} {ts : List (DiffType C)}
    (h : s.isSub (.tuple ts) = true) : s = .tuple ts := by
  cases s with
  | tuple ss => exact congrArg tuple (eqAll_of_beqAll ss ts h)
  | _ => cases h

private theorem eq_vec_of_isSub {s t : DiffType C} (h : s.isSub (.vec t) = true) : s = .vec t := by
  cases s with
  | vec s => exact congrArg vec (eq_of_beq s t h)
  | _ => cases h

end DiffType

namespace Diff

/-- What a value holds fits its type. A tuple at large declares no components, and a sequence at
large declares no element type. -/
def Fits : Diff C → Prop
  | int k n => k.Holds n
  | present | custom _ _ => True
  | tuple ts xs => List.Forall₂ (fun t x => isA x t) (ts.getD []) xs
  | vec t xs => ∀ u, t = some u → ∀ x ∈ xs, x.isA u

/-- A well-typed value of a type. -/
structure InstanceOf (t : DiffType C) (x : Diff C) : Prop where
  wellTyped : x.wellTyped = true
  isA : x.isA t = true

theorem instanceOf_iff {t : DiffType C} {x : Diff C} :
    InstanceOf t x ↔ x.isA t = true ∧ x.wellTyped = true :=
  ⟨fun h => ⟨h.isA, h.wellTyped⟩, fun h => ⟨h.2, h.1⟩⟩

theorem InstanceOf.self {x : Diff C} (h : x.wellTyped = true) : InstanceOf x.typeOf x :=
  ⟨h, DiffType.isSub_self _⟩

/-- Only the type of a value matters to what it is an instance of. -/
theorem InstanceOf.of_typeOf_eq {t : DiffType C} {x y : Diff C} (h : InstanceOf t x)
    (hy : y.wellTyped = true) (htype : y.typeOf = x.typeOf) : InstanceOf t y := by
  refine ⟨hy, ?_⟩
  rw [Diff.isA, htype]
  exact h.isA

private theorem componentsTyped_iff {ts : List (DiffType C)} {xs : List (Diff C)} :
    componentsTyped ts xs = true ↔ List.Forall₂ InstanceOf ts xs := by
  induction ts generalizing xs with
  | nil => cases xs <;> simp [componentsTyped]
  | cons t ts ih =>
    cases xs with
    | nil => simp [componentsTyped]
    | cons x xs => simp [componentsTyped, ih, instanceOf_iff]

private theorem elementsTyped_iff {t : DiffType C} {xs : List (Diff C)} :
    elementsTyped t xs = true ↔ ∀ x ∈ xs, InstanceOf t x := by
  induction xs with
  | nil => simp [elementsTyped]
  | cons x xs ih => simp [elementsTyped, ih, instanceOf_iff]

private theorem allWellTyped_iff {xs : List (Diff C)} :
    allWellTyped xs = true ↔ ∀ x ∈ xs, x.wellTyped = true := by
  induction xs with
  | nil => simp [allWellTyped]
  | cons x xs ih => simp [allWellTyped, ih]

@[simp] theorem wellTyped_int {k : IntKind} {n : Int} :
    (int k n : Diff C).wellTyped = true ↔ k.Holds n := by
  simp [wellTyped]

@[simp] theorem wellTyped_present : (present : Diff C).wellTyped = true := rfl

@[simp] theorem wellTyped_custom (n : C.Name) (s : C.State) :
    (custom n s).wellTyped = true := rfl

@[simp] theorem wellTyped_tuple {ts : List (DiffType C)} {xs : List (Diff C)} :
    (tuple (some ts) xs).wellTyped = true ↔ List.Forall₂ InstanceOf ts xs :=
  componentsTyped_iff

@[simp] theorem wellTyped_anyTuple {xs : List (Diff C)} :
    (tuple none xs).wellTyped = true ↔ xs = [] := by
  simp [wellTyped]

@[simp] theorem wellTyped_vec {t : DiffType C} {xs : List (Diff C)} :
    (vec (some t) xs).wellTyped = true ↔ ∀ x ∈ xs, InstanceOf t x :=
  elementsTyped_iff

@[simp] theorem wellTyped_anyVec {xs : List (Diff C)} :
    (vec none xs).wellTyped = true ↔ ∀ x ∈ xs, x.wellTyped = true :=
  allWellTyped_iff

private theorem forall₂_instanceOf_iff {ts : List (DiffType C)} {xs : List (Diff C)} :
    List.Forall₂ InstanceOf ts xs ↔
      List.Forall₂ (fun t x => isA x t) ts xs ∧ ∀ x ∈ xs, x.wellTyped = true := by
  induction ts generalizing xs with
  | nil => cases xs <;> simp
  | cons t ts ih =>
    cases xs with
    | nil => simp
    | cons x xs =>
      simp only [List.forall₂_cons, ih, instanceOf_iff, List.forall_mem_cons]
      tauto

/-- A value is well typed just if it fits its type and its parts are well typed. -/
theorem wellTyped_iff {x : Diff C} :
    x.wellTyped = true ↔ x.Fits ∧ ∀ p ∈ x.parts, p.wellTyped = true := by
  cases x with
  | int | present | custom => simp [Fits, parts]
  | tuple ts xs =>
    cases ts with
    | some ts => simp [Fits, parts, forall₂_instanceOf_iff]
    | none => cases xs <;> simp [Fits, parts]
  | vec t xs =>
    cases t with
    | some t => simp [Fits, parts, instanceOf_iff, forall_and]
    | none => simp [Fits, parts]

theorem wellTyped_of_mem_parts {x p : Diff C} (h : x.wellTyped = true) (hp : p ∈ x.parts) :
    p.wellTyped = true :=
  (wellTyped_iff.mp h).2 p hp

/-- Elements may be left out of a sequence, repeated and reordered. -/
theorem wellTyped_vec_of_subset {t : Option (DiffType C)} {xs ys : List (Diff C)}
    (h : (vec t xs).wellTyped = true) (hsub : ys ⊆ xs) : (vec t ys).wellTyped = true := by
  cases t with
  | some t => exact wellTyped_vec.mpr fun y hy => wellTyped_vec.mp h y (hsub hy)
  | none => exact wellTyped_anyVec.mpr fun y hy => wellTyped_anyVec.mp h y (hsub hy)

namespace InstanceOf

variable {t : DiffType C} {x : Diff C}

theorem eq_int {k : IntKind} (h : InstanceOf (.int k) x) :
    ∃ l n, x = int l n ∧ l.isSub k = true ∧ l.Holds n := by
  have hisA := h.isA
  have hwell := h.wellTyped
  cases x with
  | int l n => exact ⟨l, n, rfl, hisA, wellTyped_int.mp hwell⟩
  | tuple ts xs => cases ts <;> cases hisA
  | vec t xs => cases t <;> cases hisA
  | _ => cases hisA

theorem eq_present (h : InstanceOf .present x) : x = present := by
  have hisA := h.isA
  cases x with
  | present => rfl
  | tuple ts xs => cases ts <;> cases hisA
  | vec t xs => cases t <;> cases hisA
  | _ => cases hisA

theorem eq_tuple {ts : List (DiffType C)} (h : InstanceOf (.tuple ts) x) :
    ∃ xs, x = tuple (some ts) xs ∧ List.Forall₂ InstanceOf ts xs := by
  have htype := DiffType.eq_tuple_of_isSub h.isA
  have hwell := h.wellTyped
  cases x with
  | tuple us xs =>
    cases us with
    | none => cases htype
    | some us =>
      cases htype
      exact ⟨xs, rfl, wellTyped_tuple.mp hwell⟩
  | vec u xs => cases u <;> cases htype
  | _ => cases htype

theorem eq_vec (h : InstanceOf (.vec t) x) :
    ∃ xs, x = vec (some t) xs ∧ ∀ x ∈ xs, InstanceOf t x := by
  have htype := DiffType.eq_vec_of_isSub h.isA
  have hwell := h.wellTyped
  cases x with
  | vec u xs =>
    cases u with
    | none => cases htype
    | some u =>
      cases htype
      exact ⟨xs, rfl, wellTyped_vec.mp hwell⟩
  | tuple us xs => cases us <;> cases htype
  | _ => cases htype

theorem parts_vec {p : Diff C} (h : InstanceOf (.vec t) x) (hp : p ∈ x.parts) : InstanceOf t p := by
  obtain ⟨xs, rfl, hxs⟩ := h.eq_vec
  exact hxs p hp

end InstanceOf

end Diff

namespace Datum

variable {δ : Type}

mutual

def diffs : Datum C δ → List δ
  | diff d => [d]
  | list _ xs | tuple _ xs | config _ _ _ xs => diffsAll xs
  | record _ fs => diffsFields fs
  | null | bool _ | int _ | real _ | text _ | bytes _ | type _ | reference _ _ | violation _ _
  | report _ _ | mismatch _ _ => []

def diffsAll : List (Datum C δ) → List δ
  | [] => []
  | x :: xs => diffs x ++ diffsAll xs

def diffsFields : List (String × Datum C δ) → List δ
  | [] => []
  | (_, x) :: fs => diffs x ++ diffsFields fs

end

theorem diffsAll_eq_flatMap (xs : List (Datum C δ)) : diffsAll xs = xs.flatMap diffs := by
  induction xs with
  | nil => rfl
  | cons x xs ih => simp [diffsAll, ih]

theorem diffsFields_eq (fs : List (String × Datum C δ)) :
    diffsFields fs = (fs.map (·.2)).flatMap diffs := by
  induction fs with
  | nil => rfl
  | cons f fs ih => simp [diffsFields, ih]

mutual

theorem diffs_map {ε : Type} (f : δ → ε) : (v : Datum C δ) → (v.map f).diffs = v.diffs.map f
  | diff _ => rfl
  | list _ xs | tuple _ xs | config _ _ _ xs => by
    simpa [map, diffs] using diffsAll_mapAll f xs
  | record _ fs => by simpa [map, diffs] using diffsFields_mapFields f fs
  | null | bool _ | int _ | real _ | text _ | bytes _ | type _ | reference _ _ | violation _ _
  | report _ _ | mismatch _ _ => rfl

theorem diffsAll_mapAll {ε : Type} (f : δ → ε) : (vs : List (Datum C δ)) →
    diffsAll (mapAll f vs) = (diffsAll vs).map f
  | [] => rfl
  | v :: vs => by simp [mapAll, diffsAll, diffs_map f v, diffsAll_mapAll f vs]

theorem diffsFields_mapFields {ε : Type} (f : δ → ε) : (fs : List (String × Datum C δ)) →
    diffsFields (mapFields f fs) = (diffsFields fs).map f
  | [] => rfl
  | (_, v) :: fs => by simp [mapFields, diffsFields, diffs_map f v, diffsFields_mapFields f fs]

end

theorem diffsAll_map_eq_nil {α : Type} {f : α → Datum C δ} (hf : ∀ a, (f a).diffs = [])
    (as : List α) : diffsAll (as.map f) = [] := by
  simp [diffsAll_eq_flatMap, hf]

private theorem diffsAll_checkFields {v : Datum C δ} {xs : List (Datum C δ)}
    (h : v.checkFields = some xs) : diffsAll xs ⊆ v.diffs := by
  cases v with
  | config =>
    cases h
    simp [diffsAll, diffs, named]
  | violation =>
    cases h
    simp [diffsAll, diffs, named, diffsAll_map_eq_nil (f := text) fun _ => rfl]
  | report =>
    cases h
    simp [diffsAll, diffs, named, diffsAll_map_eq_nil (f := violation 0) fun _ => rfl]
  | _ => cases h

variable [DiffView δ C]

def WellTyped (v : Datum C δ) : Prop := ∀ d ∈ v.diffs, (DiffView.value d).wellTyped = true

theorem wellTyped_diff {d : δ} :
    (diff d : Datum C δ).WellTyped ↔ (DiffView.value d).wellTyped = true := by
  simp [WellTyped, diffs]

theorem wellTyped_values {v : Datum C δ} : v.values.WellTyped ↔ v.WellTyped := by
  simp only [WellTyped, values, diffs_map, List.forall_mem_map]
  rfl

theorem wellTyped_of_diffs_eq_nil {v : Datum C δ} (h : v.diffs = []) : v.WellTyped := by
  simp [WellTyped, h]

theorem wellTyped_of_mem {v x : Datum C δ} {xs : List (Datum C δ)} (hv : v.WellTyped)
    (hxs : diffsAll xs ⊆ v.diffs) (hx : x ∈ xs) : x.WellTyped := by
  intro d hd
  refine hv d (hxs ?_)
  rw [diffsAll_eq_flatMap]
  exact List.mem_flatMap.mpr ⟨x, hx, hd⟩

theorem WellTyped.sequence {v : Datum C δ} {xs : List (Datum C δ)} (hv : v.WellTyped)
    (h : v.sequence = .ok xs) : ∀ x ∈ xs, x.WellTyped := by
  intro x hx
  cases v with
  | list | tuple =>
    cases h
    exact wellTyped_of_mem hv (List.Subset.refl _) hx
  | text | bytes =>
    cases h
    obtain ⟨_, -, rfl⟩ := List.mem_map.mp hx
    exact wellTyped_of_diffs_eq_nil rfl
  | diff d =>
    have hparts : xs = (DiffView.parts d).map diff := by
      simp only [Datum.sequence] at h
      split at h
      all_goals
        cases h
        try rfl
    rw [hparts] at hx
    obtain ⟨p, hp, rfl⟩ := List.mem_map.mp hx
    refine wellTyped_diff.mpr (Diff.wellTyped_of_mem_parts (wellTyped_diff.mp hv) ?_)
    rw [← DiffView.parts_value]
    exact List.mem_map_of_mem hp
  | _ => cases h

theorem WellTyped.items {v : Datum C δ} {xs : List (Datum C δ)} (hv : v.WellTyped)
    (h : v.items = .ok xs) : ∀ x ∈ xs, x.WellTyped := by
  unfold Datum.items at h
  split at h
  · cases h
    intro x hx
    obtain ⟨f, -, rfl⟩ := List.mem_map.mp hx
    exact wellTyped_of_diffs_eq_nil rfl
  · split at h
    next fields hfields =>
      cases h
      exact fun x hx => wellTyped_of_mem hv (diffsAll_checkFields hfields) hx
    · exact hv.sequence h

end Datum

namespace Draft

open Diff (InstanceOf)

variable {δ : Type} [DiffView δ C] {t : DiffType C} {v : Datum C δ} {d : Draft C δ}

theorem valueAll_eq_map (ds : List (Draft C δ)) : valueAll ds = ds.map value := by
  induction ds with
  | nil => rfl
  | cons d ds ih => simp [valueAll, ih]

/-- What is kept is an instance of the type, so it remains to see about what is built. -/
theorem instanceOf_keepOr {build : Except Fault (Draft C δ)} (hv : v.WellTyped)
    (hbuild : build = .ok d → InstanceOf t d.value) (h : keepOr t v build = .ok d) :
    InstanceOf t d.value := by
  unfold keepOr at h
  split at h
  · split at h
    next hisA =>
      cases h
      exact ⟨Datum.wellTyped_diff.mp hv, hisA⟩
    · exact hbuild h
  · exact hbuild h

theorem instanceOf_ofInteger {k : IntKind} (h : ofInteger k v = .ok d) :
    InstanceOf (.int k) d.value := by
  obtain ⟨m, -, h⟩ := bind_eq_ok.mp h
  obtain ⟨n, hn, h⟩ := bind_eq_ok.mp h
  cases h
  exact .self (Diff.wellTyped_int.mpr (IntKind.holds_of_fit hn))

theorem instanceOf_ofArgument {n : C.Name} (h : ofArgument n v = .ok d) :
    InstanceOf (.custom n) d.value := by
  obtain ⟨s, -, h⟩ := bind_eq_ok.mp h
  cases h
  exact ⟨rfl, DiffType.isSub_self _⟩

theorem instanceOf_emptyTuple : InstanceOf .anyTuple (tuple none [] : Draft C δ).value :=
  ⟨rfl, rfl⟩

theorem instanceOf_emptyVec : InstanceOf .anyVec (vec none [] : Draft C δ).value :=
  ⟨rfl, rfl⟩

theorem instanceOf_tuple {ts : List (DiffType C)} {ds : List (Draft C δ)}
    (h : List.Forall₂ (fun t d => InstanceOf t d.value) ts ds) :
    InstanceOf (.tuple ts) (tuple (some ts) ds).value := by
  refine .self (Diff.wellTyped_tuple.mpr ?_)
  rw [valueAll_eq_map]
  exact List.forall₂_map_right_iff.mpr h

theorem instanceOf_vec {ds : List (Draft C δ)} (h : ∀ d ∈ ds, InstanceOf t d.value) :
    InstanceOf (.vec t) (vec (some t) ds).value := by
  refine .self (Diff.wellTyped_vec.mpr ?_)
  rw [valueAll_eq_map]
  exact List.forall_mem_map.mpr h

theorem instanceOf_mapM {vs : List (Datum C δ)} {ds : List (Draft C δ)}
    (hcoerce : ∀ {v : Datum C δ} {d : Draft C δ}, v.WellTyped → coerce t v = .ok d → InstanceOf t d.value)
    (hvs : ∀ v ∈ vs, v.WellTyped) (h : vs.mapM (coerce t) = .ok ds) :
    ∀ d ∈ ds, InstanceOf t d.value := by
  intro d hd
  obtain ⟨v, hv, hvd⟩ := exists_of_mem_mapM h hd
  exact hcoerce (hvs v hv) hvd

mutual

/-- Well-typed data are coerced to instances of the type. -/
theorem instanceOf_coerce : (t : DiffType C) → {v : Datum C δ} → {d : Draft C δ} → v.WellTyped →
    coerce t v = .ok d → InstanceOf t d.value
  | .tier t, _, _, hv, h => instanceOf_keepOr hv (fun h => by cases h) h
  | .anyInt g, _, _, hv, h => instanceOf_keepOr hv (fun h => by simp at h) h
  | .int k, _, _, hv, h => instanceOf_keepOr hv (fun h => by
    obtain ⟨_, -, h⟩ := bind_eq_ok.mp h
    exact instanceOf_ofInteger h) h
  | .present, v, _, hv, h => instanceOf_keepOr hv (fun h => by
    cases v <;> cases h
    exact ⟨rfl, DiffType.isSub_self _⟩) h
  | .custom n, _, _, hv, h => instanceOf_keepOr hv instanceOf_ofArgument h
  | .anyTuple, _, _, hv, h => instanceOf_keepOr hv (fun h => by
    obtain ⟨xs, -, h⟩ := bind_eq_ok.mp h
    split at h
    · cases h
      exact instanceOf_emptyTuple
    · cases h) h
  | .tuple ts, _, _, hv, h => instanceOf_keepOr hv (fun h => by
    obtain ⟨_, -, h⟩ := bind_eq_ok.mp h
    obtain ⟨xs, hxs, h⟩ := bind_eq_ok.mp h
    split at h
    next hlength =>
      obtain ⟨ds, hds, h⟩ := bind_eq_ok.mp h
      cases h
      exact instanceOf_tuple (instanceOf_coerceAll ts hlength (hv.items hxs) hds)
    · cases h) h
  | .anyVec, _, _, hv, h => instanceOf_keepOr hv (fun h => by
    obtain ⟨xs, -, h⟩ := bind_eq_ok.mp h
    split at h
    · cases h
      exact instanceOf_emptyVec
    · cases h) h
  | .vec t, _, _, hv, h => instanceOf_keepOr hv (fun h => by
    obtain ⟨_, -, h⟩ := bind_eq_ok.mp h
    obtain ⟨xs, hxs, h⟩ := bind_eq_ok.mp h
    obtain ⟨ds, hds, h⟩ := bind_eq_ok.mp h
    cases h
    exact instanceOf_vec (instanceOf_mapM (instanceOf_coerce t) (hv.items hxs) hds)) h

theorem instanceOf_coerceAll : (ts : List (DiffType C)) → {vs : List (Datum C δ)} →
    {ds : List (Draft C δ)} → vs.length = ts.length → (∀ v ∈ vs, v.WellTyped) →
    coerceAll ts vs = .ok ds → List.Forall₂ (fun t d => InstanceOf t d.value) ts ds
  | [], _, _, _, _, h => by
    cases h
    exact .nil
  | t :: ts, [], _, hlength, _, _ => nomatch hlength
  | t :: ts, v :: vs, _, hlength, hvs, h => by
    obtain ⟨d, hd, h⟩ := bind_eq_ok.mp h
    obtain ⟨ds, hds, h⟩ := bind_eq_ok.mp h
    cases h
    exact .cons (instanceOf_coerce t (hvs v List.mem_cons_self) hd)
      (instanceOf_coerceAll ts (Nat.succ.inj hlength)
        (fun u hu => hvs u (List.mem_cons_of_mem _ hu)) hds)

end

/-- Construction from well-typed data gives an instance of the type. -/
theorem instanceOf_construct {vs : List (Datum C δ)} (hvs : ∀ v ∈ vs, v.WellTyped)
    (h : construct t vs = .ok d) : InstanceOf t d.value := by
  unfold construct at h
  split at h
  case h_4 =>
    cases h
    exact .self (Diff.wellTyped_int.mpr (IntKind.holds_zero _))
  case h_5 => exact instanceOf_ofInteger h
  case h_6 =>
    cases h
    exact ⟨rfl, DiffType.isSub_self _⟩
  case h_7 =>
    obtain ⟨s, -, h⟩ := bind_eq_ok.mp h
    cases h
    exact ⟨rfl, DiffType.isSub_self _⟩
  case h_8 => exact instanceOf_ofArgument h
  case h_9 =>
    split at h
    · cases h
      exact instanceOf_emptyTuple
    · cases h
  case h_10 _ ts =>
    split at h
    next hlength =>
      obtain ⟨ds, hds, h⟩ := bind_eq_ok.mp h
      cases h
      exact instanceOf_tuple (instanceOf_coerceAll ts hlength hvs hds)
    · cases h
  case h_11 =>
    cases h
    exact instanceOf_emptyVec
  case h_12 =>
    obtain ⟨xs, -, h⟩ := bind_eq_ok.mp h
    split at h
    · cases h
      exact instanceOf_emptyVec
    · cases h
  case h_13 =>
    cases h
    exact instanceOf_vec (by simp)
  case h_14 t v =>
    obtain ⟨xs, hxs, h⟩ := bind_eq_ok.mp h
    obtain ⟨ds, hds, h⟩ := bind_eq_ok.mp h
    cases h
    exact instanceOf_vec
      (instanceOf_mapM (instanceOf_coerce t) ((hvs v List.mem_cons_self).items hxs) hds)
  all_goals simp at h

theorem valueAll_map_given (xs : List (Diff C)) : valueAll (xs.map given) = xs := by
  rw [valueAll_eq_map, List.map_map]
  exact List.map_id xs

/-- The constructor of a tuple type takes instances of the component types as they are. -/
theorem construct_tuple {ts : List (DiffType C)} {xs : List (Diff C)}
    (h : List.Forall₂ InstanceOf ts xs) :
    (construct (.tuple ts) (xs.map .diff)).map value = .ok (.tuple (some ts) xs) := by
  have hcoerce : coerceAll ts (xs.map Datum.diff) = .ok (xs.map given) := by
    induction h with
    | nil => rfl
    | @cons t x _ _ hx _ ih =>
      have hgiven : coerce t (.diff x) = .ok (given x) := Diff.draftCoerce_of_isA hx.isA
      simp [coerceAll, hgiven, ih]
  simp [construct, h.length_eq, hcoerce, Except.map, value, valueAll_map_given]

/-- The constructor of a sequence type takes instances of the element type as they are. -/
theorem construct_vec {xs : List (Diff C)} (h : ∀ x ∈ xs, InstanceOf t x) (l : Nat) :
    (construct (.vec t) [.list l (xs.map .diff)]).map value = .ok (.vec (some t) xs) := by
  have hcoerce : (xs.map Datum.diff).mapM (coerce t) = .ok (xs.map given) := by
    rw [mapM_eq_ok, List.forall₂_map_left_iff, List.forall₂_map_right_iff, List.forall₂_same]
    exact fun x hx => Diff.draftCoerce_of_isA (h x hx).isA
  simp [construct, Datum.items, Datum.checkFields, Datum.sequence, hcoerce, Except.map, value,
    valueAll_map_given]

end Draft

end DiffAlgebra
