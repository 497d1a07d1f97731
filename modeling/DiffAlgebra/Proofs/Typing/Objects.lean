import DiffAlgebra.Proofs.Sharing.Changes
import DiffAlgebra.Proofs.Typing.Arithmetic

/-!
# Well-typed objects

A value is well typed just if every node of its object fits its type. Whether a node fits depends on
its content and on the types of its components, so a change in place that leaves an object of the
type it is of leaves all objects that hold it well typed. Copies are built again from their types,
which checks their components, and multiplication changes custom objects and lists only.
-/

namespace DiffAlgebra

variable {C : Catalog}

open Datum (nodesAll mem_nodesAll)

def AllFit (ys : List (Object C)) : Prop := ∀ y ∈ ys, y.value.Fits

theorem AllFit.mono {xs ys : List (Object C)} (h : AllFit ys) (hsub : xs ⊆ ys) : AllFit xs :=
  fun y hy => h y (hsub hy)

theorem AllFit.append {xs ys : List (Object C)} (hxs : AllFit xs) (hys : AllFit ys) :
    AllFit (xs ++ ys) :=
  fun y hy => (List.mem_append.mp hy).elim (hxs y) (hys y)

namespace Object

/-- A value is well typed just if all nodes of its object fit their types. -/
theorem wellTyped_iff {x : Object C} : x.value.wellTyped = true ↔ AllFit x.nodes := by
  induction x using parts_induction with
  | step x ih =>
    rw [Diff.wellTyped_iff, parts_value, valueAll_eq_map]
    constructor
    · rintro ⟨hfits, hparts⟩ y hy
      rcases mem_nodes_iff.mp hy with rfl | ⟨p, hp, hyp⟩
      · exact hfits
      · exact (ih p hp).mp (hparts _ (List.mem_map_of_mem hp)) y hyp
    · intro h
      refine ⟨h x (mem_nodes_self x), List.forall_mem_map.mpr fun p hp => (ih p hp).mpr ?_⟩
      exact fun y hy => h y (mem_nodes_of_mem_parts hp hy)

end Object

namespace Datum

theorem nodes_subset_of_mem_diffs {v : Value C} {x : Object C} (hx : x ∈ v.diffs) :
    x.nodes ⊆ v.nodes := by
  induction v using members_induction with
  | step v ih =>
    have hmember {u : Value C} (hu : u ∈ v.members) (hxu : x ∈ u.diffs) : x.nodes ⊆ v.nodes :=
      List.Subset.trans (ih u hu hxu) (nodes_subset_of_mem_members hu)
    cases v with
    | diff y =>
      obtain rfl := List.mem_singleton.mp hx
      exact List.Subset.refl _
    | list l xs | tuple l xs | config l c p xs =>
      rw [diffs, diffsAll_eq_flatMap] at hx
      obtain ⟨u, hu, hxu⟩ := List.mem_flatMap.mp hx
      exact hmember hu hxu
    | record l fs =>
      rw [diffs, diffsFields_eq] at hx
      obtain ⟨u, hu, hxu⟩ := List.mem_flatMap.mp hx
      exact hmember hu hxu
    | _ => cases hx

/-- A datum whose nodes fit their types is well typed. -/
theorem wellTyped_of_allFit {v : Value C} (h : AllFit v.nodes) : v.WellTyped :=
  fun _ hx => Object.wellTyped_iff.mpr (h.mono (nodes_subset_of_mem_diffs hx))

end Datum

namespace Object

private theorem typeOf_eq_of_content_eq {x y : Object C} (h : x.content = y.content) :
    x.typeOf = y.typeOf := by
  cases x <;> cases y <;> simp_all [content, typeOf, value, Diff.typeOf]

theorem fits_tuple {l : Nat} {ts : Option (List (DiffType C))} {xs : List (Object C)} :
    (tuple l ts xs).value.Fits ↔
      List.Forall₂ (fun t s => s.isSub t) (ts.getD []) (xs.map typeOf) := by
  simp only [value, valueAll_eq_map, Diff.Fits, List.forall₂_map_right_iff]
  rfl

theorem fits_vec {l : Nat} {t : Option (DiffType C)} {xs : List (Object C)} :
    (vec l t xs).value.Fits ↔ ∀ u, t = some u → ∀ s ∈ xs.map typeOf, s.isSub u := by
  simp only [value, valueAll_eq_map, Diff.Fits, List.forall_mem_map]
  rfl

/-- Whether an object fits its type depends on its content and on the types of its components. -/
theorem fits_of_content_eq {x y : Object C} (hcontent : x.content = y.content)
    (hparts : x.parts.map typeOf = y.parts.map typeOf) (hy : y.value.Fits) : x.value.Fits := by
  cases x with
  | int | present | custom =>
    cases y <;> cases hcontent
    exact hy
  | tuple l ts xs =>
    cases y with
    | tuple m us ys =>
      obtain rfl : ts = us := (Content.tuple.inj hcontent).1
      rw [fits_tuple] at hy ⊢
      rwa [show xs.map typeOf = ys.map typeOf from hparts]
    | _ => cases hcontent
  | vec l t xs =>
    cases y with
    | vec m u ys =>
      obtain rfl : t = u := (Content.vec.inj hcontent).1
      rw [fits_vec] at hy ⊢
      rwa [show xs.map typeOf = ys.map typeOf from hparts]
    | _ => cases hcontent

/-- An object fits its type, which is that of the nodes in `xs` with its label. -/
structure TypedBy (xs : List (Object C)) (y : Object C) : Prop where
  fits : y.value.Fits
  typeOf_eq : ∀ x ∈ xs, Hits x y → y.typeOf = x.typeOf

theorem TypedBy.of_typeOf_eq {xs : List (Object C)} {y z : Object C} (h : y.TypedBy xs)
    (hz : z.value.Fits) (hlabel : z.label? = y.label?) (htype : z.typeOf = y.typeOf) :
    z.TypedBy xs := by
  refine ⟨hz, fun x hx hxz => ?_⟩
  obtain ⟨l, hxl, hzl⟩ := hxz
  exact htype.trans (h.typeOf_eq x hx ⟨l, hxl, hlabel.symm.trans hzl⟩)

theorem TypedBy.of_fresh {xs : List (Object C)} {y : Object C} {next : Nat} (hy : y.value.Fits)
    (hxs : ∀ x ∈ xs, ∀ l, x.label? = some l → l < next)
    (hfresh : ∀ l, y.label? = some l → next ≤ l) : y.TypedBy xs := by
  refine ⟨hy, fun x hx hxy => ?_⟩
  obtain ⟨l, hxl, hyl⟩ := hxy
  exact absurd (hxs x hx l hxl) (Nat.not_lt.mpr (hfresh l hyl))

/-- The object that is written has the type of the one in whose place it is written. -/
theorem typeOf_write {xs : List (Object C)} {new y : Object C} (hnew : new.TypedBy xs)
    (hknown : ∃ x ∈ xs, Hits x new) (hy : y.TypedBy xs) : (write new y).typeOf = y.typeOf := by
  by_cases h : Hits new y
  · obtain ⟨l, hl, hyl⟩ := h
    obtain ⟨x, hx, m, hxm, hm⟩ := hknown
    obtain rfl : l = m := Option.some.inj (hl.symm.trans hm)
    rw [write_of_label hl hyl, hnew.typeOf_eq x hx ⟨l, hxm, hl⟩, hy.typeOf_eq x hx ⟨l, hxm, hyl⟩]
  · exact typeOf_eq_of_content_eq (content_write h)

/-- An object fits its type after another has been written. -/
theorem TypedBy.write {xs : List (Object C)} {new y : Object C} (hnew : new.TypedBy xs)
    (hknown : ∃ x ∈ xs, Hits x new) (hy : y.TypedBy xs) (hparts : ∀ p ∈ y.parts, p.TypedBy xs) :
    (write new y).TypedBy xs := by
  refine hy.of_typeOf_eq ?_ (label?_write new y) (typeOf_write hnew hknown hy)
  by_cases h : Hits new y
  · obtain ⟨l, hl, hyl⟩ := h
    rw [write_of_label hl hyl]
    exact hnew.fits
  · refine fits_of_content_eq (content_write h) ?_ hy.fits
    rw [parts_write h, List.map_map]
    exact List.map_congr_left fun p hp => typeOf_write hnew hknown (hparts p hp)

end Object

/-- A change in place that leaves an object of the type it is of. -/
structure Write.TypedBy (xs : List (Object C)) (w : Write C) : Prop where
  brought : ∀ y ∈ w.brought, y.TypedBy xs
  known : ∀ new, w = .object new → ∃ x ∈ xs, Object.Hits x new

namespace Datum

/-- All nodes of a datum fit their types, which are those of the nodes in `xs` with their labels. -/
def TypedBy (xs : List (Object C)) (v : Value C) : Prop := ∀ y ∈ v.nodes, y.TypedBy xs

theorem TypedBy.write {xs : List (Object C)} {w : Write C} {v : Value C} (hv : v.TypedBy xs)
    (hw : w.TypedBy xs) : (v.write w).TypedBy xs := by
  intro y hy
  rcases mem_nodes_write hy with hy | ⟨z, hz, rfl⟩
  · exact hw.brought y hy
  · cases w with
    | object new =>
      refine .write (hw.brought new (Object.mem_nodes_self new)) (hw.known new rfl) (hv z hz) ?_
      intro p hp
      exact hv p (mem_nodes_trans hz (Object.mem_nodes_of_mem_parts hp (Object.mem_nodes_self p)))
    | list m items => exact hv z hz

theorem TypedBy.writes {xs : List (Object C)} {ws : List (Write C)} {v : Value C}
    (hv : v.TypedBy xs) (hws : ∀ w ∈ ws, w.TypedBy xs) : (v.writes ws).TypedBy xs := by
  induction ws generalizing v with
  | nil => exact hv
  | cons w ws ih =>
    exact ih (hv.write (hws w List.mem_cons_self)) fun u hu => hws u (List.mem_cons_of_mem _ hu)

end Datum

/-- In a coherent pool a label stands for one type. -/
theorem Coherent.typedBy {next : Nat} {ys : List (Object C)} (h : Coherent next ys)
    (hfits : AllFit ys) {xs : List (Object C)} (hxs : xs ⊆ ys) :
    ∀ y ∈ ys, y.TypedBy xs := by
  refine fun y hy => ⟨hfits y hy, fun x hx hxy => ?_⟩
  obtain ⟨l, hxl, hyl⟩ := hxy
  rw [h.eq_of_label hy (hxs hx) hyl hxl]

namespace DiffType

private theorem length_resolvedAll {ts us : List (DiffType C)} (h : resolvedAll ts = .ok us) :
    us.length = ts.length := by
  induction ts generalizing us with
  | nil =>
    cases h
    rfl
  | cons t ts ih =>
    obtain ⟨_, -, h⟩ := bind_eq_ok.mp h
    obtain ⟨us, hus, h⟩ := bind_eq_ok.mp h
    cases h
    simp [ih hus]

theorem eq_tuple_of_resolved {ts : Option (List (DiffType C))} {t : DiffType C}
    (h : (Diff.tupleType ts).resolved = .ok t) :
    ∃ us, t = .tuple us ∧ us.length = (ts.getD []).length := by
  cases ts with
  | none =>
    cases h
    exact ⟨[], rfl, rfl⟩
  | some ts =>
    obtain ⟨us, hus, h⟩ := bind_eq_ok.mp h
    cases h
    exact ⟨us, rfl, length_resolvedAll hus⟩

theorem eq_vec_of_resolved {u : Option (DiffType C)} {t : DiffType C}
    (h : (Diff.vecType u).resolved = .ok t) : ∃ s, t = .vec s := by
  cases u with
  | none => cases h
  | some u =>
    obtain ⟨s, -, h⟩ := bind_eq_ok.mp h
    cases h
    exact ⟨s, rfl⟩

end DiffType

namespace Object

theorem forall₂_of_checkComponents {ts : List (DiffType C)} {xs : List (Object C)}
    (hlength : ts.length = xs.length) (h : checkComponents ts xs = .ok ()) :
    List.Forall₂ (fun t s => s.isSub t) ts (xs.map typeOf) := by
  induction ts generalizing xs with
  | nil =>
    cases List.length_eq_zero_iff.mp hlength.symm
    exact .nil
  | cons t ts ih =>
    cases xs with
    | nil => cases hlength
    | cons x xs =>
      unfold checkComponents at h
      split at h
      next hx => exact .cons hx (ih (Nat.succ.inj hlength) h)
      · cases h

theorem fits_composeAs_tuple {l : Nat} {ts : List (DiffType C)} {xs : List (Object C)}
    {y : Object C} (hlength : ts.length = xs.length) (h : composeAs l (.tuple ts) xs = .ok y) :
    y.value.Fits := by
  obtain ⟨_, hcheck, h⟩ := bind_eq_ok.mp h
  cases h
  exact fits_tuple.mpr (forall₂_of_checkComponents hlength hcheck)

theorem fits_composeAs_vec {l : Nat} {t : DiffType C} {xs : List (Object C)} {y : Object C}
    (h : composeAs l (.vec t) xs = .ok y) : y.value.Fits := by
  obtain ⟨_, hcheck, h⟩ := bind_eq_ok.mp h
  cases h
  have hall := forall₂_of_checkComponents (by simp) hcheck
  rw [List.forall₂_map_left_iff, List.forall₂_map_right_iff, List.forall₂_same] at hall
  refine fits_vec.mpr fun u hu => ?_
  obtain rfl := Option.some.inj hu
  exact List.forall_mem_map.mpr hall

/-- A composite object built again fits its type, whatever components it is given. -/
theorem fits_recompose {x y : Object C} (hx : x.value.Fits) (h : recompose x = .ok y) :
    y.value.Fits := by
  cases x with
  | int | present | custom =>
    cases h
    exact hx
  | tuple l ts xs =>
    obtain ⟨t, ht, h⟩ := bind_eq_ok.mp h
    obtain ⟨us, rfl, hlength⟩ := DiffType.eq_tuple_of_resolved ht
    refine fits_composeAs_tuple (hlength.trans ?_) h
    simpa using (fits_tuple.mp hx).length_eq
  | vec l u xs =>
    obtain ⟨t, ht, h⟩ := bind_eq_ok.mp h
    obtain ⟨s, rfl⟩ := DiffType.eq_vec_of_resolved ht
    exact fits_composeAs_vec h

private theorem fits_rebuild {x y : Object C} (hx : x.value.Fits) (h : rebuild x = .ok y) :
    y.value.Fits := by
  cases x with
  | int | present | custom =>
    cases h
    exact hx
  | tuple l ts xs =>
    obtain ⟨t, ht, h⟩ := bind_eq_ok.mp h
    obtain ⟨ys, hys, h⟩ := bind_eq_ok.mp h
    obtain ⟨us, rfl, hlength⟩ := DiffType.eq_tuple_of_resolved ht
    rw [rebuildAll_eq_mapM] at hys
    refine fits_composeAs_tuple (hlength.trans ?_) h
    have hxs : (ts.getD []).length = xs.length := by simpa using (fits_tuple.mp hx).length_eq
    exact hxs.trans (mapM_eq_ok.mp hys).length_eq
  | vec l u xs =>
    obtain ⟨t, ht, h⟩ := bind_eq_ok.mp h
    obtain ⟨ys, hys, h⟩ := bind_eq_ok.mp h
    obtain ⟨s, rfl⟩ := DiffType.eq_vec_of_resolved ht
    exact fits_composeAs_vec h

mutual

@[simp] theorem value_shift (d : Nat) : (x : Object C) → (shift d x).value = x.value
  | int _ _ _ | present | custom _ _ _ => rfl
  | tuple _ ts xs => congrArg (Diff.tuple ts) (valueAll_shiftAll d xs)
  | vec _ t xs => congrArg (Diff.vec t) (valueAll_shiftAll d xs)

theorem valueAll_shiftAll (d : Nat) : (xs : List (Object C)) →
    valueAll (shiftAll d xs) = valueAll xs
  | [] => rfl
  | x :: xs => by rw [shiftAll, valueAll, valueAll, value_shift d x, valueAll_shiftAll d xs]

end

private theorem fits_of_copied {pool : List (Object C)} {d : Nat} {y : Object C}
    (hpool : AllFit pool) (h : Copied pool d y) : y.value.Fits := by
  obtain ⟨x, hx, z, hz, rfl⟩ := h
  rw [value_shift]
  exact fits_rebuild (hpool x hx) hz

theorem fits_copy {x y : Object C} {next last : Nat} (hx : AllFit x.nodes)
    (h : copy x next = .ok (y, last)) : AllFit y.nodes := by
  obtain ⟨w, hw, h⟩ := bind_eq_ok.mp h
  have hself := fits_recompose (hx x (mem_nodes_self x)) hw
  have hparts : AllFit (nodesAll w.parts) := by
    rw [parts_recompose hw]
    exact hx.mono (nodesAll_parts_subset x)
  have hy : y.value = w.value ∧ y.parts = w.parts := by
    cases w <;> cases h <;> exact ⟨rfl, rfl⟩
  rw [nodes_eq, hy.2]
  refine List.forall_mem_cons.mpr ⟨?_, hparts⟩
  rw [hy.1]
  exact hself

end Object

namespace Datum

theorem fits_duplicate {rule : CopyRule C} {d : Nat} {v u : Value C}
    (hv : AllFit v.nodes) (h : duplicate rule d v = .ok u) : AllFit u.nodes :=
  fun _ hy => Object.fits_of_copied hv (copied_of_mem_duplicate h hy)

theorem fits_deepCopy {v u : Value C} {next last : Nat} (hv : AllFit v.nodes)
    (h : deepCopy v next = .ok (u, last)) : AllFit u.nodes := by
  obtain ⟨w, hw, h⟩ := bind_eq_ok.mp h
  cases h
  exact fits_duplicate hv hw

theorem fits_archive {v u : Value C} {next last : Nat} (hv : AllFit v.nodes)
    (h : archive v next = .ok (u, last)) : AllFit u.nodes := by
  obtain ⟨w, hw, h⟩ := bind_eq_ok.mp h
  cases h
  exact fits_duplicate hv hw

theorem fits_copy {v u : Value C} {next last : Nat} (hv : AllFit v.nodes)
    (h : copy v next = .ok (u, last)) : AllFit u.nodes := by
  cases v with
  | diff x =>
    obtain ⟨⟨y, n⟩, hy, h⟩ := bind_eq_ok.mp h
    cases h
    exact Object.fits_copy hv hy
  | reference l t =>
    obtain ⟨_, _, h⟩ := bind_eq_ok.mp h
    cases h
    simp [nodes, AllFit]
  | _ =>
    cases h
    exact hv

end Datum

end DiffAlgebra
