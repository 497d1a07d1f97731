import DiffAlgebra.Diff.Addition
import DiffAlgebra.Proofs.Failure
import Mathlib.Data.List.Basic

/-!
# The shape of values

The values of a type over integers and presence markers have the shape of the type, and each of
their leaves may be asked for a property. The exact values of such a type are those whose integers
lie in their ranges.
-/

namespace DiffAlgebra

variable {C : Catalog}

/-- Types over presence markers and integers whose kinds have a property. -/
inductive DiffType.Over (P : IntKind → Prop) : DiffType C → Prop where
  | int {k : IntKind} (kind : P k) : Over P (.int k)
  | present : Over P .present
  | tuple {ts : List (DiffType C)} (components : ∀ t ∈ ts, Over P t) : Over P (.tuple ts)
  | vec {t : DiffType C} (element : Over P t) : Over P (.vec t)

theorem DiffType.Concrete.over {t : DiffType C} (h : t.Concrete) : t.Over fun _ => True := by
  induction h with
  | int k => exact .int trivial
  | present => exact .present
  | tuple _ _ ih => exact .tuple ih
  | vec _ ih => exact .vec ih

/-- Types composed of leaf types that have values: integer kinds, the presence marker and custom
types. -/
inductive DiffType.Composed : DiffType C → Prop where
  | int (k : IntKind) : Composed (.int k)
  | present : Composed .present
  | custom (n : C.Name) : Composed (.custom n)
  | tuple {ts : List (DiffType C)} (components : ∀ t ∈ ts, Composed t) : Composed (.tuple ts)
  | vec {t : DiffType C} (element : Composed t) : Composed (.vec t)

theorem DiffType.Over.composed {P : IntKind → Prop} {t : DiffType C} (h : t.Over P) :
    t.Composed := by
  induction h with
  | int => exact .int _
  | present => exact .present
  | tuple _ ih => exact .tuple ih
  | vec _ ih => exact .vec ih

/-- A tuple type provides what all its components provide. -/
theorem DiffType.provides_tierAll_iff {ts : List (DiffType C)} {a : Tier} :
    (DiffType.tierAll ts).provides a = true ↔ ∀ t ∈ ts, t.tierOf.provides a = true := by
  induction ts with
  | nil => cases a <;> simp [Tier.provides, Tier.rank]
  | cons t ts ih => simp [Tier.provides_meet, ih]

theorem DiffType.Concrete.pair {t u : DiffType C} (ht : t.Concrete) (hu : u.Concrete) :
    (DiffType.tuple [t, u]).Concrete := by
  refine .tuple (show 2 ≤ Fault.maxArity by decide) fun v hv => ?_
  simp only [List.mem_cons, List.not_mem_nil, or_false] at hv
  rcases hv with rfl | rfl
  · exact ht
  · exact hu

theorem forall₂_of_forall_mem_zip {α β : Type} {R : α → β → Prop} {as : List α} {bs : List β}
    (hlength : as.length = bs.length) (h : ∀ p ∈ as.zip bs, R p.1 p.2) : List.Forall₂ R as bs :=
  List.forall₂_iff_zip.mpr ⟨hlength, fun hp => h _ hp⟩

namespace Diff

/-- The values that have the shape of a type and whose integers have a property. -/
inductive Shaped (P : IntKind → Int → Prop) : DiffType C → Diff C → Prop where
  | int {k : IntKind} {n : Int} (leaf : P k n) : Shaped P (.int k) (.int k n)
  | present : Shaped P .present .present
  | tuple {ts : List (DiffType C)} {xs : List (Diff C)} (length_eq : ts.length = xs.length)
      (components : ∀ p ∈ ts.zip xs, Shaped P p.1 p.2) : Shaped P (.tuple ts) (.tuple (some ts) xs)
  | vec {t : DiffType C} {xs : List (Diff C)} (elements : ∀ x ∈ xs, Shaped P t x) :
      Shaped P (.vec t) (.vec (some t) xs)

theorem mem_zip_of_getElem? {α β : Type} {as : List α} {bs : List β} {i : Nat} {a : α} {b : β}
    (ha : as[i]? = some a) (hb : bs[i]? = some b) : (a, b) ∈ as.zip bs :=
  List.mem_of_getElem? (List.getElem?_zip_eq_some.mpr ⟨ha, hb⟩)

theorem exists_getElem?_eq {α β : Type} {as : List α} {bs : List β} {i : Nat} {b : β}
    (hlength : as.length = bs.length) (hb : bs[i]? = some b) : ∃ a, as[i]? = some a := by
  have hi := (List.getElem?_eq_some_iff.mp hb).1
  exact ⟨as[i], List.getElem?_eq_getElem (by omega)⟩

theorem exists_mem_zip {α β : Type} {as : List α} {bs : List β} {b : β}
    (hlength : as.length = bs.length) (hb : b ∈ bs) : ∃ a, (a, b) ∈ as.zip bs := by
  obtain ⟨i, hi⟩ := List.getElem?_of_mem hb
  obtain ⟨a, ha⟩ := exists_getElem?_eq hlength hi
  exact ⟨a, mem_zip_of_getElem? ha hi⟩

namespace Shaped

variable {P Q : IntKind → Int → Prop} {t : DiffType C} {x : Diff C}

theorem typeOf_eq (h : Shaped P t x) : x.typeOf = t := by
  cases h <;> rfl

theorem mono (h : Shaped P t x) (hPQ : ∀ k n, P k n → Q k n) : Shaped Q t x := by
  induction h with
  | int leaf => exact .int (hPQ _ _ leaf)
  | present => exact .present
  | tuple length_eq _ ih => exact .tuple length_eq ih
  | vec _ ih => exact .vec ih

theorem tuple_of_forall₂ {ts : List (DiffType C)} {xs : List (Diff C)}
    (h : List.Forall₂ (Shaped P) ts xs) : Shaped P (.tuple ts) (.tuple (some ts) xs) :=
  .tuple h.length_eq fun _ hp => List.forall₂_zip h hp

/-- A component has a type, which the components of all values of the type have at that place. -/
theorem part (h : Shaped P t x) {i : Nat} {a : Diff C} (ha : x.parts[i]? = some a) :
    ∃ u, Shaped P u a ∧
      ∀ {R : IntKind → Int → Prop} {y b}, Shaped R t y → y.parts[i]? = some b → Shaped R u b := by
  cases h with
  | int | present => simp [parts] at ha
  | tuple length_eq components =>
    obtain ⟨u, hu⟩ := exists_getElem?_eq length_eq ha
    refine ⟨u, components _ (mem_zip_of_getElem? hu ha), fun hy hb => ?_⟩
    cases hy with
    | tuple _ components => exact components _ (mem_zip_of_getElem? hu hb)
  | vec elements =>
    refine ⟨_, elements a (List.mem_of_getElem? ha), fun hy hb => ?_⟩
    cases hy with
    | vec elements => exact elements _ (List.mem_of_getElem? hb)

theorem exact (h : Shaped IntKind.Holds t x) : Exact t x := by
  induction h with
  | int leaf => exact .int leaf
  | present => exact .present
  | tuple length_eq _ ih => exact .tuple length_eq ih
  | vec _ ih => exact .vec ih

end Shaped

theorem Exact.pair {t u : DiffType C} {x y : Diff C} (hx : Exact t x) (hy : Exact u y) :
    Exact (.tuple [t, u]) (.tuple (some [t, u]) [x, y]) := by
  refine .tuple rfl fun p hp => ?_
  simp only [List.zip_cons_cons, List.zip_nil_right, List.mem_cons, List.not_mem_nil,
    or_false] at hp
  rcases hp with rfl | rfl
  · exact hx
  · exact hy

theorem Exact.shaped {Q : IntKind → Prop} {t : DiffType C} {x : Diff C} (h : Exact t x)
    (ht : t.Over Q) : Shaped (fun k n => Q k ∧ k.Holds n) t x := by
  induction h with
  | int holds =>
    cases ht with
    | int kind => exact .int ⟨kind, holds⟩
  | present => exact .present
  | custom => cases ht
  | tuple length_eq _ ih =>
    cases ht with
    | tuple components =>
      refine .tuple length_eq fun p hp => ?_
      exact ih p hp (components _ (List.of_mem_zip hp).1)
  | vec _ ih =>
    cases ht with
    | vec element => exact .vec fun x hx => ih x hx element

theorem Exact.shaped_of_over {Q : IntKind → Prop} {t : DiffType C} {x : Diff C} (h : Exact t x)
    (ht : t.Over Q) : Shaped IntKind.Holds t x :=
  (h.shaped ht).mono fun _ _ hP => hP.2

theorem Exact.shaped_holds {t : DiffType C} {x : Diff C} (h : Exact t x) (ht : t.Concrete) :
    Shaped IntKind.Holds t x :=
  h.shaped_of_over ht.over

/-- A tuple type has a zero if its component types have. -/
theorem exists_zero_tuple {ts : List (DiffType C)} (hmonoid : (DiffType.tuple ts).isMonoid = true)
    (h : ∀ t ∈ ts, ∃ z, zero? t = .ok (some z)) :
    ∃ zs, zero? (.tuple ts) = .ok (some (.tuple (some ts) zs)) ∧
      List.Forall₂ (fun t z => zero? t = .ok (some z)) ts zs := by
  have hall : ∃ os zs, zeroAll ts = .ok os ∧ os.mapM id = some zs ∧
      List.Forall₂ (fun t z => zero? t = .ok (some z)) ts zs := by
    clear hmonoid
    induction ts with
    | nil => exact ⟨[], [], rfl, rfl, .nil⟩
    | cons t ts ih =>
      obtain ⟨⟨z, hz⟩, hts⟩ := List.forall_mem_cons.mp h
      obtain ⟨os, zs, hos, hzs, hzeros⟩ := ih hts
      exact ⟨some z :: os, z :: zs, by simp [zeroAll, hz, hos], by simp [hzs], .cons hz hzeros⟩
  obtain ⟨os, zs, hos, hzs, hzeros⟩ := hall
  exact ⟨zs, by simp [zero?, hmonoid, hos, hzs], hzeros⟩

/-- A type lacks a zero if some leaf of it does. -/
theorem zero?_eq_missingMember {t : DiffType C} (ht : t.Composed) (hmonoid : t.isMonoid = false) :
    zero? t = .error .missingMember := by
  cases ht with
  | int k =>
    cases hk : k.isSigned <;>
      simp [DiffType.isMonoid, DiffType.tierOf, hk, Tier.provides, Tier.rank] at hmonoid
  | present => rfl
  | custom n =>
    have htier : (C.tier n).provides .monoid = false := hmonoid
    simp [zero?, htier]
  | tuple => simp [zero?, hmonoid]
  | @vec t =>
    have helement : t.isMonoid = false := hmonoid
    simp [zero?, helement]

theorem exists_coerce_eq_keepOr {δ : Type} [DiffView δ C] (t : DiffType C) (v : Datum C δ) :
    ∃ build, Draft.coerce t v = Draft.keepOr t v build := by
  cases t <;> exact ⟨_, rfl⟩

/-- A difference of a type is accepted by the type as it is. -/
theorem draftCoerce_of_isA {δ : Type} [DiffView δ C] {t : DiffType C} {d : δ}
    (h : (DiffView.value d).isA t = true) : Draft.coerce t (.diff d) = .ok (.given d) := by
  obtain ⟨build, hbuild⟩ := exists_coerce_eq_keepOr t (Datum.diff d)
  simp [hbuild, Draft.keepOr, h]

theorem coerce_of_isA {t : DiffType C} {x : Diff C} (h : x.isA t = true) :
    coerce t (.diff x) = .ok x :=
  congrArg (Except.map Draft.value) (draftCoerce_of_isA h)

theorem clonableAll_eq_all (xs : List (Diff C)) : clonableAll xs = xs.all clonable := by
  induction xs with
  | nil => rfl
  | cons x xs ih => simp [clonableAll, ih]

theorem clone_eq_ok {x y : Diff C} : x.clone = .ok y ↔ x.clonable = true ∧ x = y := by
  unfold clone
  split <;> simp_all

theorem cloneAll_eq_ok {xs ys : List (Diff C)} :
    cloneAll xs = .ok ys ↔ clonableAll xs = true ∧ xs = ys := by
  unfold cloneAll
  split <;> simp_all

theorem cloneAll_eq {xs : List (Diff C)} (h : ∀ x ∈ xs, x.clonable = true) :
    cloneAll xs = .ok xs := by
  have hall : clonableAll xs = true := by
    rw [clonableAll_eq_all]
    exact List.all_eq_true.mpr h
  simp [cloneAll, hall]

theorem clonable_of_mem_parts {x y : Diff C} (hx : x.clonable = true) (hy : y ∈ x.parts) :
    y.clonable = true := by
  cases x with
  | int | present | custom => cases hy
  | tuple ts xs =>
    rw [clonable, clonableAll_eq_all, List.all_eq_true] at hx
    exact hx y hy
  | vec t xs =>
    cases t with
    | none =>
      rw [clonable, List.isEmpty_iff] at hx
      rw [parts, hx] at hy
      cases hy
    | some t =>
      rw [clonable, clonableAll_eq_all, List.all_eq_true] at hx
      exact hx y hy

theorem accumulate_cons {x : Diff C} (hx : x.clonable = true) (vs : List (Datum C (Diff C))) :
    accumulate (.diff x :: vs) = x.plusAll vs := by
  simp [accumulate, clone, hx]

theorem cloneAll_parts {x : Diff C} (hx : x.clonable = true) : cloneAll x.parts = .ok x.parts :=
  cloneAll_eq fun _ hy => clonable_of_mem_parts hx hy

namespace Shaped

variable {P : IntKind → Int → Prop} {t : DiffType C} {x : Diff C}

theorem clonable (h : Shaped P t x) : x.clonable = true := by
  induction h with
  | int => rfl
  | present => rfl
  | tuple length_eq _ ih =>
    rw [Diff.clonable, clonableAll_eq_all, List.all_eq_true]
    intro x hx
    obtain ⟨t, ht⟩ := exists_mem_zip length_eq hx
    exact ih _ ht
  | vec _ ih =>
    rw [Diff.clonable, clonableAll_eq_all, List.all_eq_true]
    exact ih

theorem clone_eq (h : Shaped P t x) : x.clone = .ok x := by
  simp [clone, h.clonable]

end Shaped

end Diff

end DiffAlgebra
