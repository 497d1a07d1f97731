import DiffAlgebra.Proofs.Addition.Padding
import DiffAlgebra.Proofs.Laws.Passing
import DiffAlgebra.Proofs.Sharing.Results
import DiffAlgebra.Session.Run

/-!
# Composite types keep the laws of their components

Addition of tuples and sequences takes place position by position, and where a sequence has ended
the element of the other one is kept. So a law of all component types is a law of the composite
type, whatever the component types are, and however the lengths of sequences compare.
-/

namespace DiffAlgebra

variable {C : Catalog}

def DiffType.components : DiffType C → List (DiffType C)
  | tuple ts => ts
  | vec t => [t]
  | tier _ | anyInt _ | int _ | present | custom _ | anyTuple | anyVec => []

namespace Diff

/-- Composite values whose components are, for each component type, of a given set of values. -/
inductive ComposedOf (V : DiffType C → Diff C → Prop) : DiffType C → Diff C → Prop where
  | tuple {ts : List (DiffType C)} {xs : List (Diff C)} (components : List.Forall₂ V ts xs) :
      ComposedOf V (.tuple ts) (.tuple (some ts) xs)
  | vec {t : DiffType C} {xs : List (Diff C)} (elements : ∀ x ∈ xs, V t x) :
      ComposedOf V (.vec t) (.vec (some t) xs)

abbrev Composed : DiffType C → Diff C → Prop := ComposedOf fun _ _ => True

namespace ComposedOf

variable {V W : DiffType C → Diff C → Prop} {t : DiffType C} {x y : Diff C}

theorem typeOf_eq (h : ComposedOf V t x) : x.typeOf = t := by
  cases h <;> rfl

/-- A component is of the set for one of the component types, and so are the components at that
place of all other values of the type. -/
theorem part (h : ComposedOf V t x) {i : Nat} {a : Diff C} (ha : x.parts[i]? = some a) :
    ∃ u ∈ t.components, V u a ∧
      ∀ {W : DiffType C → Diff C → Prop} {y b}, ComposedOf W t y → y.parts[i]? = some b → W u b := by
  cases h with
  | tuple components =>
    obtain ⟨u, hu, hua⟩ := exists_getElem?_of_forall₂ components ha
    refine ⟨u, List.mem_of_getElem? hu, hua, fun hy hb => ?_⟩
    cases hy with
    | tuple components' =>
      obtain ⟨v, hv, hvb⟩ := exists_getElem?_of_forall₂ components' hb
      cases hu.symm.trans hv
      exact hvb
  | vec elements =>
    refine ⟨_, List.mem_singleton_self _, elements a (List.mem_of_getElem? ha), fun hy hb => ?_⟩
    cases hy with
    | vec elements' => exact elements' _ (List.mem_of_getElem? hb)

theorem ext (hx : ComposedOf V t x) (hy : ComposedOf W t y)
    (h : ∀ i : Nat, x.parts[i]? = y.parts[i]?) : x = y := by
  cases hx with
  | tuple =>
    cases hy with
    | tuple => exact congrArg _ (List.ext_getElem? h)
  | vec =>
    cases hy with
    | vec => exact congrArg _ (List.ext_getElem? h)

private theorem isZero_iff (h : ComposedOf V t x) :
    x.isZero = true ↔ ∀ (i : Nat) a, x.parts[i]? = some a → a.isZero = true := by
  cases h <;> exact isZeroAll_iff

end ComposedOf

theorem composed_tuple {ts : List (DiffType C)} {xs : List (Diff C)} (h : ts.length = xs.length) :
    Composed (.tuple ts) (.tuple (some ts) xs) :=
  .tuple (List.forall₂_iff_get.mpr ⟨h, fun _ _ _ => trivial⟩)

/-- What the sum of two sequences has at a place: the sum of what they have there, or the element
that only one of them has. -/
inductive SumAt : Option (Diff C) → Option (Diff C) → Option (Diff C) → Prop where
  | none : SumAt none none none
  | left (x : Diff C) : SumAt (some x) none (some x)
  | right (y : Diff C) : SumAt none (some y) (some y)
  | both {x y z : Diff C} (h : x.plus (.diff y) = .ok z) : SumAt (some x) (some y) (some z)

/-- The order in which three elements are added does not matter if it does not for elements that are
there. -/
theorem SumAt.assoc {x y z xy yz l r : Option (Diff C)} (hxy : SumAt x y xy) (hl : SumAt xy z l)
    (hyz : SumAt y z yz) (hr : SumAt x yz r)
    (h : ∀ a b c ab bc d e, x = some a → y = some b → z = some c → a.plus (.diff b) = .ok ab →
      ab.plus (.diff c) = .ok d → b.plus (.diff c) = .ok bc → a.plus (.diff bc) = .ok e → d = e) :
    l = r := by
  -- only where all three elements are there does the law of the elements come in
  cases hxy with
  | none =>
    cases hl with
    | none | right =>
      cases hyz
      cases hr
      rfl
  | left a =>
    cases hl with
    | left =>
      cases hyz
      cases hr
      rfl
    | both hd =>
      cases hyz
      cases hr with
      | both he => exact congrArg some (Except.ok.inj (hd.symm.trans he))
  | right b =>
    cases hl with
    | left =>
      cases hyz
      cases hr
      rfl
    | both hd =>
      cases hyz with
      | both hbc =>
        cases hr
        exact congrArg some (Except.ok.inj (hd.symm.trans hbc))
  | both hab =>
    cases hl with
    | left =>
      cases hyz
      cases hr with
      | both he => exact congrArg some (Except.ok.inj (hab.symm.trans he))
    | both hd =>
      cases hyz with
      | both hbc =>
        cases hr with
        | both he => exact congrArg some (h _ _ _ _ _ _ _ rfl rfl rfl hab hd hbc he)

theorem SumAt.eq_left {x z : Option (Diff C)} (h : SumAt x .none z) : z = x := by
  cases h <;> rfl

theorem SumAt.comm {x y l r : Option (Diff C)} (hl : SumAt x y l) (hr : SumAt y x r)
    (h : ∀ a b d e, x = some a → y = some b → a.plus (.diff b) = .ok d → b.plus (.diff a) = .ok e →
      d = e) : l = r := by
  cases hl with
  | none | left | right =>
    cases hr
    rfl
  | both hd =>
    cases hr with
    | both he => rw [h _ _ _ _ rfl rfl hd he]

theorem sumAt_addAll {xs ys zs : List (Diff C)} (h : addAll xs ys = .ok zs) (i : Nat) :
    SumAt xs[i]? ys[i]? (zs ++ xs.drop ys.length ++ ys.drop xs.length)[i]? := by
  induction xs generalizing ys zs i with
  | nil =>
    cases h
    cases hy : ys[i]? with
    | none => simpa [hy] using SumAt.none
    | some y => simpa [hy] using SumAt.right y
  | cons x xs ih =>
    cases ys with
    | nil =>
      cases h
      cases hx : (x :: xs)[i]? with
      | none => simpa [hx] using SumAt.none
      | some x => simpa [hx] using SumAt.left x
    | cons y ys =>
      simp only [addAll, bind_eq_ok] at h
      obtain ⟨y', hy, z, hz, zs, hzs, h⟩ := h
      cases h
      cases i with
      | zero => exact .both (by simp [plus, hy, hz])
      | succ i => simpa using ih hzs i

private theorem length_addAll {xs ys zs : List (Diff C)} (h : addAll xs ys = .ok zs) :
    zs.length = min xs.length ys.length := by
  induction xs generalizing ys zs with
  | nil =>
    cases h
    simp
  | cons x xs ih =>
    cases ys with
    | nil =>
      cases h
      simp
    | cons y ys =>
      simp only [addAll, bind_eq_ok] at h
      obtain ⟨-, -, z, -, zs, hzs, h⟩ := h
      cases h
      simp [ih hzs]

theorem negateAll_eq_ok {xs ns : List (Diff C)} (h : negateAll xs = .ok ns) :
    List.Forall₂ (fun x n => x.negate = .ok n) xs ns := by
  induction xs generalizing ns with
  | nil =>
    cases h
    exact .nil
  | cons x xs ih =>
    simp only [negateAll, bind_eq_ok] at h
    obtain ⟨n, hn, ns, hns, h⟩ := h
    cases h
    exact .cons hn (ih hns)

namespace ComposedOf

variable {V W : DiffType C → Diff C → Prop} {t : DiffType C} {x y z n : Diff C}

/-- A sum of composite values of one type is a composite value of that type, and has the sum of the
components at each place. -/
theorem plus_eq_ok (hx : ComposedOf V t x) (hy : ComposedOf W t y) (h : x.plus (.diff y) = .ok z) :
    x.clonable = true ∧ Composed t z ∧
      ∀ i : Nat, SumAt x.parts[i]? y.parts[i]? z.parts[i]? := by
  have hisA : y.isA x.typeOf = true := by
    rw [isA, hy.typeOf_eq, hx.typeOf_eq, DiffType.isSub_self]
  rw [plus, coerce_of_isA hisA, ok_bind] at h
  cases hx with
  | @tuple ts xs components =>
    cases hy with
    | @tuple _ ys components' =>
      simp only [add, bind_eq_ok, cloneAll_eq_ok, parts] at h
      obtain ⟨_, ⟨hclonable, -⟩, zs, hzs, h⟩ := h
      cases h
      have hlength : ys.length = xs.length := components'.length_eq.symm.trans components.length_eq
      have hsum := sumAt_addAll hzs
      rw [List.drop_eq_nil_of_le hlength.le, List.append_nil] at hsum
      refine ⟨hclonable, composed_tuple ?_, hsum⟩
      rw [components.length_eq]
      simp [length_addAll hzs, hlength]
  | @vec t xs _ =>
    cases hy with
    | @vec _ ys _ =>
      simp only [add, bind_eq_ok, cloneAll_eq_ok, parts] at h
      obtain ⟨_, ⟨hclonable, -⟩, zs, hzs, _, ⟨-, rfl⟩, h⟩ := h
      cases h
      exact ⟨hclonable, .vec fun _ _ => trivial, sumAt_addAll hzs⟩

/-- The inverse of a composite value has the inverses of the components. -/
theorem negate_eq_ok (hx : ComposedOf V t x) (h : x.negate = .ok n) :
    x.clonable = true ∧ Composed t n ∧
      List.Forall₂ (fun a b => a.negate = .ok b) x.parts n.parts := by
  cases hx with
  | @tuple ts xs components =>
    simp only [negate] at h
    split at h
    · simp only [bind_eq_ok, cloneAll_eq_ok] at h
      obtain ⟨_, ⟨hclonable, -⟩, ns, hns, h⟩ := h
      cases h
      have hinverses := negateAll_eq_ok hns
      exact ⟨hclonable, composed_tuple (components.length_eq.trans hinverses.length_eq), hinverses⟩
    · cases h
  | @vec t xs _ =>
    simp only [negate] at h
    split at h
    · simp only [bind_eq_ok, cloneAll_eq_ok] at h
      obtain ⟨_, ⟨hclonable, -⟩, ns, hns, h⟩ := h
      cases h
      exact ⟨hclonable, .vec fun _ _ => trivial, negateAll_eq_ok hns⟩
    · cases h

end ComposedOf

end Diff

namespace Operation

def lawArity? : Operation → Option Nat
  | checkZeroIdentity | checkNegationInverse => some 1
  | checkCommutativity => some 2
  | checkAssociativity => some 3
  | _ => none

/-- Whether a type has the operations that a law is about. -/
def appliesTo (op : Operation) (t : DiffType C) : Bool :=
  match op with
  | checkZeroIdentity => t.isMonoid
  | checkNegationInverse => t.isAbelian
  | _ => true

def sums : Operation → List (Diff C) → List (Except Fault (Diff C))
  | checkZeroIdentity, [x] =>
    match Diff.zero? x.typeOf with
    | .ok (some z) => [x.plus (.diff z)]
    | _ => []
  | checkNegationInverse, [x] => [do (← x.negate).plus (.diff x)]
  | checkAssociativity, [x, y, z] =>
    [do (← x.plus (.diff y)).plus (.diff z), do x.plus (.diff (← y.plus (.diff z)))]
  | checkCommutativity, [x, y] => [x.plus (.diff y), y.plus (.diff x)]
  | _, _ => []

def ofValues : Operation → List (Diff C) → Except Fault (Option LawViolation)
  | checkZeroIdentity, [x] => Law.OfValues.checkZeroIdentity (.diff x)
  | checkNegationInverse, [x] => Law.OfValues.checkNegationInverse (.diff x)
  | checkAssociativity, [x, y, z] => Law.OfValues.checkAssociativity (.diff x) (.diff y) (.diff z)
  | checkCommutativity, [x, y] => Law.OfValues.checkCommutativity (.diff x) (.diff y)
  | _, _ => .error .badArguments

/-- The check of a law comes to the check of the values. -/
theorem result_call {op : Operation} {xs : List (Object C)} {next : Nat}
    (harity : op.lawArity? = some xs.length) (hxs : ∀ l ∈ Object.labelsAll xs, l < next)
    (known : Schemas C) :
    (op.call (xs.map .diff) known next).result =
      (op.ofValues (xs.map Object.value)).map Session.lawValue := by
  have hvalid := Progress.valid_start (C := C) next
  have hsettled {x : Object C} (hx : x ∈ xs) : Progress.Settled ⟨[], next⟩ (Datum.diff x).nodes :=
    (Progress.settled_of_labels_lt hxs).mono fun y hy => Object.mem_nodesAll.mpr ⟨x, hx, hy⟩
  have hcheck {m : UpdateM C (Option LawViolation)} {r : Except Fault (Option LawViolation)}
      (h : Mirrors (fun a b _ => a = b) r m ⟨[], next⟩) :
      (Session.checkLaw m next).result = r.map Session.lawValue :=
    congrArg (Except.map Session.lawValue) h.run_eq
  cases op <;> simp only [lawArity?, Option.some.injEq, reduceCtorEq] at harity
  case checkZeroIdentity =>
    obtain ⟨x, rfl⟩ := List.length_eq_one_iff.mp harity.symm
    have hx := hsettled (x := x) (by simp)
    have hmirrors := Law.mirrors_checkZeroIdentity hvalid hx.upToDate
    exact hcheck hmirrors
  case checkNegationInverse =>
    obtain ⟨x, rfl⟩ := List.length_eq_one_iff.mp harity.symm
    have hx := hsettled (x := x) (by simp)
    have hmirrors := Law.mirrors_checkNegationInverse hvalid hx
    exact hcheck hmirrors
  case checkAssociativity =>
    obtain ⟨x, y, z, rfl⟩ := List.length_eq_three.mp harity.symm
    have hx := hsettled (x := x) (by simp)
    have hy := hsettled (x := y) (by simp)
    have hz := hsettled (x := z) (by simp)
    have hmirrors := Law.mirrors_checkAssociativity hvalid hx.upToDate hy.upToDate hz.upToDate
    exact hcheck hmirrors
  case checkCommutativity =>
    obtain ⟨x, y, rfl⟩ := List.length_eq_two.mp harity.symm
    have hx := hsettled (x := x) (by simp)
    have hy := hsettled (x := y) (by simp)
    have hmirrors := Law.mirrors_checkCommutativity hvalid hx.upToDate hy.upToDate
    exact hcheck hmirrors

/-- No sum and no inverse of the check fails. -/
def Summable (op : Operation) (ds : List (Diff C)) : Prop := ∀ r ∈ op.sums ds, ∃ z, r = .ok z

/-- A law is satisfied by a set of values of a type: the type has the operations that the law is
about, and the check of the law finds nothing on any operands whose sums and inverses can be made.
-/
structure SatisfiedBy (op : Operation) (t : DiffType C) (V : Diff C → Prop) : Prop where
  declared : op.appliesTo t = true
  passes : ∀ {xs : List (Object C)} {next : Nat}, op.lawArity? = some xs.length →
    (∀ x ∈ xs, V x.value) → (∀ l ∈ Object.labelsAll xs, l < next) →
    op.Summable (xs.map Object.value) →
    ∀ known, (op.call (xs.map .diff) known next).result = .ok .null

def PassesOn (op : Operation) (V : Diff C → Prop) : Prop :=
  ∀ ds : List (Diff C), op.lawArity? = some ds.length → (∀ d ∈ ds, V d) → op.Summable ds →
    op.ofValues ds = .ok none

theorem satisfiedBy_iff {op : Operation} {t : DiffType C} {V : Diff C → Prop} :
    op.SatisfiedBy t V ↔ op.appliesTo t = true ∧ op.PassesOn V := by
  have hnull {r : Except Fault (Option LawViolation)} :
      r.map (Session.lawValue (C := C)) = .ok .null ↔ r = .ok none := by
    rcases r with f | _ | v <;> simp [Session.lawValue]
  constructor
  · rintro ⟨hdeclared, hpasses⟩
    refine ⟨hdeclared, fun ds harity hds hsums => ?_⟩
    have hown := Object.ownLabels_ofDiffs ds 0
    have hvalues : ((Object.ofDiffs ds 0).1).map Object.value = ds := by
      rw [← Object.valueAll_eq_map, Object.valueAll_ofDiffs]
    generalize (Object.ofDiffs ds 0).1 = xs at hown hvalues
    subst hvalues
    have harity' : op.lawArity? = some xs.length := by simpa using harity
    have hlabels : ∀ l ∈ Object.labelsAll xs, l < _ := fun l hl => (hown.mem l hl).2
    have hresult := hpasses harity' (fun x hx => hds _ (List.mem_map_of_mem hx)) hlabels hsums []
    rw [result_call harity' hlabels] at hresult
    exact hnull.mp hresult
  · rintro ⟨hdeclared, hpasses⟩
    refine ⟨hdeclared, fun harity hxs hlabels hsums known => ?_⟩
    rw [result_call harity hlabels, hnull]
    refine hpasses _ (by simpa using harity) (fun d hd => ?_) hsums
    obtain ⟨x, hx, rfl⟩ := List.mem_map.mp hd
    exact hxs x hx

section

open Diff (ComposedOf)
open Law.OfValues

variable {V : DiffType C → Diff C → Prop} {t : DiffType C}

private theorem passesOn_associativity (h : ∀ u ∈ t.components, PassesOn checkAssociativity (V u)) :
    PassesOn checkAssociativity (ComposedOf V t) := by
  intro ds harity hds hsums
  obtain ⟨x, y, z, rfl⟩ := List.length_eq_three.mp (Option.some.inj harity).symm
  obtain ⟨hx, hy, hz⟩ : ComposedOf V t x ∧ ComposedOf V t y ∧ ComposedOf V t z := by
    simpa using hds
  obtain ⟨l, hl⟩ := hsums _ List.mem_cons_self
  obtain ⟨r, hr⟩ := hsums _ (List.mem_cons_of_mem _ List.mem_cons_self)
  obtain ⟨xy, hxy, hl⟩ := bind_eq_ok.mp hl
  obtain ⟨yz, hyz, hr⟩ := bind_eq_ok.mp hr
  obtain ⟨hxclone, hxys, hxyAt⟩ := hx.plus_eq_ok hy hxy
  obtain ⟨-, hls, hlAt⟩ := hxys.plus_eq_ok hz hl
  obtain ⟨hyclone, hyzs, hyzAt⟩ := hy.plus_eq_ok hz hyz
  obtain ⟨-, hrs, hrAt⟩ := hx.plus_eq_ok hyzs hr
  have heq : l = r := by
    refine hls.ext hrs fun i => (hxyAt i).assoc (hlAt i) (hyzAt i) (hrAt i) ?_
    intro a b c ab bc d e ha hb hc hab hd hbc he
    obtain ⟨u, hu, hau, hparts⟩ := hx.part ha
    have hpasses := h u hu [a, b, c] rfl (by simp [hau, hparts hy hb, hparts hz hc])
      (by simp [Summable, sums, hab, hd, hbc, he])
    obtain ⟨-, -, _, _, s, hab', hd', hbc', he'⟩ := checkAssociativity_eq_none.mp hpasses
    cases hab.symm.trans hab'
    cases hbc.symm.trans hbc'
    cases hd.symm.trans hd'
    exact Except.ok.inj (he'.symm.trans he)
  subst heq
  exact checkAssociativity_eq_none.mpr ⟨hxclone, hyclone, xy, yz, l, hxy, hl, hyz, hr⟩

private theorem passesOn_commutativity (h : ∀ u ∈ t.components, PassesOn checkCommutativity (V u)) :
    PassesOn checkCommutativity (ComposedOf V t) := by
  intro ds harity hds hsums
  obtain ⟨x, y, rfl⟩ := List.length_eq_two.mp (Option.some.inj harity).symm
  obtain ⟨hx, hy⟩ : ComposedOf V t x ∧ ComposedOf V t y := by simpa using hds
  obtain ⟨l, hl⟩ := hsums _ List.mem_cons_self
  obtain ⟨r, hr⟩ := hsums _ (List.mem_cons_of_mem _ List.mem_cons_self)
  obtain ⟨hxclone, hls, hlAt⟩ := hx.plus_eq_ok hy hl
  obtain ⟨hyclone, hrs, hrAt⟩ := hy.plus_eq_ok hx hr
  have heq : l = r := by
    refine hls.ext hrs fun i => (hlAt i).comm (hrAt i) fun a b d e ha hb hd he => ?_
    obtain ⟨u, hu, hau, hparts⟩ := hx.part ha
    have hpasses := h u hu [a, b] rfl (by simp [hau, hparts hy hb]) (by simp [Summable, sums, hd, he])
    obtain ⟨-, -, s, hd', he'⟩ := checkCommutativity_eq_none.mp hpasses
    cases hd.symm.trans hd'
    exact Except.ok.inj (he'.symm.trans he)
  subst heq
  exact checkCommutativity_eq_none.mpr ⟨hxclone, hyclone, l, hl, hr⟩

private theorem passesOn_negationInverse
    (h : ∀ u ∈ t.components, PassesOn checkNegationInverse (V u)) :
    PassesOn checkNegationInverse (ComposedOf V t) := by
  intro ds harity hds hsums
  obtain ⟨x, rfl⟩ := List.length_eq_one_iff.mp (Option.some.inj harity).symm
  have hx : ComposedOf V t x := hds x List.mem_cons_self
  obtain ⟨s, hs⟩ := hsums _ List.mem_cons_self
  obtain ⟨n, hn, hs⟩ := bind_eq_ok.mp hs
  obtain ⟨hclone, hns, hnAt⟩ := hx.negate_eq_ok hn
  obtain ⟨-, hss, hsAt⟩ := hns.plus_eq_ok hx hs
  refine checkNegationInverse_eq_none.mpr ⟨hclone, n, s, hn, hs, hss.isZero_iff.mpr fun i e he => ?_⟩
  have hi := hsAt i
  rw [he] at hi
  cases hb : n.parts[i]? with
  | none =>
    have ha : x.parts[i]? = none := by simpa [hnAt.length_eq] using hb
    rw [hb, ha] at hi
    cases hi
  | some b =>
    obtain ⟨a, ha, hab⟩ := exists_getElem?_of_forall₂ hnAt hb
    rw [hb, ha] at hi
    cases hi with
    | both hbe =>
      obtain ⟨u, hu, hau, -⟩ := hx.part ha
      have hpasses := h u hu [a] rfl (by simp [hau]) (by simp [Summable, sums, hab, hbe])
      obtain ⟨-, _, _, hab', hbe', hzero⟩ := checkNegationInverse_eq_none.mp hpasses
      cases hab.symm.trans hab'
      cases hbe.symm.trans hbe'
      exact hzero

theorem summable_zeroIdentity {x : Diff C} : Summable checkZeroIdentity [x] ↔
    ∀ z, Diff.zero? x.typeOf = .ok (some z) → ∃ s, x.plus (.diff z) = .ok s := by
  simp only [Summable, sums]
  split
  next z hz => simp [hz]
  next hz => simpa using fun z h => absurd h (hz z)

/-- A type of which a value keeps the law has a zero. -/
theorem exists_zero_of_passesOn {u : DiffType C} {a : Diff C} (hau : V u a) (ha : a.typeOf = u)
    (h : PassesOn checkZeroIdentity (V u)) : ∃ z, Diff.zero? u = .ok (some z) := by
  by_contra hnone
  have hsums : Summable checkZeroIdentity [a] :=
    summable_zeroIdentity.mpr fun z hz => absurd ⟨z, ha ▸ hz⟩ hnone
  obtain ⟨z, hz, -⟩ := checkZeroIdentity_eq_none.mp (h [a] rfl (by simp [hau]) hsums)
  exact hnone ⟨z, ha ▸ hz⟩

private theorem zero_of_passesOn {u : DiffType C} {a z s : Diff C} (hau : V u a) (ha : a.typeOf = u)
    (h : PassesOn checkZeroIdentity (V u)) (hz : Diff.zero? u = .ok (some z))
    (hs : a.plus (.diff z) = .ok s) : z.isZero = true ∧ s = a := by
  subst ha
  have hsums : Summable checkZeroIdentity [a] := by
    refine summable_zeroIdentity.mpr fun w hw => ?_
    cases hz.symm.trans hw
    exact ⟨s, hs⟩
  obtain ⟨w, hw, hzero, -, hsame⟩ :=
    checkZeroIdentity_eq_none.mp (h [a] rfl (by simp [hau]) hsums)
  cases hz.symm.trans hw
  exact ⟨hzero, Except.ok.inj (hs.symm.trans hsame)⟩

private theorem passesOn_zeroIdentity (hV : ∀ u a, V u a → a.typeOf = u)
    (hmonoid : t.isMonoid = true)
    (h : ∀ u ∈ t.components, PassesOn checkZeroIdentity (V u)) :
    PassesOn checkZeroIdentity (ComposedOf V t) := by
  intro ds harity hds hsums
  obtain ⟨x, rfl⟩ := List.length_eq_one_iff.mp (Option.some.inj harity).symm
  have hx : ComposedOf V t x := hds x List.mem_cons_self
  rw [summable_zeroIdentity, hx.typeOf_eq] at hsums
  rw [ofValues, checkZeroIdentity_eq_none, hx.typeOf_eq]
  cases hx with
  | @tuple ts xs components =>
    have hzeros : ∀ u ∈ ts, ∃ z, Diff.zero? u = .ok (some z) := by
      intro u hu
      obtain ⟨a, -, hua⟩ := exists_mem_of_forall₂ components.flip hu
      exact exists_zero_of_passesOn hua (hV u a hua) (h u hu)
    obtain ⟨zs, hz, hzs⟩ := Diff.exists_zero_tuple hmonoid hzeros
    obtain ⟨s, hs⟩ := hsums _ hz
    have hx : ComposedOf V (.tuple ts) (.tuple (some ts) xs) := .tuple components
    obtain ⟨hclone, hss, hsAt⟩ := hx.plus_eq_ok (.tuple hzs) hs
    have hlength : xs.length = zs.length := components.length_eq.symm.trans hzs.length_eq
    have hkeeps (i : Nat) (z : Diff C) (hz : zs[i]? = some z) :
        z.isZero = true ∧ s.parts[i]? = xs[i]? := by
      obtain ⟨a, ha⟩ := Diff.exists_getElem?_eq hlength hz
      obtain ⟨u, hu, hua⟩ := exists_getElem?_of_forall₂ components ha
      obtain ⟨v, hv, hvz⟩ := exists_getElem?_of_forall₂ hzs hz
      cases hu.symm.trans hv
      have hi : Diff.SumAt xs[i]? zs[i]? s.parts[i]? := hsAt i
      rw [ha, hz] at hi
      generalize s.parts[i]? = o at hi
      cases hi with
      | both hsum =>
        obtain ⟨hzero, rfl⟩ := zero_of_passesOn hua (hV u a hua) (h u (List.mem_of_getElem? hu)) hvz hsum
        exact ⟨hzero, ha.symm⟩
    have heq : s = .tuple (some ts) xs := by
      refine hss.ext hx fun i => ?_
      cases hz : zs[i]? with
      | some z => exact (hkeeps i z hz).2
      | none =>
        have hi := hsAt i
        rw [show (Diff.tuple (some ts) zs).parts[i]? = none from hz] at hi
        exact hi.eq_left
    exact ⟨_, hz, Diff.isZeroAll_iff.mpr fun i z hz => (hkeeps i z hz).1, hclone, heq ▸ hs⟩
  | @vec u xs elements =>
    have hz : Diff.zero? (.vec u) = .ok (some (.vec (some u) [])) := if_pos hmonoid
    obtain ⟨s, hs⟩ := hsums _ hz
    have hx : ComposedOf V (.vec u) (.vec (some u) xs) := .vec elements
    have hzero : ComposedOf V (.vec u) (.vec (some u) []) := .vec (by simp)
    obtain ⟨hclone, hss, hsAt⟩ := hx.plus_eq_ok hzero hs
    have heq : s = .vec (some u) xs := hss.ext hx fun i => (hsAt i).eq_left
    exact ⟨_, hz, rfl, hclone, heq ▸ hs⟩

end

/-- A law whose operations all components have and which the check of every component type finds
kept is a law of the composite type. -/
theorem satisfiedBy_composedOf {op : Operation} {V : DiffType C → Diff C → Prop}
    (hV : ∀ u a, V u a → a.typeOf = u) {t : DiffType C}
    (hdeclared : op.appliesTo t = true) (h : ∀ u ∈ t.components, op.SatisfiedBy u (V u)) :
    op.SatisfiedBy t (Diff.ComposedOf V t) := by
  have hpasses := fun u hu => (satisfiedBy_iff.mp (h u hu)).2
  refine satisfiedBy_iff.mpr ⟨hdeclared, ?_⟩
  cases op
  case checkZeroIdentity => exact passesOn_zeroIdentity hV hdeclared hpasses
  case checkNegationInverse => exact passesOn_negationInverse hpasses
  case checkAssociativity => exact passesOn_associativity hpasses
  case checkCommutativity => exact passesOn_commutativity hpasses
  all_goals exact fun _ harity => nomatch harity

private theorem appliesTo_tuple {op : Operation} {ts : List (DiffType C)}
    (h : ∀ u ∈ ts, op.appliesTo u = true) : op.appliesTo (.tuple ts) = true := by
  cases op
  case checkZeroIdentity => exact DiffType.provides_tierAll_iff.mpr h
  case checkNegationInverse => exact DiffType.provides_tierAll_iff.mpr h
  all_goals rfl

/-- Composition keeps the laws. If a law is satisfied by values of each component type, then it is
by the tuples of such values, of any number, and by the sequences of such values, of any lengths. -/
theorem satisfiedBy_composite {op : Operation} {V : DiffType C → Diff C → Prop}
    (hV : ∀ u a, V u a → a.typeOf = u) :
    (∀ ts, (∀ u ∈ ts, op.SatisfiedBy u (V u)) →
      op.SatisfiedBy (.tuple ts) (Diff.ComposedOf V (.tuple ts))) ∧
    ∀ u, op.SatisfiedBy u (V u) → op.SatisfiedBy (.vec u) (Diff.ComposedOf V (.vec u)) := by
  constructor
  · intro ts h
    exact satisfiedBy_composedOf hV (appliesTo_tuple fun u hu => (h u hu).declared) h
  · intro u h
    refine satisfiedBy_composedOf hV ?_ fun v hv => ?_
    · cases op
      case checkZeroIdentity => exact h.declared
      case checkNegationInverse => exact h.declared
      all_goals rfl
    · cases List.mem_singleton.mp hv
      exact h

/-- Concatenation, which is not commutative, is associative on sequences of texts. -/
theorem checkAssociativity_texts :
    let text (l : Nat) (s : String) : Object specimens := .custom l Specimen.concat (.text s)
    let u : DiffType specimens := .custom Specimen.concat
    let x : Object specimens := .vec 1 (some u) [text 2 "a", text 3 "b"]
    let y : Object specimens := .vec 4 (some u) []
    let z : Object specimens := .vec 5 (some u) [text 6 "c"]
    (checkAssociativity.call [.diff x, .diff y, .diff z] [] 7).result = .ok .null := by
  intro text u x y z
  let V (v : DiffType specimens) (a : Diff specimens) : Prop :=
    v = u ∧ ∃ s, a = .custom Specimen.concat (.text s)
  have hV : ∀ v a, V v a → a.typeOf = v := by
    rintro _ _ ⟨rfl, s, rfl⟩
    rfl
  have hplus (s t : String) :
      (Diff.custom Specimen.concat (.text s) : Diff specimens).plus
        (.diff (.custom Specimen.concat (.text t))) =
      .ok (.custom Specimen.concat (.text (s ++ t))) := rfl
  have hu : checkAssociativity.SatisfiedBy u (V u) := by
    refine satisfiedBy_iff.mpr ⟨rfl, fun ds harity hds _ => ?_⟩
    obtain ⟨a, b, c, rfl⟩ := List.length_eq_three.mp (Option.some.inj harity).symm
    obtain ⟨⟨-, s₁, rfl⟩, ⟨-, s₂, rfl⟩, ⟨-, s₃, rfl⟩⟩ : V u a ∧ V u b ∧ V u c := by simpa using hds
    refine Law.OfValues.checkAssociativity_eq_none.mpr
      ⟨rfl, rfl, _, _, _, hplus s₁ s₂, hplus _ s₃, hplus s₂ s₃, ?_⟩
    rw [hplus, String.append_assoc]
  have hsums : checkAssociativity.Summable ([x, y, z].map Object.value) := by
    intro r hr
    simp only [sums, List.map_cons, List.map_nil, List.mem_cons, List.not_mem_nil, or_false] at hr
    rcases hr with rfl | rfl <;> exact ⟨_, rfl⟩
  have hcomposed (l : Nat) (xs : List (Object specimens)) (h : ∀ a ∈ xs, V u a.value) :
      Diff.ComposedOf V (.vec u) (Object.vec l (some u) xs).value := by
    refine .vec fun a ha => ?_
    rw [Object.valueAll_eq_map] at ha
    obtain ⟨b, hb, rfl⟩ := List.mem_map.mp ha
    exact h b hb
  have htext (l : Nat) (s : String) : V u (text l s).value := ⟨rfl, s, rfl⟩
  have hitems : ∀ v ∈ [x, y, z], Diff.ComposedOf V (.vec u) v.value := by
    simp only [List.forall_mem_cons, List.not_mem_nil, false_imp_iff, implies_true, and_true]
    exact ⟨hcomposed 1 _ (by simp [htext]), hcomposed 4 _ (by simp), hcomposed 5 _ (by simp [htext])⟩
  exact ((satisfiedBy_composite hV).2 u hu).passes rfl hitems (by decide) hsums []

end Operation

end DiffAlgebra
