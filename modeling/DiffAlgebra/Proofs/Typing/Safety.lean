import DiffAlgebra.Proofs.Addition.Checked
import DiffAlgebra.Proofs.Sharing.InPlace
import DiffAlgebra.Proofs.Sharing.Rebuilding
import DiffAlgebra.Proofs.Typing.Reachable

/-!
# Addition within one type

Adding a value to one of its own type goes wrong in no other way than by an overflow, and adding the
zero of the type changes nothing, as long as the kinds of the receiver cover those of the operand.
They need not: a component may be of a special case of its declared kind, and then it takes no
operand of the declared kind itself, not even a zero.
-/

namespace DiffAlgebra

variable {C : Catalog}

namespace Diff

/-- Where both values have an integer, the one of the second is of the kind of the first, or of a
special case of that kind. -/
def Covers (x y : Diff C) : Prop :=
  ∀ path k l m n, x.leafAt path = some (k, m) → y.leafAt path = some (l, n) → l.isSub k = true

variable {t : DiffType C} {x y : Diff C}

theorem Covers.part (h : Covers x y) {i : Nat} {a b : Diff C} (ha : x.parts[i]? = some a)
    (hb : y.parts[i]? = some b) : Covers a b := by
  intro path k l m n hm hn
  apply h (i :: path) k l m n
  · rw [leafAt_cons, ha]
    exact hm
  · rw [leafAt_cons, hb]
    exact hn

private theorem inRange_of_wellTyped (h : x.wellTyped = true) : x.InRange := by
  intro path k n hleaf
  induction path generalizing x with
  | nil =>
    cases x with
    | int l m =>
      cases hleaf
      exact wellTyped_int.mp h
    | _ => cases hleaf
  | cons i path ih =>
    rw [leafAt_cons] at hleaf
    obtain ⟨y, hy, hleaf⟩ := Option.bind_eq_some_iff.mp hleaf
    exact ih (wellTyped_of_mem_parts h (List.mem_of_getElem? hy)) hleaf

theorem InstanceOf.summand (ht : t.Concrete) (h : InstanceOf t x) : x.Summand := by
  have hcomposed := ht.over.composed.of_isSub h.isA
  exact ⟨inRange_of_wellTyped h.wellTyped, clonable_of_composed x h.wellTyped hcomposed⟩

/-- An instance of a type takes every instance of the type that it covers. -/
theorem InstanceOf.takes (ht : t.Concrete) (hx : InstanceOf t x) (hy : InstanceOf t y)
    (h : Covers x y) : Takes x y := by
  induction ht generalizing x y with
  | int k =>
    obtain ⟨l, m, rfl, -⟩ := hx.eq_int
    obtain ⟨l', n, rfl, -⟩ := hy.eq_int
    exact .int (h [] l l' m n rfl rfl)
  | present =>
    cases hx.eq_present
    cases hy.eq_present
    exact .present
  | tuple _ _ ih =>
    obtain ⟨xs, rfl, hxs⟩ := hx.eq_tuple
    obtain ⟨ys, rfl, hys⟩ := hy.eq_tuple
    refine .tuple (hxs.length_eq.symm.trans hys.length_eq) fun p hp => ?_
    obtain ⟨i, hi⟩ := List.getElem?_of_mem hp
    obtain ⟨hpx, hpy⟩ := List.getElem?_zip_eq_some.mp hi
    obtain ⟨t, ht, hxt⟩ := exists_getElem?_of_forall₂ hxs hpx
    obtain ⟨u, hu, hyu⟩ := exists_getElem?_of_forall₂ hys hpy
    cases ht.symm.trans hu
    exact ih t (List.mem_of_getElem? ht) hxt hyu (h.part hpx hpy)
  | vec _ ih =>
    obtain ⟨xs, rfl, hxs⟩ := hx.eq_vec
    obtain ⟨ys, rfl, hys⟩ := hy.eq_vec
    refine .vec fun p hp => ?_
    obtain ⟨i, hi⟩ := List.getElem?_of_mem hp
    obtain ⟨hpx, hpy⟩ := List.getElem?_zip_eq_some.mp hi
    exact ih (hxs _ (List.mem_of_getElem? hpx)) (hys _ (List.mem_of_getElem? hpy)) (h.part hpx hpy)

/-- The zero of a type leaves all its instances as they are. -/
def IsZeroOf (t : DiffType C) (z : Diff C) : Prop :=
  zero? t = .ok (some z) ∧ ∀ x, InstanceOf t x → merge x z = x

/-- The zeros of types leave instances of the types as they are, component by component. -/
theorem mergeAll_zeros {ts : List (DiffType C)} {xs zs : List (Diff C)}
    (h : ∀ t ∈ ts, ∃ z, IsZeroOf t z) (hxs : List.Forall₂ InstanceOf ts xs)
    (hzs : List.Forall₂ (fun t z => zero? t = .ok (some z)) ts zs) : mergeAll xs zs = xs := by
  induction hxs generalizing zs with
  | nil => cases hzs; rfl
  | cons hx _ ih =>
    cases hzs with
    | cons hz hzs =>
      obtain ⟨⟨w, hw, hmerge⟩, hts⟩ := List.forall_mem_cons.mp h
      cases hz.symm.trans hw
      simp only [mergeAll, hmerge _ hx, ih hts hzs]

theorem isMonoid_of_mem {ts : List (DiffType C)} (h : (DiffType.tuple ts).isMonoid = true)
    {t : DiffType C} (ht : t ∈ ts) : t.isMonoid = true :=
  DiffType.provides_tierAll_iff.mp h t ht

theorem exists_isZeroOf (ht : t.Concrete) (hmonoid : t.isMonoid = true) : ∃ z, IsZeroOf t z := by
  induction ht with
  | int k =>
    refine ⟨int k 0, rfl, fun x hx => ?_⟩
    obtain ⟨l, n, rfl, -, hholds⟩ := hx.eq_int
    simp only [merge, Int.add_zero, IntKind.settle_of_holds hholds]
  | present => cases hmonoid
  | @tuple ts _ _ ih =>
    have hall := fun t ht => ih t ht (isMonoid_of_mem hmonoid ht)
    obtain ⟨zs, hz, hzs⟩ := exists_zero_tuple hmonoid fun t ht => (hall t ht).imp fun _ hz => hz.1
    refine ⟨tuple (some ts) zs, hz, fun x hx => ?_⟩
    obtain ⟨xs, rfl, hxs⟩ := hx.eq_tuple
    exact congrArg (tuple (some ts)) (mergeAll_zeros hall hxs hzs)
  | @vec t _ _ =>
    have hzero : zero? (.vec t) = .ok (some (vec (some t) [])) := if_pos hmonoid
    refine ⟨_, hzero, fun x hx => ?_⟩
    obtain ⟨xs, rfl, -⟩ := hx.eq_vec
    cases xs <;> rfl

/-- Adding an instance that is covered comes to the merge of the two, or overflows. -/
theorem InstanceOf.plus_cases (ht : t.Concrete) (hx : InstanceOf t x) (hy : InstanceOf t y)
    (h : Covers x y) : x.plus (.diff y) = .ok (merge x y) ∨
      ∃ f, x.plus (.diff y) = .error f ∧ f.kind = .overflow := by
  rw [(hx.takes ht hy h).plus_eq (hx.summand ht) (hy.summand ht)]
  rcases checked_cases (merge x y) with ⟨-, h⟩ | ⟨-, k, n, h⟩
  · exact Or.inl h
  · exact Or.inr ⟨_, h, rfl⟩

private theorem InstanceOf.plus_zero (ht : t.Concrete) (hx : InstanceOf t x) {z : Diff C}
    (hz : IsZeroOf t z) (h : Covers x z) : x.plus (.diff z) = .ok x := by
  have hinstance := instanceOf_zero? t hz.1
  rw [(hx.takes ht hinstance h).plus_eq (hx.summand ht) (hinstance.summand ht), hz.2 x hx]
  rcases checked_cases x with ⟨-, h⟩ | ⟨hrange, -⟩
  · exact h
  · exact absurd (hx.summand ht).inRange hrange

end Diff

namespace Session

open Datum (mem_nodesAll)

private theorem plusEquals_cases {x y : Object C} {next : Nat}
    (hy : Progress.Settled ⟨[], next⟩ y.nodes) :
    (∃ z, x.value.plus (.diff y.value) = .ok z ∧
      (plusEquals (.diff x) (.diff y) next).result = .ok .null ∧
      (x.writes (plusEquals (.diff x) (.diff y) next).writes).value = z) ∨
    ∃ f, x.value.plus (.diff y.value) = .error f ∧
      (plusEquals (.diff x) (.diff y) next).result = .error f := by
  have hrenews := x.renews_plusEquals (v := .diff y) (Progress.valid_start next) hy
  have hrun : plusEquals (.diff x) (.diff y) next =
      inPlace (x.plusEquals (.diff y)) (fun _ => .null) next := rfl
  rw [hrun, inPlace]
  rcases hrenews with ⟨f, u, hf, hrun, -⟩ | ⟨z, new, u, hz, hnew, -, hrun⟩
  · exact Or.inr ⟨f, hf, by rw [hrun]; rfl⟩
  · refine Or.inl ⟨z, hz, by rw [hrun]; rfl, ?_⟩
    rw [hrun, Object.writes_object, Object.after_commit _ hnew.label_eq, hnew.value_eq]

theorem exists_zero {t : DiffType C} (ht : t.Concrete) (hmonoid : t.isMonoid = true) (next : Nat) :
    ∃ o, (zero (.type (.diff t)) next).result = .ok (.diff o) ∧ Diff.IsZeroOf t o.value := by
  obtain ⟨z, hz⟩ := Diff.exists_isZeroOf ht hmonoid
  have hrun : zero (.type (.diff t)) next = .built next (.ok z) := by
    simp only [zero, classOf, ok_bind, hz.1]
  refine ⟨(Object.ofDiff z next).1, by rw [hrun]; rfl, ?_⟩
  rw [Object.value_ofDiff]
  exact hz

/-- Addition within one type is safe. In every session that commands lead to, adding an object of a
type to another one of the type in place succeeds or overflows, and a zero of the type leaves the
value of the receiver as it is, as long as the receiver covers what is added to it. -/
theorem Reachable.plusEquals_safe {s : Session C} (hs : s.Reachable) {t : DiffType C}
    (ht : t.Concrete) {c : Command C} (hc : c.operation = .plusEquals) {x y : Object C}
    {out : Outcome C} (hout : s.attempt c = .ok ([.diff x, .diff y], out)) (hx : x.typeOf = t)
    (hy : y.typeOf = t) (hcovers : Diff.Covers x.value y.value) :
    (out.result = .ok .null ∨ ∃ f, out.result = .error f ∧ f.kind = .overflow) ∧
    (t.isMonoid = true → ∀ next, ∃ z, (zero (.type (.diff t)) next).result = .ok (.diff z) ∧
      (y.value = z.value →
        out.result = .ok .null ∧ (x.writes out.writes).value = x.value)) := by
  have hxt : Diff.InstanceOf t x.value :=
    hx ▸ .self (hs.isWellTyped.wellTyped_arg hout List.mem_cons_self)
  have hyt : Diff.InstanceOf t y.value :=
    hy ▸ .self (hs.isWellTyped.wellTyped_arg hout (by simp))
  obtain ⟨next, _, rfl, hpool⟩ := hs.isCoherent.attempt hout
  have hcall : c.call [.diff x, .diff y] s.schemas next =
      plusEquals (.diff x) (.diff y) next :=
    Command.call_of_ne_same hc (by decide) _ _ _
  have hsettled : Progress.Settled ⟨[], next⟩ y.nodes :=
    hpool.settled.mono fun z hz => mem_nodesAll.mpr ⟨.diff y, by simp, hz⟩
  rw [hcall, Outcome.writes_settle]
  have hcases := plusEquals_cases (x := x) hsettled
  refine ⟨?_, fun hmonoid m => ?_⟩
  · rcases hcases with ⟨-, -, hr, -⟩ | ⟨f, hf, hr⟩
    · exact Or.inl (Outcome.result_settle_of_ok hr)
    · refine Or.inr ⟨f, Outcome.result_settle_of_error hr, ?_⟩
      rcases hxt.plus_cases ht hyt hcovers with hsum | ⟨g, hg, hkind⟩
      · cases hf.symm.trans hsum
      · cases hf.symm.trans hg
        exact hkind
  · obtain ⟨z, hz, hzero⟩ := exists_zero ht hmonoid m
    refine ⟨z, hz, fun hyz => ?_⟩
    have hplus := hxt.plus_zero ht (hyz ▸ hzero) hcovers
    rcases hcases with ⟨w, hw, hr, hvalue⟩ | ⟨f, hf, -⟩
    · cases hw.symm.trans hplus
      exact ⟨Outcome.result_settle_of_ok hr, hvalue⟩
    · cases hf.symm.trans hplus

def besideZero (t : DiffType specimens) (args : List (Expr specimens)) : Session specimens :=
  let s := (empty.step ⟨.evaluate, [.new (.type (.diff t)) args], some "x"⟩).1
  (s.step ⟨.zero, [.type (.diff t)], some "zero"⟩).1

/-- The zero of a type is added to a value whose sequence has an element of a narrow kind. -/
theorem plusEquals_safe_narrow :
    let k : IntKind := ⟨.signed, .size⟩
    let l : IntKind := ⟨.signed, .narrow 32 (by decide) (by decide)⟩
    let ts : List (DiffType specimens) := [.int k, .vec (.int k)]
    let s := besideZero (.tuple ts) [.int 1, .list [.new (.type (.diff (.int l))) [.int 5]]]
    let x : Object specimens := .tuple 2 (some ts) [.int 3 k 1, .vec 4 (some (.int k)) [.int 1 l 5]]
    ∃ y out,
      s.attempt ⟨.plusEquals, [.var "x", .var "zero"], none⟩ = .ok ([.diff x, .diff y], out) ∧
      out.result = .ok .null ∧ (x.writes out.writes).value = x.value := by
  intro k l ts s x
  let y : Object specimens := .tuple 5 (some ts) [.int 6 k 0, .vec 7 (some (.int k)) []]
  have hs : s.Reachable := .step (.step .empty _) _
  have ht : (DiffType.tuple ts).Concrete := by
    refine .tuple (by decide) fun t ht => ?_
    simp only [ts, List.mem_cons, List.not_mem_nil, or_false] at ht
    rcases ht with rfl | rfl
    · exact .int k
    · exact .vec (.int k)
  have hcovers : Diff.Covers x.value y.value := by
    -- the first component is the only place where both have an integer
    rintro (_ | ⟨_ | _ | i, _ | ⟨j, path⟩⟩) k' l' m n hm hn <;>
      simp_all [x, y, Object.value, Object.valueAll, Diff.leafAt, Diff.parts]
  let c : Command specimens := ⟨.plusEquals, [.var "x", .var "zero"], none⟩
  refine ⟨y, _, rfl, ?_⟩
  obtain ⟨z, hz, h⟩ := (hs.plusEquals_safe (c := c) ht rfl rfl rfl rfl hcovers).2 rfl 1
  cases hz
  exact h rfl

/-- A narrow kind is a special case of the pointer-sized one, so a tuple of the latter may hold it,
but then the tuple does not take the zero of its type. -/
theorem plusEquals_refuses_zero :
    let k : IntKind := ⟨.signed, .size⟩
    let l : IntKind := ⟨.signed, .narrow 32 (by decide) (by decide)⟩
    let s := besideZero (.tuple [.int k]) [.new (.type (.diff (.int l))) [.int 1]]
    ∃ x y out,
      s.attempt ⟨.plusEquals, [.var "x", .var "zero"], none⟩ = .ok ([.diff x, .diff y], out) ∧
      x.value = .tuple (some [.int k]) [.int l 1] ∧ y.value = .tuple (some [.int k]) [.int k 0] ∧
      ∃ f, out.result = .error f ∧ f.kind = .type :=
  ⟨_, _, _, rfl, rfl, rfl, _, rfl, rfl⟩

end Session

end DiffAlgebra
