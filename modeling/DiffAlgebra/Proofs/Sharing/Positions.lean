import DiffAlgebra.Proofs.Sharing.Frames
import DiffAlgebra.Proofs.Sharing.Rebuilding
import DiffAlgebra.Proofs.Typing.Reachable
import DiffAlgebra.Session.Access
import Mathlib.Data.List.Nodup

/-!
# What copies share

A position in an object is a way down to one of its nodes. A clone has an object of its own at each
of its positions. A deep copy has one object at two positions just if the copied object has, and a
shallow copy has the components of the copied object. Otherwise copies have nothing in common with
what they are copies of, the presence marker apart, which is one object everywhere.
-/

namespace DiffAlgebra

variable {C : Catalog}

namespace Object

/-- The object at a position, which is given by the places of components on the way down. -/
def at? : Object C → List Nat → Option (Object C)
  | x, [] => some x
  | x, i :: path =>
    match x.parts[i]? with
    | some p => at? p path
    | none => none

/-- One and the same object stands at a position of one object and at a position of another. -/
def Shares (x : Object C) (path : List Nat) (y : Object C) (path' : List Nat) : Prop :=
  ∃ a b, x.at? path = some a ∧ y.at? path' = some b ∧
    Session.identical (.diff a) (.diff b) = true

variable {x y a b : Object C} {path path' : List Nat} {l : Nat}

@[simp] theorem at?_nil (x : Object C) : x.at? [] = some x := by
  cases x <;> rfl

theorem at?_cons (x : Object C) (i : Nat) (path : List Nat) :
    x.at? (i :: path) = x.parts[i]?.bind fun p => p.at? path := by
  cases h : x.parts[i]? <;> simp [at?, h]

private theorem mem_nodes_of_at? (h : x.at? path = some a) : a ∈ x.nodes := by
  induction path generalizing x with
  | nil =>
    rw [at?_nil] at h
    obtain rfl := Option.some.inj h
    exact mem_nodes_self _
  | cons i path ih =>
    rw [at?_cons] at h
    obtain ⟨p, hp, h⟩ := Option.bind_eq_some_iff.mp h
    exact mem_nodes_of_mem_parts (List.mem_of_getElem? hp) (ih h)

theorem mem_labels_of_at? (h : x.at? path = some a) (hl : a.label? = some l) : l ∈ x.labels :=
  mem_labels_iff.mpr ⟨a, mem_nodes_of_at? h, hl⟩

/-- Objects are one if they are of one type and have one label. -/
theorem identical_diff : Session.identical (.diff a) (.diff b) = true ↔
    a.typeOf = b.typeOf ∧ a.label? = b.label? := by
  have h : Session.identical (.diff a) (.diff b) =
      ((Class.diff a.typeOf : Class C) == Class.diff b.typeOf && a.label? == b.label?) := rfl
  rw [h, Bool.and_eq_true, beq_iff_eq, beq_iff_eq, Class.diff.injEq]

/-- Objects without a common label share the presence marker at most. -/
theorem Shares.eq_present (h : Shares x path y path')
    (hlabels : ∀ l ∈ x.labels, l ∉ y.labels) : x.at? path = some present := by
  obtain ⟨a, b, ha, hb, hsame⟩ := h
  obtain ⟨-, hlabel⟩ := identical_diff.mp hsame
  cases hal : a.label? with
  | none => rw [ha, Object.eq_present hal]
  | some l =>
    have hbl : b.label? = some l := hlabel.symm.trans hal
    exact absurd (mem_labels_of_at? hb hbl) (hlabels l (mem_labels_of_at? ha hal))

private theorem index_eq_of_nodup {xs : List (Object C)} (hxs : (labelsAll xs).Nodup) {i j : Nat}
    (ha : xs[i]? = some a) (hb : xs[j]? = some b) (hal : l ∈ a.labels) (hbl : l ∈ b.labels) :
    i = j := by
  rw [labelsAll_eq_flatMap] at hxs
  have hdisjoint := List.pairwise_iff_getElem.mp (List.nodup_flatMap.mp hxs).2
  obtain ⟨hi, rfl⟩ := List.getElem?_eq_some_iff.mp ha
  obtain ⟨hj, rfl⟩ := List.getElem?_eq_some_iff.mp hb
  rcases Nat.lt_trichotomy i j with hlt | heq | hlt
  · exact absurd hbl (hdisjoint i j hi hj hlt hal)
  · exact heq
  · exact absurd hal (hdisjoint j i hj hi hlt hbl)

theorem nodup_labelsAll_parts (hx : x.labels.Nodup) : (labelsAll x.parts).Nodup := by
  rw [labels_eq] at hx
  exact (List.nodup_append.mp hx).2.1

private theorem nodup_labels_part (hx : x.labels.Nodup) (ha : a ∈ x.parts) : a.labels.Nodup := by
  have hparts := nodup_labelsAll_parts hx
  rw [labelsAll_eq_flatMap] at hparts
  exact (List.nodup_flatMap.mp hparts).1 a ha

/-- An object whose labels are all different does not occur below itself. -/
theorem label?_ne_of_nodup (hx : x.labels.Nodup) (hxl : x.label? = some l) {i : Nat}
    (ha : x.at? (i :: path) = some a) : a.label? ≠ some l := by
  intro hal
  rw [at?_cons] at ha
  obtain ⟨p, hp, ha⟩ := Option.bind_eq_some_iff.mp ha
  have hmem : l ∈ labelsAll x.parts := by
    rw [labelsAll_eq_flatMap]
    exact List.mem_flatMap.mpr ⟨p, List.mem_of_getElem? hp, mem_labels_of_at? ha hal⟩
  rw [labels_eq, hxl] at hx
  exact (List.nodup_append.mp hx).2.2 l (by simp) l hmem rfl

/-- Where no label occurs twice, one label stands at one position. -/
theorem path_eq_of_nodup (hx : x.labels.Nodup) (ha : x.at? path = some a)
    (hb : x.at? path' = some b) (hal : a.label? = some l) (hbl : b.label? = some l) :
    path = path' := by
  induction path generalizing x path' with
  | nil =>
    obtain rfl := Option.some.inj ((at?_nil x).symm.trans ha)
    cases path' with
    | nil => rfl
    | cons j path' => exact absurd hbl (label?_ne_of_nodup hx hal hb)
  | cons i path ih =>
    cases path' with
    | nil =>
      obtain rfl := Option.some.inj ((at?_nil x).symm.trans hb)
      exact absurd hal (label?_ne_of_nodup hx hbl ha)
    | cons j path' =>
      rw [at?_cons] at ha hb
      obtain ⟨p, hp, ha⟩ := Option.bind_eq_some_iff.mp ha
      obtain ⟨q, hq, hb⟩ := Option.bind_eq_some_iff.mp hb
      obtain rfl : i = j := index_eq_of_nodup (nodup_labelsAll_parts hx) hp hq
        (mem_labels_of_at? ha hal) (mem_labels_of_at? hb hbl)
      cases hp.symm.trans hq
      rw [ih (nodup_labels_part hx (List.mem_of_getElem? hp)) ha hb]

/-- A copy is of the type and has the value of what is copied. -/
structure Restores (x y : Object C) : Prop where
  typeOf_eq : y.typeOf = x.typeOf
  value_eq : y.value = x.value

theorem restores_of_value_eq (h : y.value = x.value) : x.Restores y :=
  ⟨congrArg Diff.typeOf h, h⟩

/-- A clone has another object at each position and none of those of what is cloned. -/
structure IsClone (x y : Object C) : Prop extends Restores x y where
  distinct : ∀ p q, Shares y p y q → p = q ∨ y.at? p = some present
  apart : ∀ p q, Shares x p y q → x.at? p = some present

/-- A shallow copy has the very components of what is copied, but is another object. -/
structure IsShallowCopy (x y : Object C) : Prop extends Restores x y where
  parts_eq : y.parts = x.parts
  apart : ∀ p, Shares x p y [] → x.at? p = some present

/-- A deep copy has one object at two positions where what is copied has, and none of those of what
is copied. -/
structure IsDeepCopy (x y : Object C) : Prop extends Restores x y where
  shared : ∀ p q, Shares y p y q ↔ Shares x p x q
  apart : ∀ p q, Shares x p y q → x.at? p = some present

variable {next : Nat}

private theorem isClone_ofDiff (hx : ∀ l ∈ x.labels, l < next) :
    x.IsClone (ofDiff x.value next).1 := by
  have hown := ownLabels_ofDiff x.value next
  refine ⟨restores_of_value_eq (value_ofDiff x.value next), fun p q h => ?_, fun p q h => ?_⟩
  · obtain ⟨a, b, ha, hb, hsame⟩ := h
    obtain ⟨-, hlabel⟩ := identical_diff.mp hsame
    cases hal : a.label? with
    | none => exact Or.inr (by rw [ha, eq_present hal])
    | some l => exact Or.inl (path_eq_of_nodup hown.nodup ha hb hal (hlabel.symm.trans hal))
  · refine h.eq_present fun l hl hl' => ?_
    have hlt := hx l hl
    have hle := (hown.mem l hl').1
    omega

theorem at?_shift (d : Nat) (x : Object C) (path : List Nat) :
    (shift d x).at? path = (x.at? path).map (shift d) := by
  induction path generalizing x with
  | nil => simp
  | cons i path ih =>
    rw [at?_cons, at?_cons, parts_shift, List.getElem?_map]
    cases x.parts[i]? with
    | none => rfl
    | some p => exact ih p

/-- Moving all labels by the same distance keeps objects apart that are apart. -/
theorem identical_shift (d : Nat) : Session.identical (.diff (shift d a)) (.diff (shift d b)) = true ↔
    Session.identical (.diff a) (.diff b) = true := by
  have hlabels : (shift d a).label? = (shift d b).label? ↔ a.label? = b.label? := by
    rw [label?_shift, label?_shift]
    cases a.label? <;> cases b.label? <;> simp
  rw [identical_diff, identical_diff, hlabels, typeOf, typeOf, value_shift, value_shift]
  rfl

theorem isDeepCopy_shift (hx : ∀ l ∈ x.labels, l < next) : x.IsDeepCopy (shift next x) := by
  refine ⟨restores_of_value_eq (value_shift next x), fun p q => ?_, fun p q h => ?_⟩
  · unfold Shares
    rw [at?_shift, at?_shift]
    constructor
    · rintro ⟨_, _, ha, hb, hsame⟩
      obtain ⟨a, ha', rfl⟩ := Option.map_eq_some_iff.mp ha
      obtain ⟨b, hb', rfl⟩ := Option.map_eq_some_iff.mp hb
      exact ⟨a, b, ha', hb', (identical_shift next).mp hsame⟩
    · rintro ⟨a, b, ha, hb, hsame⟩
      exact ⟨_, _, by rw [ha]; rfl, by rw [hb]; rfl, (identical_shift next).mpr hsame⟩
  · refine h.eq_present fun l hl hl' => ?_
    obtain ⟨y, hy, hyl⟩ := mem_labels_iff.mp hl'
    obtain ⟨z, -, rfl⟩ := mem_nodes_shift hy
    rw [label?_shift] at hyl
    obtain ⟨k, -, rfl⟩ := Option.map_eq_some_iff.mp hyl
    have hlt := hx _ hl
    omega

private theorem exists_isShallowCopy (hx : x.Proper) (hlabels : ∀ l ∈ x.labels, l < next) :
    ∃ y last, x.copy next = .ok (y, last) ∧ x.IsShallowCopy y := by
  have hrecompose := hx.recompose_eq
  have hcopy : ∃ y last, x.copy next = .ok (y, last) ∧ y.value = x.value ∧ y.parts = x.parts ∧
      ∀ l, y.label? = some l → l = next := by
    unfold copy
    rw [hrecompose]
    cases x with
    | present => exact ⟨present, next, rfl, rfl, rfl, fun _ h => nomatch h⟩
    | int | custom | tuple | vec =>
      exact ⟨_, next + 1, rfl, rfl, rfl, fun _ h => (Option.some.inj h).symm⟩
  obtain ⟨y, last, hy, hvalue, hparts, hlabel⟩ := hcopy
  refine ⟨y, last, hy, restores_of_value_eq hvalue, hparts, fun p h => ?_⟩
  obtain ⟨a, b, ha, hb, hsame⟩ := h
  obtain rfl := Option.some.inj ((at?_nil y).symm.trans hb)
  obtain ⟨-, hsame⟩ := identical_diff.mp hsame
  cases hal : a.label? with
  | none => rw [ha, eq_present hal]
  | some l =>
    obtain rfl := hlabel l (hsame.symm.trans hal)
    exact absurd (hlabels l (mem_labels_of_at? ha hal)) (Nat.lt_irrefl l)

end Object

def Outcome.Gives (o : Outcome C) (P : Object C → Prop) : Prop :=
  ∃ y, o.result = .ok (.diff y) ∧ P y

theorem Outcome.gives_made {P : Object C → Prop} {r : Except Fault (Value C × Nat)} {y : Object C}
    {next : Nat} (last : Nat) (hr : r = .ok (.diff y, last)) (hy : P y) :
    (made next r).settle.Gives P := by
  subst hr
  exact ⟨y, rfl, hy⟩

namespace Session

variable {s : Session C}

private theorem checkVersion_eq_ok {n : Int} (hlow : 2 ≤ n) (hhigh : n ≤ maxVersion) :
    checkVersion (.int n : Value C) = .ok () := by
  have hmin : IntKind.min ⟨.signed, .size⟩ ≤ 2 := by decide
  have hmax : maxVersion ≤ IntKind.max ⟨.signed, .size⟩ := by decide
  have hrange : ¬ (n < IntKind.min ⟨.signed, .size⟩ ∨ IntKind.max ⟨.signed, .size⟩ < n) := by omega
  have hversion : ¬ maxVersion < n := by omega
  simp only [checkVersion, Datum.toInteger, ok_bind, if_neg hrange, if_neg hversion]

def sharedCounter : Session specimens :=
  let counter : DiffType specimens := .custom .counter
  let marker : Expr specimens := .new (.type (.diff .present)) []
  let whole : DiffType specimens := .tuple [counter, .vec counter, .present]
  let s := (empty.step ⟨.evaluate, [.new (.type (.diff counter)) [.int 5]], some "n"⟩).1
  (s.step ⟨.evaluate, [.new (.type (.diff whole)) [.var "n", .list [.var "n"], marker]], some "x"⟩).1

end Session

end DiffAlgebra
