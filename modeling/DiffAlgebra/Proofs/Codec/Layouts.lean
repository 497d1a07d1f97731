import DiffAlgebra.Proofs.Values
import DiffAlgebra.Session.Run
import DiffAlgebra.Specimens

/-!
# The grammar of layouts

A layout is a type of differences, a tuple of not too many layouts, or a list of one layout.
Resolving a datum judges its parts in a fixed order and reports the first flaw: the number of items
of a list counts before the item is looked at, that of a tuple only after its parts. A composite
type may be written out by a tuple or a list, and the types of two layouts are the same one if and
only if the layouts are alike once all their types are written out.
-/

namespace DiffAlgebra

variable {C : Catalog} {δ : Type}

namespace DiffType

mutual

/-- A type as a layout in which only types that are not composed stand for themselves. -/
def spelledOut : DiffType C → Datum C δ
  | tuple ts => .tuple 0 (spelledOutAll ts)
  | vec t => .list 0 [spelledOut t]
  | t => .type (.diff t)

def spelledOutAll : List (DiffType C) → List (Datum C δ)
  | [] => []
  | t :: ts => spelledOut t :: spelledOutAll ts

end

mutual

theorem spelledOut_injective : (s t : DiffType C) →
    (s.spelledOut : Datum C δ) = t.spelledOut → s = t
  | tuple ss, t, h => by
    cases t with
    | tuple ts => exact congrArg tuple (spelledOutAll_injective ss ts (Datum.tuple.inj h).2)
    | _ => cases h
  | vec s, t, h => by
    cases t with
    | vec t =>
      have hitem : [s.spelledOut] = [t.spelledOut] := (Datum.list.inj h).2
      exact congrArg vec (spelledOut_injective s t (List.cons.inj hitem).1)
    | _ => cases h
  | tier _, t, h | anyInt _, t, h | int _, t, h | present, t, h | custom _, t, h | anyTuple, t, h
  | anyVec, t, h => by
    cases t <;> cases h
    rfl

theorem spelledOutAll_injective : (ss ts : List (DiffType C)) →
    (spelledOutAll ss : List (Datum C δ)) = spelledOutAll ts → ss = ts
  | [], [], _ => rfl
  | s :: ss, t :: ts, h => by
    obtain ⟨hs, hss⟩ := List.cons.inj h
    rw [spelledOut_injective s t hs, spelledOutAll_injective ss ts hss]
  | [], _ :: _, h | _ :: _, [], h => by cases h

end

end DiffType

namespace Datum

inductive IsLayout : Datum C δ → Prop where
  | type (t : DiffType C) : IsLayout (type (.diff t))
  | tuple (l : Nat) {xs : List (Datum C δ)} (length : xs.length ≤ Fault.maxArity)
      (parts : ∀ x ∈ xs, IsLayout x) : IsLayout (tuple l xs)
  | list (l : Nat) {x : Datum C δ} (part : IsLayout x) : IsLayout (list l [x])

mutual

/-- The parts of a datum in the order in which they are judged. -/
def judged : Datum C δ → List (Datum C δ)
  | tuple l xs => judgedAll xs ++ [tuple l xs]
  | list l xs => list l xs :: judgedAll xs
  | x => [x]

def judgedAll : List (Datum C δ) → List (Datum C δ)
  | [] => []
  | x :: xs => judged x ++ judgedAll xs

end

/-- What keeps a datum from being a layout, if its parts are layouts. -/
def flaw? [DiffView δ C] : Datum C δ → Option Fault
  | type (.diff _) => none
  | tuple _ xs => if xs.length ≤ Fault.maxArity then none else some (.arity xs.length)
  | list l xs => if xs.length = 1 then none else some (.elementCount (render (list l xs)))
  | x => some (.notLayout x.render)

mutual

/-- A layout with all its types written out. -/
def spelledOut : Datum C δ → Datum C δ
  | type (.diff t) => t.spelledOut
  | tuple _ xs => tuple 0 (spelledOutAll xs)
  | list _ xs => list 0 (spelledOutAll xs)
  | x => x

def spelledOutAll : List (Datum C δ) → List (Datum C δ)
  | [] => []
  | x :: xs => spelledOut x :: spelledOutAll xs

end

section

variable [DiffView δ C]

private theorem kind_of_flaw? {x : Datum C δ} {f : Fault} (h : x.flaw? = some f) :
    f.kind = .value := by
  unfold flaw? at h
  split at h
  · cases h
  · split at h <;> cases h
    rfl
  · split at h <;> cases h
    rfl
  · cases h
    rfl

/-- What resolving a datum comes to. -/
inductive Resolves (x : Datum C δ) : Except Fault (DiffType C) → Prop where
  | ok {t : DiffType C} (layout : x.IsLayout) (flawless : x.judged.findSome? flaw? = none)
      (spelled : x.spelledOut = t.spelledOut) : Resolves x (.ok t)
  | error {f : Fault} (ill : ¬ x.IsLayout) (first : x.judged.findSome? flaw? = some f) :
      Resolves x (.error f)

inductive ResolvesAll (xs : List (Datum C δ)) : Except Fault (List (DiffType C)) → Prop where
  | ok {ts : List (DiffType C)} (layouts : ∀ x ∈ xs, x.IsLayout)
      (flawless : (judgedAll xs).findSome? flaw? = none)
      (spelled : spelledOutAll xs = DiffType.spelledOutAll ts) (length : xs.length = ts.length) :
      ResolvesAll xs (.ok ts)
  | error {f : Fault} (ill : ¬ ∀ x ∈ xs, x.IsLayout)
      (first : (judgedAll xs).findSome? flaw? = some f) : ResolvesAll xs (.error f)

private theorem resolves_leaf {x : Datum C δ} (hx : ¬ x.IsLayout) (hjudged : x.judged = [x])
    (hflaw : x.flaw? = some (.notLayout x.render)) :
    Resolves x (.error (.notLayout x.values.render)) := by
  refine .error hx ?_
  rw [hjudged, List.findSome?_cons_of_isSome (by simp [hflaw]), hflaw, render_values]

private theorem resolves_tuple (l : Nat) {xs : List (Datum C δ)}
    {r : Except Fault (List (DiffType C))}
    (h : ResolvesAll xs r) : Resolves (tuple l xs) (r >>= DiffType.tupleOf) := by
  cases h with
  | @ok ts layouts flawless spelled length =>
    have hjudged : (judged (tuple l xs)).findSome? flaw? = flaw? (tuple l xs) := by
      rw [judged, List.findSome?_append, flawless]
      simp
    rw [ok_bind, DiffType.tupleOf, ← length]
    by_cases hlen : xs.length ≤ Fault.maxArity
    · rw [if_pos hlen]
      refine .ok (.tuple l hlen layouts) (hjudged.trans (if_pos hlen)) ?_
      exact congrArg (Datum.tuple 0) spelled
    · rw [if_neg hlen]
      refine .error (fun h => ?_) (hjudged.trans (if_neg hlen))
      cases h with
      | tuple _ hlength _ => exact hlen hlength
  | error ill first =>
    refine .error (fun h => ?_) ?_
    · cases h with
      | tuple _ _ parts => exact ill parts
    · rw [judged, List.findSome?_append, first]
      rfl

private theorem resolves_list (l : Nat) {x : Datum C δ} {r : Except Fault (DiffType C)}
    (h : Resolves x r) :
    Resolves (list l [x]) (r >>= fun t => .ok (.vec t)) := by
  have hjudged : (judged (list l [x])).findSome? flaw? = x.judged.findSome? flaw? := by
    simp [judged, judgedAll, flaw?]
  cases h with
  | ok layout flawless spelled =>
    exact .ok (.list l layout) (hjudged.trans flawless) (congrArg (fun y => list 0 [y]) spelled)
  | error ill first =>
    refine .error (fun h => ?_) (hjudged.trans first)
    cases h with
    | list _ part => exact ill part

/-- A list is judged by the number of its items before they are looked at. -/
theorem resolves_elementCount (l : Nat) {xs : List (Datum C δ)} (hlen : xs.length ≠ 1) :
    Resolves (list l xs) (.error (.elementCount (list l xs).values.render)) := by
  refine .error (fun h => ?_) ?_
  · cases h
    exact hlen rfl
  · rw [render_values]
    simp [judged, flaw?, hlen]

theorem ResolvesAll.cons {x : Datum C δ} {xs : List (Datum C δ)} {r : Except Fault (DiffType C)}
    {rs : Except Fault (List (DiffType C))} (h : Resolves x r) (hs : ResolvesAll xs rs) :
    ResolvesAll (x :: xs) (r >>= fun t => rs >>= fun ts => .ok (t :: ts)) := by
  cases h with
  | ok layout flawless spelled =>
    cases hs with
    | ok layouts flawlessAll spelledAll length =>
      refine .ok (List.forall_mem_cons.mpr ⟨layout, layouts⟩) ?_
        (congrArg₂ List.cons spelled spelledAll) (congrArg (· + 1) length)
      rw [judgedAll, List.findSome?_append, flawless, flawlessAll]
      rfl
    | error ill first =>
      refine .error (fun h => ill (List.forall_mem_cons.mp h).2) ?_
      rw [judgedAll, List.findSome?_append, flawless, first]
      rfl
  | error ill first =>
    refine .error (fun h => ill (List.forall_mem_cons.mp h).1) ?_
    rw [judgedAll, List.findSome?_append, first]
    rfl

mutual

/-- Resolving a datum accepts the layouts and spells their types out, and it reports the first flaw
of other data. -/
theorem resolves : (x : Datum C δ) → Resolves x x.values.layout
  | tuple l xs => resolves_tuple l (resolvesAll xs)
  | list l [x] => resolves_list l (resolves x)
  | list l [] => resolves_elementCount l (by simp)
  | list l (x :: y :: ys) => resolves_elementCount l (by simp)
  | type (.diff t) => .ok (.type t) rfl rfl
  | null | bool _ | int _ | real _ | text _ | bytes _ | record _ _ | reference _ _
  | config _ _ _ _ | violation _ _ | report _ _ | mismatch _ _ | diff _ | type .isZero
  | type .multiply | type (.plain _) => resolves_leaf (fun h => nomatch h) rfl rfl

theorem resolvesAll : (xs : List (Datum C δ)) → ResolvesAll xs (layouts (mapAll DiffView.value xs))
  | [] => .ok (by simp) rfl rfl rfl
  | x :: xs => ResolvesAll.cons (resolves x) (resolvesAll xs)

end

end

end Datum

namespace Operation

/-- The operations that look at their first operand as a layout only. -/
def ReadsLayout (op : Operation) : Prop :=
  op ∈ [layout, decode, schema, validator, load, validate, accepts, violations]

/-- Two layouts of one type have the same outcome in every operation that reads a layout. -/
theorem ReadsLayout.call_eq {op : Operation} (hop : op.ReadsLayout) {l m : Value C}
    (h : Session.layoutType l = Session.layoutType m) (rest : List (Value C)) (known : Schemas C)
    (next : Nat) : op.call (l :: rest) known next = op.call (m :: rest) known next := by
  simp only [ReadsLayout, List.mem_cons, List.not_mem_nil, or_false] at hop
  rcases hop with rfl | rfl | rfl | rfl | rfl | rfl | rfl | rfl <;>
    rcases rest with _ | ⟨d, _ | ⟨e, _ | ⟨-, -⟩⟩⟩ <;>
    unfold call <;>
    simp only [Session.decode, Session.schema, Session.validator, Session.giveSchema,
      Session.load, Session.violations, h]

end Operation

namespace Session

private theorem result_layout (l : Value C) (known : Schemas C) (next : Nat) :
    (Operation.layout.call [l] known next).result = (layoutType l).map fun t => .type (.diff t) := by
  change (layoutType l >>= fun t => Except.ok (Datum.type (.diff t))) = _
  cases layoutType l <;> rfl

/-- Composing a tuple type from types of differences fails only if there are too many. -/
theorem tupleType_types (ts : List (DiffType C)) :
    tupleType (ts.map fun t => .type (.diff t)) =
      (DiffType.tupleOf ts).map fun t => .type (.diff t) := by
  let ys : List (Datum C (Diff C)) := ts.map fun t => .type (.diff t)
  have hvalues : (ts.map fun t => (.type (.diff t) : Value C)).map Datum.values = ys := by
    rw [List.map_map]
    rfl
  have hhashable : Datum.hashableAll ys = true := by
    induction ts with
    | nil => rfl
    | cons t ts ih => exact ih (by rw [List.map_map]; rfl)
  have htypes {f : Datum C (Diff C) → Except Fault (DiffType C)}
      (hf : ∀ t, f (.type (.diff t)) = .ok t) : ys.mapM f = .ok ts := by
    refine mapM_eq_ok.mpr (List.forall₂_map_left_iff.mpr ?_)
    exact List.forall₂_same.mpr fun t _ => hf t
  have hlength : ys.length = ts.length := List.length_map _
  simp only [tupleType, hvalues, hhashable, hlength, DiffType.tupleOf]
  by_cases h : ts.length ≤ Fault.maxArity
  · rw [if_neg (by decide), if_neg (Nat.not_lt.mpr h), if_pos h]
    exact congrArg (· >>= _) (htypes fun _ => rfl)
  · rw [if_neg (by decide), if_pos (Nat.lt_of_not_le h), if_neg h]
    rfl

private theorem mapM_layoutType (xs : List (Value C)) :
    (xs.mapM fun x => (layoutType x).map fun t => (.type (.diff t) : Value C)) =
      (Datum.layouts (Datum.mapAll DiffView.value xs)).map (List.map fun t => .type (.diff t)) := by
  induction xs with
  | nil => rfl
  | cons x xs ih =>
    rw [List.mapM_cons, ih]
    change _ = (layoutType x >>= fun t =>
      Datum.layouts (Datum.mapAll DiffView.value xs) >>= fun ts => Except.ok (t :: ts)).map _
    cases layoutType x with
    | error => rfl
    | ok t => cases Datum.layouts (Datum.mapAll DiffView.value xs) <;> rfl

/-- A tuple of layouts and a list of one layout are resolved as types are composed from given ones,
item after item. -/
theorem result_layout_tuple (n : Nat) (xs : List (Value C)) (known : Schemas C) (next : Nat) :
    (Operation.layout.call [.tuple n xs] known next).result =
      (xs.mapM fun x => (Operation.layout.call [x] known next).result) >>= tupleType := by
  simp only [result_layout, mapM_layoutType]
  change (Datum.layouts (Datum.mapAll DiffView.value xs) >>= DiffType.tupleOf).map _ = _
  cases Datum.layouts (Datum.mapAll DiffView.value xs) with
  | error => rfl
  | ok ts => exact (tupleType_types ts).symm

private theorem result_layout_list (n : Nat) (x : Value C) (known : Schemas C) (next : Nat) :
    (Operation.layout.call [.list n [x]] known next).result =
      (Operation.layout.call [x] known next).result >>= vecType := by
  rw [result_layout, result_layout]
  change (layoutType x >>= fun t => Except.ok (DiffType.vec t)).map _ = _
  cases layoutType x <;> rfl

theorem resolves_layoutType (l : Value C) : Datum.Resolves l (layoutType l) := Datum.resolves l

theorem spelledOut_of_layoutType {l : Value C} {t : DiffType C} (h : layoutType l = .ok t) :
    l.spelledOut = t.spelledOut := by
  have hl := resolves_layoutType l
  rw [h] at hl
  cases hl with
  | ok _ _ spelled => exact spelled

/-- Resolving a datum gives a class if and only if the datum is a layout, and reports the first flaw
of its parts, never one of type, if it is none. Tuples and lists are resolved as types are composed
in general, but what these check is never found wanting, apart from the number of components. Two
layouts have one and the same class if and only if they are alike with all their types written out,
and then they have the same outcome wherever a layout is read. -/
theorem layout_exact (known : Schemas C) (next : Nat) :
    let resolve (l : Value C) := (Operation.layout.call [l] known next).result
    (∀ l : Value C, (l.IsLayout ∧ ∃ t, resolve l = .ok (.type (.diff t))) ∨
      (¬ l.IsLayout ∧ ∃ f, resolve l = .error f ∧ f.kind = .value ∧
        l.judged.findSome? Datum.flaw? = some f)) ∧
    (∀ n xs, resolve (.tuple n xs) = xs.mapM resolve >>= tupleType) ∧
    (∀ n x, resolve (.list n [x]) = resolve x >>= vecType) ∧
    ∀ l m c d, resolve l = .ok c → resolve m = .ok d →
      (identical c d = true ↔ l.spelledOut = m.spelledOut) ∧
      (l.spelledOut = m.spelledOut → ∀ op : Operation, op.ReadsLayout → ∀ rest,
        op.call (l :: rest) known next = op.call (m :: rest) known next) := by
  intro resolve
  have hresolve (l : Value C) : resolve l = (layoutType l).map fun t => .type (.diff t) :=
    result_layout l known next
  refine ⟨fun l => ?_, fun n xs => result_layout_tuple n xs known next,
    fun n x => result_layout_list n x known next, fun l m c d hc hd => ?_⟩
  · rw [hresolve]
    have h := resolves_layoutType l
    generalize layoutType l = r at h
    cases h with
    | ok layout _ _ => exact .inl ⟨layout, _, rfl⟩
    | error ill first =>
      obtain ⟨y, -, hy⟩ := List.exists_of_findSome?_eq_some first
      exact .inr ⟨ill, _, rfl, Datum.kind_of_flaw? hy, first⟩
  · obtain ⟨t, ht, rfl⟩ := map_eq_ok.mp ((hresolve l).symm.trans hc)
    obtain ⟨u, hu, rfl⟩ := map_eq_ok.mp ((hresolve m).symm.trans hd)
    have hsame : t = u ↔ l.spelledOut = m.spelledOut := by
      rw [spelledOut_of_layoutType ht, spelledOut_of_layoutType hu]
      exact ⟨congrArg _, DiffType.spelledOut_injective t u⟩
    refine ⟨Iff.trans ?_ hsame, fun h op hop rest => hop.call_eq ?_ rest known next⟩
    · simp [identical]
    · rw [ht, hu, hsame.mpr h]

/-- A pair is written out, or named, or partly both. Of a list with two items in a tuple with five
components, where the last one is no layout, the list is what is reported. -/
theorem layout_exact_spellings :
    let word : DiffType specimens := .int ⟨.unsigned, .w16⟩
    let written : Value specimens := .tuple 1 [.type (.diff word), .list 2 [.tuple 3 []]]
    let named : Value specimens := .tuple 4 [.type (.diff word), .type (.diff (.vec (.tuple [])))]
    let row : Value specimens := .list 5 [.type (.diff word), .null]
    let leaf : Value specimens := .type (.diff .present)
    let wide : Value specimens := .tuple 6 [leaf, leaf, leaf, row, .null]
    (∃ c d, (Operation.layout.call [written] [] 7).result = .ok c ∧
      (Operation.layout.call [named] [] 7).result = .ok d ∧ identical c d = true) ∧
    (∀ d, Operation.load.call [written, d] [] 7 = Operation.load.call [named, d] [] 7) ∧
    (Operation.layout.call [wide] [] 7).result = .error (.elementCount row.render) := by
  intro word written named row leaf wide
  have h := layout_exact (C := specimens) [] 7
  have hsame := h.2.2.2 written named _ _ rfl rfl
  refine ⟨⟨_, _, rfl, rfl, hsame.1.mpr rfl⟩, fun d => ?_, ?_⟩
  · exact hsame.2 rfl .load (by simp [Operation.ReadsLayout]) [d]
  · have hjudged : wide.judged.findSome? Datum.flaw? = some (.elementCount row.render) := rfl
    obtain ⟨-, t, ht⟩ | ⟨-, f, hf, -, hfirst⟩ := h.1 wide
    · cases ht
    · exact hf.trans (congrArg _ (Option.some.inj (hfirst.symm.trans hjudged)))

end Session

end DiffAlgebra
