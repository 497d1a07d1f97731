import DiffAlgebra.Proofs.Laws.Purity
import DiffAlgebra.Proofs.Sharing.Frames
import DiffAlgebra.Proofs.Sharing.Results
import DiffAlgebra.Proofs.Typing.Safety

/-!
# Outcomes depend on values only

What an operation on differences comes to is determined by the values of its operands: its result,
its error, and the value that it leaves its receiver with. It does not matter which of the objects
are one and the same, whether the operand is the receiver or a part of it, or how often an object
occurs. Data that are alike may still be two, so results are compared without their labels.
-/

namespace DiffAlgebra

variable {C : Catalog}

open Datum (nodesAll mem_nodesAll)

namespace Datum

mutual

/-- A datum without the labels that tell it and its members from others like them. -/
def unlabelled {δ : Type} : Datum C δ → Datum C δ
  | list _ xs => list 0 (unlabelledAll xs)
  | tuple _ xs => tuple 0 (unlabelledAll xs)
  | record _ fs => record 0 (unlabelledFields fs)
  | config _ c p xs => config 0 c p (unlabelledAll xs)
  | reference _ t => reference 0 t
  | violation _ v => violation 0 v
  | report _ r => report 0 r
  | mismatch _ v => mismatch 0 v
  | diff d => diff d
  | null => null
  | bool b => bool b
  | int n => int n
  | real x => real x
  | text s => text s
  | bytes bs => bytes bs
  | type c => type c

def unlabelledAll {δ : Type} : List (Datum C δ) → List (Datum C δ)
  | [] => []
  | x :: xs => unlabelled x :: unlabelledAll xs

def unlabelledFields {δ : Type} : List (String × Datum C δ) → List (String × Datum C δ)
  | [] => []
  | (k, x) :: fs => (k, unlabelled x) :: unlabelledFields fs

end

/-- What a datum looks like: the values of its differences, and no labels. -/
def face (v : Value C) : Datum C (Diff C) := v.values.unlabelled

mutual

/-- Placing a datum among others gives it labels and changes nothing else. -/
theorem face_settle : (v : Value C) → (next : Nat) → (v.settle next).1.face = v.face
  | list l xs, next => congrArg (list 0) (unlabelledAll_settleAll xs (issue l next).2)
  | tuple l xs, next => congrArg (tuple 0) (unlabelledAll_settleAll xs (issue l next).2)
  | record l fs, next => congrArg (record 0) (unlabelledFields_settleFields fs (issue l next).2)
  | config l c p xs, next => congrArg (config 0 c p) (unlabelledAll_settleAll xs (issue l next).2)
  | reference _ _, _ | violation _ _, _ | report _ _, _ | mismatch _ _, _ | diff _, _ | null, _
  | bool _, _ | int _, _ | real _, _ | text _, _ | bytes _, _ | type _, _ => rfl

theorem unlabelledAll_settleAll : (vs : List (Value C)) → (next : Nat) →
    unlabelledAll (mapAll DiffView.value (settleAll vs next).1) =
      unlabelledAll (mapAll DiffView.value vs)
  | [], _ => rfl
  | v :: vs, next =>
    congrArg₂ List.cons (face_settle v next) (unlabelledAll_settleAll vs (v.settle next).2)

theorem unlabelledFields_settleFields : (fs : List (String × Value C)) → (next : Nat) →
    unlabelledFields (mapFields DiffView.value (settleFields fs next).1) =
      unlabelledFields (mapFields DiffView.value fs)
  | [], _ => rfl
  | (k, v) :: fs, next =>
    congrArg₂ List.cons (congrArg (Prod.mk k) (face_settle v next))
      (unlabelledFields_settleFields fs (v.settle next).2)

end

end Datum

namespace Object

/-- With every operand of a value a step of a multiplication comes to one and the same, up to the
identity of objects, and it changes nothing. -/
def Multiplies {α β : Type} (m : MultiplyM C α) (e : Diff C) (look : α → β) (r : Except Fault β) :
    Prop :=
  ∀ y s, y.value = e → s.operand = .diff y →
    (m.run s).1.map look = r ∧ (m.run s).2.operand = .diff y ∧ (m.run s).2.writes = s.writes

theorem Multiplies.bind {α β γ κ : Type} {m : MultiplyM C α} {f : α → MultiplyM C γ} {e : Diff C}
    {look : α → β} {look' : γ → κ} {r : Except Fault β} {k : β → Except Fault κ}
    (hm : Multiplies m e look r) (hf : ∀ a, Multiplies (f a) e look' (k (look a))) :
    Multiplies (m >>= f) e look' (r >>= k) := by
  intro y s hy hs
  have hms := hm y s hy hs
  rw [run_bind]
  rcases hrun : m.run s with ⟨_ | a, t⟩
  · rw [hrun] at hms
    obtain ⟨rfl, hms⟩ := hms
    exact ⟨rfl, hms⟩
  · rw [hrun] at hms
    obtain ⟨rfl, hoperand, hwrites⟩ := hms
    have hfa := hf a y t hy hoperand
    exact ⟨hfa.1, hfa.2.1, hfa.2.2.trans hwrites⟩

private theorem exists_multiplies_int (k : IntKind) (m : Int) (e : Diff C) :
    ∃ r, Multiplies (multiplyInt k m) e Datum.values r := by
  -- the operand counts by its value, so any object with that value serves
  let p := productInt k m (.diff (ofDiff e 0).1 : Value C)
  refine ⟨p.map fun n => .diff (.int k n), fun y s hy hs => ?_⟩
  have hp : productInt k m s.operand = p := by
    have hvalues : Datum.values (.diff y) = Datum.values (.diff (ofDiff e 0).1) :=
      congrArg Datum.diff (hy.trans (value_ofDiff e 0).symm)
    rw [hs, productInt_eq, hvalues, ← productInt_eq]
  rw [multiplyInt, run_get_bind, hp]
  cases p <;> exact ⟨rfl, hs, rfl⟩

private theorem multiplies_present {u : DiffType C} (hu : u.Concrete) {e : Diff C}
    (he : e.InstanceOf u) :
    Multiplies multiplyPresent e Datum.values (.ok (.diff e)) := by
  rintro y s rfl hs
  have hproper : y.Proper := ⟨he.wellTyped, hu.over.composed.of_isSub he.isA⟩
  have hcopy : s.operand.deepCopy s.next = .ok (.diff (y.shift s.next), s.next + s.next) := by
    rw [hs, Datum.deepCopy, Datum.duplicate, hproper.rebuild_eq]
    rfl
  rw [multiplyPresent, run_get_bind, hcopy]
  refine ⟨?_, hs, rfl⟩
  exact congrArg (fun d : Diff C => (.ok (.diff d) : Except Fault (Datum C (Diff C))))
    (y.value_shift s.next)

private theorem exists_multiplies_all {e : Diff C} {ds : List (Diff C)}
    (h : ∀ d ∈ ds, ∃ r, ∀ x : Object C, x.value = d →
      Multiplies (multiplyOperand x) e Datum.values r) :
    ∃ r, ∀ xs : List (Object C), valueAll xs = ds →
      Multiplies (multiplyAll xs) e (List.map Datum.values) r := by
  induction ds with
  | nil =>
    refine ⟨.ok [], fun xs hxs => ?_⟩
    cases xs with
    | nil => exact fun y s hy hs => ⟨rfl, hs, rfl⟩
    | cons x xs => cases hxs
  | cons d ds ih =>
    obtain ⟨⟨r, hr⟩, hds⟩ := List.forall_mem_cons.mp h
    obtain ⟨rs, hrs⟩ := ih hds
    refine ⟨r >>= fun v => rs >>= fun vs => .ok (v :: vs), fun xs hxs => ?_⟩
    cases xs with
    | nil => cases hxs
    | cons x xs =>
      obtain ⟨hx, hxs⟩ := List.cons.inj hxs
      unfold multiplyAll
      refine (hr x hx).bind fun v => ?_
      intro y s hy hs
      have hall := hrs xs hxs y s hy hs
      rw [run_get_bind, run_bind]
      rcases hrun : (multiplyAll xs).run s with ⟨f | vs, t⟩
      · rw [hrun] at hall
        obtain ⟨rfl, hall⟩ := hall
        exact ⟨rfl, hall⟩
      · rw [hrun] at hall
        obtain ⟨rfl, hoperand, hwrites⟩ := hall
        have hdrop : t.writes.drop s.writes.length = [] := by
          rw [show t.writes = s.writes from hwrites, List.drop_length]
        refine ⟨?_, hoperand, hwrites⟩
        simp only [run_get_bind, hdrop]
        rfl

theorem multiplies_throw {α β : Type} (f : Fault) (e : Diff C) (look : α → β) :
    Multiplies (throw f : MultiplyM C α) e look (.error f) :=
  fun _ _ _ hs => ⟨rfl, hs, rfl⟩

theorem Multiplies.map {α β γ κ : Type} {m : MultiplyM C α} {e : Diff C} {look : α → β}
    {look' : γ → κ} {r : Except Fault β} (h : Multiplies m e look r) {f : α → γ} {g : β → κ}
    (hf : ∀ a, look' (f a) = g (look a)) :
    Multiplies (m >>= fun a => pure (f a)) e look' (r >>= fun b => .ok (g b)) :=
  h.bind fun a _ _ _ hs => ⟨congrArg Except.ok (hf a), hs, rfl⟩

/-- A product depends on the values of the factors only. -/
theorem exists_multiplies {t u : DiffType C} (ht : t.Concrete) (hu : u.Concrete) {d e : Diff C}
    (hd : d.InstanceOf t) (he : e.InstanceOf u) :
    ∃ r, ∀ x : Object C, x.value = d → Multiplies (multiplyOperand x) e Datum.values r := by
  induction ht generalizing d with
  | int k =>
    obtain ⟨l, n, rfl, -⟩ := hd.eq_int
    obtain ⟨r, hr⟩ := exists_multiplies_int l n e
    refine ⟨r, fun x hx => ?_⟩
    cases x <;> cases hx
    exact hr
  | present =>
    cases hd.eq_present
    refine ⟨.ok (.diff e), fun x hx => ?_⟩
    cases x <;> cases hx
    exact multiplies_present hu he
  | @tuple ts _ _ ih =>
    obtain ⟨ds, rfl, hds⟩ := hd.eq_tuple
    obtain ⟨r, hr⟩ := exists_multiplies_all fun d hd => by
      obtain ⟨t, ht, hdt⟩ := exists_mem_of_forall₂ hds hd
      exact ih t ht hdt
    by_cases hmul : (Diff.tupleType (some ts)).multiplies = true
    · refine ⟨r >>= fun vs => .ok (.tuple 0 vs), fun x hx => ?_⟩
      cases x <;> cases hx
      rw [multiplyOperand, if_pos hmul]
      exact (hr _ rfl).map fun vs => congrArg (Datum.tuple 0) (Datum.mapAll_eq_map _ vs)
    · refine ⟨.error .missingMember, fun x hx => ?_⟩
      cases x <;> cases hx
      rw [multiplyOperand, if_neg hmul]
      exact multiplies_throw _ _ _
  | @vec t _ ih =>
    obtain ⟨ds, rfl, hds⟩ := hd.eq_vec
    obtain ⟨r, hr⟩ := exists_multiplies_all fun d hd => ih (hds d hd)
    by_cases hmul : (Diff.vecType (some t)).multiplies = true
    · refine ⟨r >>= fun vs => .ok (.list 0 vs), fun x hx => ?_⟩
      cases x <;> cases hx
      rw [multiplyOperand, if_pos hmul]
      exact (hr _ rfl).map fun vs => congrArg (Datum.list 0) (Datum.mapAll_eq_map _ vs)
    · refine ⟨.error .missingMember, fun x hx => ?_⟩
      cases x <;> cases hx
      rw [multiplyOperand, if_neg hmul]
      exact multiplies_throw _ _ _

end Object

/-- The operations on differences that change, combine, test, compare or write them. -/
inductive Operation.ByValue : Operation → Prop where
  | plusEquals : ByValue .plusEquals
  | negate : ByValue .negate
  | multiply : ByValue .multiply
  | isZero : ByValue .isZero
  | compare : ByValue .compare
  | render : ByValue .render
  | encode : ByValue .encode
  | toForm : ByValue .toForm

/-- What an operation comes to, by how its result looks and by the value that it leaves an object
with. -/
structure Outcome.Shows (o : Outcome C) (x : Object C)
    (result : Except Fault (Datum C (Diff C))) (receiver : Diff C) : Prop where
  result_eq : o.result.map Datum.face = result
  receiver_eq : (x.writes o.writes).value = receiver

/-- An operation comes to one and the same on all objects of some values, whatever they share. -/
def Operation.Determined (op : Operation) (d : Diff C) (ds : List (Diff C)) : Prop :=
  ∃ result receiver, ∀ (x : Object C) (ys : List (Object C)) (known : Schemas C) (next : Nat),
    x.value = d → ys.map Object.value = ds → Coherent next (nodesAll (.diff x :: ys.map .diff)) →
    (op.call (.diff x :: ys.map .diff) known next).Shows x result receiver

namespace Operation

variable {op : Operation} {d : Diff C} {ds : List (Diff C)}

private theorem determined_of_shown (r : Except Fault (Datum C (Diff C)))
    (h : ∀ (x : Object C) (ys : List (Object C)) (known : Schemas C) (next : Nat), x.value = d →
      ys.map Object.value = ds → ∃ v, op.call (.diff x :: ys.map .diff) known next = .shown next v ∧
        v.map Datum.face = r) : op.Determined d ds := by
  refine ⟨r, d, fun x ys known next hx hys _ => ?_⟩
  obtain ⟨v, hcall, hv⟩ := h x ys known next hx hys
  rw [hcall]
  exact ⟨hv, hx⟩

end Operation

namespace Session

variable {x : Object C} {next : Nat}

/-- What an operation in place comes to on objects that are told apart by labels in use. -/
theorem shows_inPlace {r : Except Fault (Diff C)} {m : UpdateM C Unit}
    (h : Object.Renews x.label? r m ⟨[], next⟩) (hx : Progress.Settled ⟨[], next⟩ x.nodes) :
    (inPlace m (fun _ => .null) next).Shows x (r.map fun _ => .null)
      (r.toOption.getD x.value) := by
  rcases h with ⟨f, u, rfl, hrun, hext⟩ | ⟨z, new, u, rfl, hnew, -, hrun⟩
  · refine ⟨by simp [inPlace, hrun], ?_⟩
    simp only [inPlace, hrun, Object.writes_object]
    rw [(hx.extends hext (Progress.apart_nil _)).after_eq]
    rfl
  · refine ⟨by simp [inPlace, hrun]; rfl, ?_⟩
    simp only [inPlace, hrun, Object.writes_object, Object.after_commit _ hnew.label_eq,
      hnew.value_eq]
    rfl

end Session

namespace Operation

variable {op : Operation} {d e : Diff C} {ds : List (Diff C)}

private theorem determined_unary (h : op.Determined d [])
    (hmore : ∀ (v w : Value C) vs known next,
      op.call (v :: w :: vs) known next = .failed next .badArguments) : op.Determined d ds := by
  cases ds with
  | nil => exact h
  | cons e es =>
    refine determined_of_shown (.error .badArguments) fun x ys known next _ hys => ?_
    cases ys with
    | nil => cases hys
    | cons y ys => exact ⟨_, hmore _ _ _ known next, rfl⟩

private theorem determined_binary (h : ∀ e, ds = [e] → op.Determined d [e])
    (hless : ∀ (v : Value C) known next, op.call [v] known next = .failed next .badArguments)
    (hmore : ∀ (v w u : Value C) vs known next,
      op.call (v :: w :: u :: vs) known next = .failed next .badArguments) :
    op.Determined d ds := by
  rcases ds with _ | ⟨e, _ | ⟨e', es⟩⟩
  · refine determined_of_shown (.error .badArguments) fun x ys known next _ hys => ?_
    obtain rfl := List.map_eq_nil_iff.mp hys
    exact ⟨_, hless _ known next, rfl⟩
  · exact h e rfl
  · refine determined_of_shown (.error .badArguments) fun x ys known next _ hys => ?_
    rcases ys with _ | ⟨y, _ | ⟨y', ys⟩⟩
    · cases hys
    · cases hys
    · exact ⟨_, hmore _ _ _ _ known next, rfl⟩

private theorem determined_plusEquals (d e : Diff C) : plusEquals.Determined d [e] := by
  refine ⟨(d.plus (.diff e)).map fun _ => .null, (d.plus (.diff e)).toOption.getD d,
    fun x ys known next hx hys h => ?_⟩
  obtain ⟨y, rfl, rfl⟩ := List.map_eq_singleton_iff.mp hys
  subst hx
  have hnodes {z : Object C} (hz : .diff z ∈ [Datum.diff x, .diff y]) :
      Progress.Settled ⟨[], next⟩ z.nodes :=
    h.settled.mono (Datum.nodes_subset_nodesAll (v := .diff z) hz)
  exact Session.shows_inPlace
    (x.renews_plusEquals (v := .diff y) (Progress.valid_start next) (hnodes (by simp)))
    (hnodes (by simp))

private theorem determined_negate (d : Diff C) : negate.Determined d [] := by
  refine ⟨d.negate.map fun _ => .null, d.negate.toOption.getD d,
    fun x ys known next hx hys h => ?_⟩
  obtain rfl := List.map_eq_nil_iff.mp hys
  subst hx
  exact Session.shows_inPlace (x.renews_negate (Progress.valid_start next))
    (h.settled.mono (Datum.nodes_subset_nodesAll (v := .diff x) List.mem_cons_self))

private theorem determined_multiply {t u : DiffType C} (ht : t.Concrete) (hu : u.Concrete)
    (hd : d.InstanceOf t) (he : e.InstanceOf u) : multiply.Determined d [e] := by
  obtain ⟨r, hr⟩ := Object.exists_multiplies ht hu hd he
  refine ⟨r.map Datum.unlabelled, d, fun x ys known next hx hys _ => ?_⟩
  obtain ⟨y, rfl, hy⟩ := List.map_eq_singleton_iff.mp hys
  obtain ⟨hresult, -, hwrites⟩ := hr x hx y ⟨.diff y, [], next⟩ hy rfl
  constructor
  · rw [← hresult]
    change (x.multiply (.diff y) next).1.map Datum.face = _
    rw [Object.multiply]
    cases ((Object.multiplyOperand x).run ⟨.diff y, [], next⟩).1 <;> rfl
  · change (x.writes (x.multiply (.diff y) next).2.writes).value = d
    rw [Object.multiply, hwrites]
    exact hx

private theorem determined_compare (d e : Diff C) : compare.Determined d [e] := by
  refine determined_of_shown (.ok ((Datum.compare (.diff d) (.diff e)).toRecord : Value C).face)
    fun x ys known next hx hys => ?_
  obtain ⟨y, rfl, rfl⟩ := List.map_eq_singleton_iff.mp hys
  subst hx
  exact ⟨_, rfl, rfl⟩

/-- What these operations come to is determined by the values of their operands. -/
theorem ByValue.determined (hop : op.ByValue)
    (hd : ∃ t : DiffType C, t.Concrete ∧ d.InstanceOf t)
    (hds : ∀ e ∈ ds, ∃ t : DiffType C, t.Concrete ∧ e.InstanceOf t) : op.Determined d ds := by
  have hlooks (r : Except Fault (Datum C (Diff C))) {op : Operation}
      (hcall : ∀ x : Object C, x.value = d → ∀ known next, ∃ v,
        op.call [.diff x] known next = .shown next v ∧ v.map Datum.face = r) :
      op.Determined d [] := by
    refine determined_of_shown r fun x ys known next hx hys => ?_
    obtain rfl := List.map_eq_nil_iff.mp hys
    exact hcall x hx known next
  cases hop with
  | plusEquals =>
    exact determined_binary (fun e _ => determined_plusEquals d e) (fun _ _ _ => rfl)
      fun _ _ _ _ _ _ => rfl
  | negate => exact determined_unary (determined_negate d) fun _ _ _ _ _ => rfl
  | multiply =>
    obtain ⟨t, ht, hdt⟩ := hd
    refine determined_binary (fun e he => ?_) (fun _ _ _ => rfl) fun _ _ _ _ _ _ => rfl
    obtain ⟨u, hu, heu⟩ := hds e (by simp [he])
    exact determined_multiply ht hu hdt heu
  | isZero =>
    refine determined_unary (hlooks (.ok (.bool d.isZero)) fun x hx known next => ?_)
      fun _ _ _ _ _ => rfl
    exact ⟨.ok (.bool x.value.isZero), rfl, by rw [hx]; rfl⟩
  | compare =>
    exact determined_binary (fun e _ => determined_compare d e) (fun _ _ _ => rfl)
      fun _ _ _ _ _ _ => rfl
  | render =>
    refine determined_unary (hlooks (.ok (.text d.render)) fun x hx known next => ?_)
      fun _ _ _ _ _ => rfl
    exact ⟨.ok (.text x.value.render), rfl, by rw [hx]; rfl⟩
  | encode =>
    refine determined_unary (hlooks (d.encode.map .bytes) fun x hx known next => ?_)
      fun _ _ _ _ _ => rfl
    refine ⟨_, rfl, ?_⟩
    rw [Session.encode, hx]
    cases d.encode <;> rfl
  | toForm =>
    refine determined_unary (hlooks ((d.toForm : Except Fault (Value C)).map Datum.face)
      fun x hx known next => ?_) fun _ _ _ _ _ => rfl
    exact ⟨_, rfl, by rw [Session.toForm, hx]⟩

end Operation

/-- Two outcomes look alike: so do their results, or they are one and the same error, and the
objects that the operations were called on are left with equal values. -/
def Outcome.Alike (o : Outcome C) (x : Object C) (o' : Outcome C) (x' : Object C) : Prop :=
  o.result.map Datum.face = o'.result.map Datum.face ∧
    (x.writes o.writes).value = (x'.writes o'.writes).value

theorem Outcome.Shows.settle {o : Outcome C} {x : Object C}
    {result : Except Fault (Datum C (Diff C))} {receiver : Diff C}
    (h : o.Shows x result receiver) : o.settle.Shows x result receiver := by
  refine ⟨?_, by rw [Outcome.writes_settle]; exact h.receiver_eq⟩
  rw [← h.result_eq]
  cases hr : o.result with
  | error f => rw [Outcome.result_settle_of_error hr]
  | ok v =>
    rw [Outcome.result_settle_of_ok hr]
    exact congrArg Except.ok (Datum.face_settle v _)

namespace Session

variable {s s' : Session C} {c c' : Command C} {x x' : Object C} {ys ys' : List (Object C)}
  {out out' : Outcome C}

/-- Commands of one operation on equal values have outcomes that look alike. -/
theorem Reachable.alike (hs : s.Reachable) (hs' : s'.Reachable) (hop : c.operation.ByValue)
    (hop' : c'.operation = c.operation)
    (hout : s.attempt c = .ok (.diff x :: ys.map .diff, out))
    (hout' : s'.attempt c' = .ok (.diff x' :: ys'.map .diff, out'))
    (htypes : ∀ y ∈ x :: ys, y.typeOf.Concrete) (hx : x'.value = x.value)
    (hys : ys'.map Object.value = ys.map Object.value) : out.Alike x out' x' := by
  have hinstance {y : Object C} (hy : y ∈ x :: ys) :
      ∃ t : DiffType C, t.Concrete ∧ y.value.InstanceOf t :=
    ⟨_, htypes y hy, .self (hs.isWellTyped.wellTyped_arg hout (List.mem_map_of_mem hy))⟩
  have hoperands : ∀ d ∈ ys.map Object.value, ∃ t : DiffType C, t.Concrete ∧ d.InstanceOf t :=
    List.forall_mem_map.mpr fun y hy => hinstance (List.mem_cons_of_mem _ hy)
  obtain ⟨result, receiver, hshows⟩ := hop.determined (hinstance List.mem_cons_self) hoperands
  have hshown {s : Session C} (hs : s.Reachable) {c' : Command C}
      (hop' : c'.operation = c.operation) {x' : Object C} {ys' : List (Object C)}
      {out : Outcome C} (hout : s.attempt c' = .ok (.diff x' :: ys'.map .diff, out))
      (hx : x'.value = x.value) (hys : ys'.map Object.value = ys.map Object.value) :
      out.Shows x' result receiver := by
    obtain ⟨next, -, rfl, hpool⟩ := hs.isCoherent.attempt hout
    have hargs := hpool.of_append_right
    have hsame : c.operation ≠ .same := by
      intro h
      rw [h] at hop
      cases hop
    rw [Command.call_of_ne_same hop' hsame]
    exact (hshows x' ys' s.schemas next hx hys hargs).settle
  have h := hshown hs rfl hout rfl rfl
  have h' := hshown hs' hop' hout' hx hys
  exact ⟨h.result_eq.trans h'.result_eq.symm, h.receiver_eq.trans h'.receiver_eq.symm⟩

theorem attempt_vars (op : Operation) (name : Option String) {n m : String}
    (hn : s.bindings.get? n = some (.diff x)) (hm : s.bindings.get? m = some (.diff x')) :
    ∃ out, s.attempt ⟨op, [.var n, .var m], name⟩ = .ok ([.diff x, .diff x'], out) := by
  simp [attempt, Expr.evalAll, Expr.eval, hn, hm, Datum.settleAll, Datum.settle]

theorem Reachable.bindings_clone (hs : s.Reachable) {n : String}
    (hn : s.bindings.get? n = some (.diff x)) (hx : x.typeOf.Concrete) (m : String) :
    (s.step ⟨.clone, [.var n], some m⟩).1.bindings =
      s.bindings.set m (.diff (Object.ofDiff x.value s.next).1) := by
  have hmem : .diff x ∈ s.data := List.mem_append_left _ (Bindings.get?_mem hn)
  have hwell : x.value.wellTyped = true :=
    Object.wellTyped_iff.mpr (hs.isWellTyped.mono (Datum.nodes_subset_nodesAll hmem))
  have hclone : x.value.clone = .ok x.value :=
    Diff.clone_eq_ok.mpr ⟨((Diff.InstanceOf.self hwell).summand hx).clonable, rfl⟩
  have hcall : (Command.mk .clone [.var n] (some m)).call [.diff x] s.schemas s.next =
      .shown (Object.ofDiff x.value s.next).2 (.ok (.diff (Object.ofDiff x.value s.next).1)) := by
    rw [Command.call_of_ne_same rfl (by simp)]
    change clone (.diff x) s.next = _
    simp [clone, Datum.receiver, Object.clone, hclone, Outcome.made]
  simp [Session.step, Expr.evalAll, Expr.eval, hn, Datum.settleAll, Datum.settle, hcall,
    Outcome.settle, Outcome.shown, change, keep, bind, Datum.writes]

/-- A name is bound to a clone of an object, and the object keeps its own. -/
theorem Reachable.exists_clone (hs : s.Reachable) {n m : String}
    (hn : s.bindings.get? n = some (.diff x)) (hx : x.typeOf.Concrete) (hnm : n ≠ m) :
    ∃ y : Object C, y.value = x.value ∧
      (s.step ⟨.clone, [.var n], some m⟩).1.bindings.get? m = some (.diff y) ∧
      (s.step ⟨.clone, [.var n], some m⟩).1.bindings.get? n = some (.diff x) := by
  rw [hs.bindings_clone hn hx, Bindings.get?_set, Bindings.get?_set, if_pos rfl, if_neg hnm.symm]
  exact ⟨_, Object.value_ofDiff _ _, rfl, hn⟩

/-- Outcomes depend on values and not on what is shared. In any two sessions that commands lead to,
one and the same operation on equal values has outcomes that look alike; the objects may share
components, within an operand as well as between the operands, and the operand may be the receiver.
So adding an object to itself comes to what adding a clone of it comes to. -/
theorem Reachable.unaliased (hs : s.Reachable) :
    (∀ (s' : Session C) (c c' : Command C) (x x' : Object C) (ys ys' : List (Object C))
      (out out' : Outcome C), s'.Reachable → c.operation.ByValue → c'.operation = c.operation →
      s.attempt c = .ok (.diff x :: ys.map .diff, out) →
      s'.attempt c' = .ok (.diff x' :: ys'.map .diff, out') →
      (∀ y ∈ x :: ys, y.typeOf.Concrete) → x'.value = x.value →
      ys'.map Object.value = ys.map Object.value → out.Alike x out' x') ∧
    ∀ (n m : String) (x : Object C), n ≠ m → s.bindings.get? n = some (.diff x) →
      x.typeOf.Concrete →
      ∃ y out out',
        s.attempt ⟨.plusEquals, [.var n, .var n], none⟩ = .ok ([.diff x, .diff x], out) ∧
        (s.step ⟨.clone, [.var n], some m⟩).1.attempt ⟨.plusEquals, [.var n, .var m], none⟩ =
          .ok ([.diff x, .diff y], out') ∧
        y.value = x.value ∧ out.Alike x out' x := by
  constructor
  · intro s' c c' x x' ys ys' out out' hs' hop hop' hout hout' htypes hx hys
    exact hs.alike hs' hop hop' hout hout' htypes hx hys
  · intro n m x hnm hn hx
    obtain ⟨y, hy, hm, hn'⟩ := hs.exists_clone hn hx hnm
    obtain ⟨out, hout⟩ := attempt_vars .plusEquals none hn hn
    obtain ⟨out', hout'⟩ := attempt_vars .plusEquals none hn' hm
    have houts : s.attempt _ = .ok (.diff x :: [x].map .diff, out) := hout
    have houts' : Session.attempt _ _ = .ok (.diff x :: [y].map .diff, out') := hout'
    exact ⟨y, out, out', hout, hout', hy, hs.alike (hs.step _) .plusEquals (by rfl) houts houts'
      (by simpa using hx) rfl (by simpa using hy)⟩

def separatePairs (n : Int) : Session specimens :=
  let byte : Expr specimens := .type (.diff (.int ⟨.unsigned, .w8⟩))
  let pair : Expr specimens := .new (.tupleType [byte, byte]) [.int n, .int n]
  ((empty.step ⟨.evaluate, [pair], some "pair"⟩).1.step ⟨.evaluate, [pair], some "other"⟩).1

/-- A pair of one and the same integer is added to itself, and a pair of two integers to another
one; the former is also added to a clone of it. -/
theorem unaliased_sharedPair :
    ∃ x x' y y' out out' out'',
      (sharedPair 60).attempt ⟨.plusEquals, [.var "pair", .var "pair"], none⟩ =
        .ok ([.diff x, .diff x], out) ∧
      (separatePairs 60).attempt ⟨.plusEquals, [.var "pair", .var "other"], none⟩ =
        .ok ([.diff x', .diff y'], out') ∧
      ((sharedPair 60).step ⟨.clone, [.var "pair"], some "copy"⟩).1.attempt
        ⟨.plusEquals, [.var "pair", .var "copy"], none⟩ = .ok ([.diff x, .diff y], out'') ∧
      out.Alike x out' x' ∧ out.Alike x out'' x := by
  let k : IntKind := ⟨.unsigned, .w8⟩
  let x : Object specimens := .tuple 2 (some [.int k, .int k]) [.int 1 k 60, .int 1 k 60]
  let x' : Object specimens := .tuple 1 (some [.int k, .int k]) [.int 2 k 60, .int 3 k 60]
  let y' : Object specimens := .tuple 4 (some [.int k, .int k]) [.int 5 k 60, .int 6 k 60]
  have hx : x.typeOf.Concrete := .pair (.int k) (.int k)
  have hs' : (separatePairs 60).Reachable := .step (.step .empty _) _
  have h := (reachable_sharedPair 60).unaliased
  obtain ⟨y, out, out'', hout, hout'', -, halike⟩ := h.2 "pair" "copy" x (by decide) rfl hx
  refine ⟨x, x', y, y', out, _, out'', hout, rfl, hout'', ?_, halike⟩
  exact h.1 (separatePairs 60) ⟨.plusEquals, [.var "pair", .var "pair"], none⟩
    ⟨.plusEquals, [.var "pair", .var "other"], none⟩ x x' [x] [y'] out _ hs' .plusEquals rfl hout rfl
    (by simpa using hx) rfl rfl

end Session

end DiffAlgebra
