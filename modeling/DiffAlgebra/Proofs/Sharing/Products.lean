import DiffAlgebra.Proofs.Sharing.Frames
import DiffAlgebra.Proofs.Sharing.Mutables
import DiffAlgebra.Proofs.Sharing.PlacedOutcomes
import DiffAlgebra.Proofs.Typing.Capabilities

/-!
# Products are new

An object over integers and presence markers is multiplied leaf by leaf, from left to right, until a
leaf refuses the operand. If none does, the outputs of the leaves stand in the product as the leaves
stand in the object, and they share nothing that can be changed, neither with what there was before
nor with each other.
-/

namespace DiffAlgebra

variable {C : Catalog}

theorem DiffType.Concrete.multiplies {t : DiffType C} (h : t.Concrete) : t.multiplies = true := by
  induction h with
  | int | present => rfl
  | tuple _ _ ih =>
    rw [multiplies_tuple]
    exact List.all_eq_true.mpr ih
  | vec _ ih => exact ih

namespace Object

mutual

/-- The objects that an object is composed of in the end, from left to right. -/
def leaves : Object C → List (Object C)
  | int l k n => [int l k n]
  | present => [present]
  | custom l n s => [custom l n s]
  | tuple _ _ xs | vec _ _ xs => leavesAll xs

def leavesAll : List (Object C) → List (Object C)
  | [] => []
  | x :: xs => leaves x ++ leavesAll xs

end

mutual

/-- Outputs of the leaves stand in a product as the leaves do in the object: a tuple has become a
tuple and a sequence a list, whose labels have a property. -/
inductive Arranges (P : Nat → Prop) : Object C → List (Value C) → Value C → Prop where
  | int {l : Nat} {k : IntKind} {n : Int} (w : Value C) : Arranges P (int l k n) [w] w
  | present (w : Value C) : Arranges P present [w] w
  | custom {l : Nat} {n : C.Name} {s : C.State} (w : Value C) : Arranges P (custom l n s) [w] w
  | tuple {l m : Nat} {ts : Option (List (DiffType C))} {xs : List (Object C)}
      {outs ws : List (Value C)} (label : P m) (components : ArrangesAll P xs outs ws) :
      Arranges P (tuple l ts xs) outs (.tuple m ws)
  | vec {l m : Nat} {t : Option (DiffType C)} {xs : List (Object C)} {outs ws : List (Value C)}
      (label : P m) (elements : ArrangesAll P xs outs ws) : Arranges P (vec l t xs) outs (.list m ws)

inductive ArrangesAll (P : Nat → Prop) :
    List (Object C) → List (Value C) → List (Value C) → Prop where
  | nil : ArrangesAll P [] [] []
  | cons {x : Object C} {xs : List (Object C)} {outs outs' : List (Value C)} {w : Value C}
      {ws : List (Value C)} (head : Arranges P x outs w) (tail : ArrangesAll P xs outs' ws) :
      ArrangesAll P (x :: xs) (outs ++ outs') (w :: ws)

end

mutual

/-- What can be changed in a product is one of its own lists, or belongs to an output. -/
theorem Arranges.mem_mutables {P : Nat → Prop} : {x : Object C} → {outs : List (Value C)} →
    {w : Value C} → Arranges P x outs w → ∀ l ∈ w.mutables, P l ∨ ∃ out ∈ outs, l ∈ out.mutables
  | _, _, _, .int w, l, hl | _, _, _, .present w, l, hl | _, _, _, .custom w, l, hl =>
    Or.inr ⟨w, List.mem_cons_self, hl⟩
  | _, _, _, .tuple _ h, l, hl => h.mem_mutables l hl
  | _, _, _, .vec label h, l, hl => by
    rcases List.mem_cons.mp hl with rfl | hl
    · exact Or.inl label
    · exact h.mem_mutables l hl

theorem ArrangesAll.mem_mutables {P : Nat → Prop} : {xs : List (Object C)} →
    {outs ws : List (Value C)} → ArrangesAll P xs outs ws →
    ∀ l ∈ Datum.mutablesAll ws, P l ∨ ∃ out ∈ outs, l ∈ out.mutables
  | _, _, _, .nil, l, hl => nomatch hl
  | _, _, _, .cons head tail, l, hl => by
    rcases List.mem_append.mp hl with hl | hl
    · exact (head.mem_mutables l hl).imp_right fun ⟨out, hout, h⟩ =>
        ⟨out, List.mem_append_left _ hout, h⟩
    · exact (tail.mem_mutables l hl).imp_right fun ⟨out, hout, h⟩ =>
        ⟨out, List.mem_append_right _ hout, h⟩

end

mutual

/-- Placing a product gives new labels to its tuples and lists, and leaves placed outputs alone. -/
theorem Arranges.settle {P : Nat → Prop} {n : Nat} (hP : ∀ m, n ≤ m → P m) : {x : Object C} →
    {outs : List (Value C)} → {w : Value C} → {next : Nat} → Arranges (· = 0) x outs w →
    n ≤ next → (∀ out ∈ outs, out.Labelled (0 < ·)) → Arranges P x outs (w.settle next).1
  | _, _, _, _, .int w, _, houts => by
    rw [Datum.settle_eq_self w (houts w List.mem_cons_self)]
    exact .int w
  | _, _, _, _, .present w, _, houts => by
    rw [Datum.settle_eq_self w (houts w List.mem_cons_self)]
    exact .present w
  | _, _, _, _, .custom w, _, houts => by
    rw [Datum.settle_eq_self w (houts w List.mem_cons_self)]
    exact .custom w
  | _, _, _, _, .tuple rfl h, hle, houts =>
    .tuple (hP _ hle) (h.settleAll hP (hle.trans (Nat.le_succ _)) houts)
  | _, _, _, _, .vec rfl h, hle, houts =>
    .vec (hP _ hle) (h.settleAll hP (hle.trans (Nat.le_succ _)) houts)

theorem ArrangesAll.settleAll {P : Nat → Prop} {n : Nat} (hP : ∀ m, n ≤ m → P m) :
    {xs : List (Object C)} → {outs ws : List (Value C)} → {next : Nat} →
    ArrangesAll (· = 0) xs outs ws → n ≤ next → (∀ out ∈ outs, out.Labelled (0 < ·)) →
    ArrangesAll P xs outs (Datum.settleAll ws next).1
  | _, _, _, _, .nil, _, _ => .nil
  | _, _, _, next, .cons (w := w) head tail, hle, houts => by
    obtain ⟨hhead, htail⟩ := List.forall_mem_append.mp houts
    exact .cons (head.settle hP hle hhead)
      (tail.settleAll hP (hle.trans (Datum.le_settle w next)) htail)

end

def Takes (v : Value C) (x : Object C) : Prop := ∀ next, ∃ w, (x.multiply v next).1 = .ok w

def Refuses (v : Value C) (f : Fault) (x : Object C) : Prop :=
  ∀ next, (x.multiply v next).1 = .error f

/-- What a leaf is multiplied to: an integer to one of its kind, the product with the operand as it
is coerced to that kind, and the presence marker to a deep copy of the operand. -/
inductive IsProduct (v : Value C) : Object C → Value C → Prop where
  | int {l l' : Nat} {j k : IntKind} {m n p : Int}
      (coerced : Diff.coerce (.int k) v.values = .ok (.int j n)) (product : k.mul m n = .ok p) :
      IsProduct v (int l k m) (.diff (int l' k p))
  | present {w : Value C} {next last : Nat} (copied : v.deepCopy next = .ok (w, last)) :
      IsProduct v present w

/-- Outputs whose labels have been handed out from `next` on and below `last`, and of which no two
have one in common. -/
structure Issued (next last : Nat) (outs : List (Value C)) : Prop where
  le : next ≤ last
  bounds : ∀ out ∈ outs, ∀ l ∈ out.mutables, next ≤ l ∧ l < last
  apart : outs.Pairwise Datum.Apart
  placed : ∀ out ∈ outs, out.Labelled (0 < ·)

namespace Issued

variable {next mid last : Nat} {outs outs' : List (Value C)}

theorem nil (next : Nat) : Issued next next ([] : List (Value C)) :=
  ⟨Nat.le_refl _, by simp, .nil, by simp⟩

theorem singleton {w : Value C} (hle : next ≤ last)
    (hbounds : ∀ l ∈ w.mutables, next ≤ l ∧ l < last) (hplaced : w.Labelled (0 < ·)) :
    Issued next last [w] :=
  ⟨hle, List.forall_mem_singleton.mpr hbounds, List.pairwise_singleton _ _,
    List.forall_mem_singleton.mpr hplaced⟩

theorem append (h : Issued next mid outs) (h' : Issued mid last outs') :
    Issued next last (outs ++ outs') where
  le := h.le.trans h'.le
  bounds := by
    refine List.forall_mem_append.mpr ⟨fun out hout l hl => ?_, fun out hout l hl => ?_⟩
    · exact (h.bounds out hout l hl).imp_right fun hlt => hlt.trans_le h'.le
    · exact (h'.bounds out hout l hl).imp_left h.le.trans
  apart := by
    refine List.pairwise_append.mpr ⟨h.apart, h'.apart, fun u hu v hv l hlu hlv => ?_⟩
    have hlt := (h.bounds u hu l hlu).2
    have hle := (h'.bounds v hv l hlv).1
    omega
  placed := List.forall_mem_append.mpr ⟨h.placed, h'.placed⟩

end Issued

/-- What multiplying leaves in turn comes to: their outputs, arranged in some way, if all of them
take the operand, and otherwise the fault of the first one that refuses it. -/
inductive Distributed {α : Type} (v : Value C) (next : Nat) (xs : List (Object C))
    (shape : List (Value C) → α → Prop) : Except Fault α → Nat → Prop where
  | ok {outs : List (Value C)} {a : α} {last : Nat} (takes : ∀ x ∈ xs, x.Takes v)
      (products : List.Forall₂ (IsProduct v) xs outs) (issued : Issued next last outs)
      (arranged : shape outs a) : Distributed v next xs shape (.ok a) last
  | error {before after : List (Object C)} {x : Object C} {f : Fault} {last : Nat}
      (leaves_eq : xs = before ++ x :: after) (takes : ∀ y ∈ before, y.Takes v)
      (refuses : x.Refuses v f) (le : next ≤ last) :
      Distributed v next xs shape (.error f) last

theorem Distributed.of_refuses {α : Type} {v : Value C} {next : Nat} {x : Object C}
    {shape : List (Value C) → α → Prop} {f : Fault} (h : x.Refuses v f) :
    Distributed v next [x] shape (.error f) next :=
  .error (show [x] = [] ++ x :: [] from rfl) (by simp) h (Nat.le_refl _)

structure IsOperand (v : Value C) (next : Nat) : Prop where
  placed : v.Labelled (0 < ·)
  mutables_lt : ∀ l ∈ v.mutables, l < next
  pos : 0 < next

theorem IsOperand.mono {v : Value C} {next last : Nat} (h : IsOperand v next)
    (hle : next ≤ last) : IsOperand v last :=
  ⟨h.placed, fun l hl => (h.mutables_lt l hl).trans_le hle, h.pos.trans_le hle⟩

/-- A step of a multiplication by `v` changes nothing and multiplies leaves in turn. -/
def Distributes {α : Type} (v : Value C) (m : MultiplyM C α) (xs : List (Object C))
    (shape : List (Value C) → α → Prop) : Prop :=
  ∀ ws next, IsOperand v next → ∃ r last, m.run ⟨v, ws, next⟩ = (r, ⟨v, ws, last⟩) ∧
    Distributed v next xs shape r last

namespace Distributes

variable {v : Value C} {α β : Type} {xs : List (Object C)}
  {shape : List (Value C) → α → Prop} {shape' : List (Value C) → β → Prop}

theorem map {m : MultiplyM C α} (h : Distributes v m xs shape) {f : α → β}
    (hf : ∀ {outs a}, shape outs a → shape' outs (f a)) :
    Distributes v (m >>= fun a => pure (f a)) xs shape' := by
  intro ws next hv
  obtain ⟨r, last, hrun, hr⟩ := h ws next hv
  rw [run_bind, hrun]
  cases hr with
  | ok takes products issued h => exact ⟨_, last, rfl, .ok takes products issued (hf h)⟩
  | error leaves_eq takes refuses le => exact ⟨_, last, rfl, .error leaves_eq takes refuses le⟩

end Distributes

variable {v : Value C}

private theorem distributes_int (l : Nat) (k : IntKind) (m : Int) :
    Distributes v (multiplyOperand (int l k m)) [int l k m] (Arranges (· = 0) (int l k m)) := by
  intro ws next hv
  change ∃ r last, (multiplyInt k m).run _ = _ ∧ _
  rw [multiplyInt, run_get_bind]
  cases hp : productInt k m v with
  | error f =>
    refine ⟨.error f, next, rfl, .of_refuses ?_⟩
    exact fun n => congrArg Prod.fst (multiply_int_of_error hp l n)
  | ok p =>
    have htakes : (int l k m).Takes v := fun n =>
      ⟨_, congrArg Prod.fst (multiply_int_of_ok hp l n)⟩
    rw [productInt_eq] at hp
    obtain ⟨d, hd, hp⟩ := bind_eq_ok.mp hp
    cases d with
    | int j n =>
      have hproduct : IsProduct v (int l k m) (.diff (int next k p)) := .int hd hp
      refine ⟨_, next + 1, rfl, .ok (List.forall_mem_singleton.mpr htakes) (.cons hproduct .nil) ?_
        (.int _)⟩
      refine .singleton (Nat.le_succ _) (fun l hl => ?_) (Datum.labelled_diff _)
      obtain rfl := List.mem_singleton.mp hl
      exact ⟨Nat.le_refl _, Nat.lt_succ_self _⟩
    | _ => cases hp

theorem run_multiplyPresent (v : Value C) (ws : List (Write C)) (next : Nat) :
    (multiplyOperand present).run ⟨v, ws, next⟩ = match v.deepCopy next with
      | .ok (w, last) => (.ok w, ⟨v, ws, last⟩)
      | .error f => (.error f, ⟨v, ws, next⟩) := by
  change multiplyPresent.run _ = _
  rw [multiplyPresent, run_get_bind]
  cases v.deepCopy next <;> rfl

private theorem distributes_present :
    Distributes v (multiplyOperand present) [present] (Arranges (· = 0) present) := by
  intro ws next hv
  rw [run_multiplyPresent]
  cases hcopy : v.deepCopy next with
  | error f =>
    refine ⟨.error f, next, rfl, .of_refuses fun n => ?_⟩
    rw [multiply, run_multiplyPresent, Datum.deepCopy_error hcopy]
  | ok r =>
    obtain ⟨w, last⟩ := r
    have htakes : Takes v present := by
      intro n
      obtain ⟨u, last', hu⟩ := Datum.exists_deepCopy hcopy n
      exact ⟨u, by rw [multiply, run_multiplyPresent, hu]⟩
    refine ⟨.ok w, last, rfl, .ok (List.forall_mem_singleton.mpr htakes)
      (.cons (.present hcopy) .nil) ?_ (.present w)⟩
    refine .singleton (Datum.le_deepCopy hcopy) (Datum.bounds_deepCopy hcopy hv.mutables_lt) ?_
    exact Datum.labelled_deepCopy hv.placed hcopy

theorem distributes_all {xs : List (Object C)}
    (h : ∀ x ∈ xs, Distributes v (multiplyOperand x) x.leaves (Arranges (· = 0) x)) :
    Distributes v (multiplyAll xs) (leavesAll xs) (ArrangesAll (· = 0) xs) := by
  induction xs with
  | nil => exact fun ws next _ => ⟨.ok [], next, rfl, .ok (by simp [leavesAll]) .nil (.nil next) .nil⟩
  | cons x xs ih =>
    obtain ⟨hx, hxs⟩ := List.forall_mem_cons.mp h
    intro ws next hv
    obtain ⟨r, mid, hrun, hr⟩ := hx ws next hv
    rw [multiplyAll, run_bind, hrun]
    cases hr with
    | @error before after leaf f _ leaves_eq takes refuses le =>
      have hleaves : leavesAll (x :: xs) = before ++ leaf :: (after ++ leavesAll xs) := by
        rw [leavesAll, leaves_eq, List.append_assoc, List.cons_append]
      exact ⟨_, mid, rfl, .error hleaves takes refuses le⟩
    | @ok outs w _ takes products issued arranged =>
      obtain ⟨r, last, hrun', hr⟩ := ih hxs ws mid (hv.mono issued.le)
      simp only [run_get_bind]
      rw [run_bind, hrun']
      cases hr with
      | @error before after leaf f _ leaves_eq takes' refuses le =>
        have hleaves : leavesAll (x :: xs) = (x.leaves ++ before) ++ leaf :: after := by
          rw [leavesAll, leaves_eq, List.append_assoc]
        exact ⟨_, last, rfl, .error hleaves (List.forall_mem_append.mpr ⟨takes, takes'⟩) refuses
          (issued.le.trans le)⟩
      | @ok outs' us _ takes' products' issued' arranged' =>
        have hdrop : ws.drop ws.length = [] := List.drop_length
        refine ⟨.ok (w :: us), last, ?_, .ok (List.forall_mem_append.mpr ⟨takes, takes'⟩)
          (List.rel_append products products') (issued.append issued') (.cons arranged arranged')⟩
        simp only [run_get_bind, hdrop]
        rfl

/-- Multiplying a built-in object changes nothing and multiplies its leaves in turn. -/
theorem BuiltIn.distributes {x : Object C} (h : x.BuiltIn) :
    Distributes v (multiplyOperand x) x.leaves (Arranges (· = 0) x) := by
  induction h with
  | int l k n => exact distributes_int l k n
  | present => exact distributes_present
  | tuple type _ ih =>
    have hmultiplies : (Diff.tupleType (some _)).multiplies = true := type.multiplies
    rw [multiplyOperand, if_pos hmultiplies]
    exact (distributes_all ih).map (.tuple rfl)
  | vec type _ ih =>
    have hmultiplies : (Diff.vecType (some _)).multiplies = true := type.multiplies
    rw [multiplyOperand, if_pos hmultiplies]
    exact (distributes_all ih).map (.vec rfl)

/-- What an object is multiplied to by a datum, given all data that there were before. If every leaf
takes the operand, it is the outputs of the leaves in the arrangement of the object, and shares
nothing that can be changed with what there was, nor do two outputs of leaves. Otherwise it is the
fault of the first leaf that refuses the operand. -/
inductive MultipliesTo (before : List (Value C)) (v : Value C) (x : Object C) :
    Except Fault (Value C) → Prop where
  | given {outs : List (Value C)} {w : Value C} (takes : ∀ y ∈ x.leaves, y.Takes v)
      (products : List.Forall₂ (IsProduct v) x.leaves outs)
      (arranged : x.Arranges (fun l => ∀ u ∈ before, l ∉ u.mutables) outs w)
      (new : ∀ u ∈ before, w.Apart u) (apart : outs.Pairwise Datum.Apart) :
      MultipliesTo before v x (.ok w)
  | refused {taking rest : List (Object C)} {y : Object C} {f : Fault}
      (leaves_eq : x.leaves = taking ++ y :: rest) (takes : ∀ z ∈ taking, z.Takes v)
      (refuses : y.Refuses v f) : MultipliesTo before v x (.error f)

end Object

namespace Session

open Object (MultipliesTo Distributed IsOperand)

private theorem multipliesTo_settle {before : List (Value C)} {v : Value C} {x : Object C}
    {r : Except Fault (Value C)} {next last : Nat}
    (hbefore : ∀ u ∈ before, ∀ l ∈ u.mutables, l < next)
    (h : Distributed v next x.leaves (x.Arranges (· = 0)) r last) :
    x.MultipliesTo before v ({ result := r, next := last } : Outcome C).settle.result := by
  have hnew {l : Nat} (hl : next ≤ l) : ∀ u ∈ before, l ∉ u.mutables := fun u hu hlu =>
    absurd (hbefore u hu l hlu) (Nat.not_lt.mpr hl)
  cases h with
  | error leaves_eq takes refuses => exact .refused leaves_eq takes refuses
  | ok takes products issued arranged =>
    rw [Outcome.result_settle_of_ok rfl]
    have harranged := arranged.settle (fun _ => hnew) issued.le issued.placed
    refine .given takes products harranged (fun u hu l hl hlu => ?_) issued.apart
    rcases harranged.mem_mutables l hl with h | ⟨out, hout, hl⟩
    · exact h u hu hlu
    · exact hnew (issued.bounds out hout l hl).1 u hu hlu

def twoMarkers : Session specimens :=
  let byte : Expr specimens := .type (.diff (.int ⟨.unsigned, .w8⟩))
  let marker : Expr specimens := .new (.type (.diff .present)) []
  let whole : DiffType specimens := .tuple [.vec .present, .present]
  let s := (empty.step ⟨.evaluate, [.new byte [.int 5]], some "n"⟩).1
  (s.step ⟨.evaluate, [.new (.type (.diff whole)) [.list [marker], marker]], some "x"⟩).1

end Session

end DiffAlgebra
