import DiffAlgebra.Proofs.Laws.Passing
import DiffAlgebra.Proofs.Sharing.Rebuilding

/-!
# Multiplication of built-in objects is pure

Only custom objects change their operands when they are multiplied. An object over integers and
presence markers leaves everything as it is, and it is equal to its deep copy, as is every datum
that is built from such objects and plain data by lists and tuples. So the check that multiplication
changes nothing finds nothing on them.
-/

namespace DiffAlgebra

variable {C : Catalog}

/-- Objects over integers and presence markers, all the way down. -/
inductive Object.BuiltIn : Object C → Prop where
  | int (l : Nat) (k : IntKind) (n : Int) : BuiltIn (.int l k n)
  | present : BuiltIn .present
  | tuple {l : Nat} {ts : List (DiffType C)} {xs : List (Object C)}
      (type : (DiffType.tuple ts).Concrete) (components : ∀ x ∈ xs, BuiltIn x) :
      BuiltIn (.tuple l (some ts) xs)
  | vec {l : Nat} {t : DiffType C} {xs : List (Object C)} (type : (DiffType.vec t).Concrete)
      (elements : ∀ x ∈ xs, BuiltIn x) : BuiltIn (.vec l (some t) xs)

theorem Diff.InstanceOf.builtIn {t : DiffType C} (ht : t.Concrete) {x : Object C}
    (h : InstanceOf t x.value) : x.BuiltIn := by
  induction ht generalizing x with
  | int k =>
    obtain ⟨l, n, hx, -⟩ := h.eq_int
    cases x <;> cases hx
    exact .int _ _ _
  | present =>
    have hx := h.eq_present
    cases x <;> cases hx
    exact .present
  | tuple arity components ih =>
    obtain ⟨ds, hx, hds⟩ := h.eq_tuple
    cases x <;> cases hx
    refine .tuple (.tuple arity components) fun x hx => ?_
    rw [Object.valueAll_eq_map] at hds
    obtain ⟨t, ht, hxt⟩ := exists_mem_of_forall₂ hds (List.mem_map_of_mem hx)
    exact ih t ht hxt
  | vec element ih =>
    obtain ⟨ds, hx, hds⟩ := h.eq_vec
    cases x <;> cases hx
    refine .vec (.vec element) fun x hx => ih (hds _ ?_)
    rw [Object.valueAll_eq_map]
    exact List.mem_map_of_mem hx

/-- A step of a multiplication that changes nothing. -/
def Quiet {α : Type} (m : MultiplyM C α) : Prop := ∀ s, (m.run s).2.writes = s.writes

namespace Quiet

variable {α β : Type}

theorem pure (a : α) : Quiet (pure a : MultiplyM C α) := fun _ => rfl

theorem throw (f : Fault) : Quiet (throw f : MultiplyM C α) := fun _ => rfl

theorem get : Quiet (get : MultiplyM C (MultiplyState C)) := fun _ => rfl

theorem bind {m : MultiplyM C β} {f : β → MultiplyM C α} (hm : Quiet m) (hf : ∀ b, Quiet (f b)) :
    Quiet (m >>= f) := by
  intro s
  have hms := hm s
  rw [run_bind]
  rcases hrun : m.run s with ⟨_ | b, t⟩
  · rw [hrun] at hms
    exact hms
  · rw [hrun] at hms
    exact (hf b t).trans hms

theorem get_bind {f : MultiplyState C → MultiplyM C α}
    (h : ∀ s, ((f s).run s).2.writes = s.writes) : Quiet (MonadState.get >>= f) :=
  h

end Quiet

namespace Object

/-- The product of an integer depends on the value of the operand only. -/
theorem productInt_eq (k : IntKind) (m : Int) (v : Value C) :
    productInt k m v = Diff.coerce (.int k) v.values >>= fun d =>
      match d with
      | .int _ n => k.mul m n
      | _ => .error .missingMember := by
  rw [Diff.coerce, Draft.coerce_values]
  unfold productInt
  cases Draft.coerce (.int k) v <;> rfl

private theorem quiet_multiplyInt (k : IntKind) (m : Int) :
    Quiet (multiplyInt k m : MultiplyM C (Value C)) := by
  refine .get_bind fun s => ?_
  cases productInt k m s.operand <;> rfl

private theorem quiet_multiplyPresent : Quiet (multiplyPresent : MultiplyM C (Value C)) := by
  refine .get_bind fun s => ?_
  cases s.operand.deepCopy s.next <;> rfl

private theorem quiet_multiplyAll {xs : List (Object C)} (h : ∀ x ∈ xs, Quiet (multiplyOperand x)) :
    Quiet (multiplyAll xs) := by
  induction xs with
  | nil => exact .pure []
  | cons x xs ih =>
    obtain ⟨hx, hxs⟩ := List.forall_mem_cons.mp h
    exact hx.bind fun _ => .bind .get fun _ => (ih hxs).bind fun _ => .bind .get fun _ => .pure _

namespace BuiltIn

variable {x : Object C}

private theorem quiet_multiplyOperand (h : x.BuiltIn) : Quiet (multiplyOperand x) := by
  induction h with
  | int l k n => exact quiet_multiplyInt k n
  | present => exact quiet_multiplyPresent
  | tuple _ _ ih | vec _ _ ih =>
    rw [multiplyOperand]
    split
    · exact (quiet_multiplyAll ih).bind fun _ => .pure _
    · exact .throw _

/-- Multiplying a built-in object changes nothing, whatever the operand, and also if it fails. -/
theorem writes_multiply (h : x.BuiltIn) (v : Value C) (next : Nat) :
    (x.multiply v next).2.writes = [] :=
  h.quiet_multiplyOperand _

end BuiltIn

end Object

namespace Datum

/-- Data built by lists and tuples from plain data and from differences over integers and presence
markers. -/
inductive Ordinary : Value C → Prop where
  | null : Ordinary .null
  | bool (b : Bool) : Ordinary (.bool b)
  | int (n : Int) : Ordinary (.int n)
  | text (s : String) : Ordinary (.text s)
  | bytes (bs : List UInt8) : Ordinary (.bytes bs)
  | list {l : Nat} {xs : List (Value C)} (items : ∀ x ∈ xs, Ordinary x) : Ordinary (.list l xs)
  | tuple {l : Nat} {xs : List (Value C)} (items : ∀ x ∈ xs, Ordinary x) : Ordinary (.tuple l xs)
  | diff {x : Object C} (type : x.typeOf.Concrete) : Ordinary (.diff x)

/-- Ordinary data are equal to their copies. -/
theorem Ordinary.same_duplicate {rule : CopyRule C} {d : Nat} {v u : Value C} (h : v.Ordinary)
    (hv : v.WellTyped) (hu : v.duplicate rule d = .ok u) : v.values.same u.values = true := by
  have hall {xs us : List (Value C)}
      (ih : ∀ x ∈ xs, ∀ {u : Value C}, x.WellTyped → x.duplicate rule d = .ok u →
        x.values.same u.values = true)
      (hxs : ∀ x ∈ xs, x.WellTyped) (hus : duplicateAll rule d xs = .ok us) :
      sameAll (mapAll DiffView.value xs) (mapAll DiffView.value us) = true := by
    rw [duplicateAll_eq_mapM, mapM_eq_ok] at hus
    have hboth := (List.forall₂_and_left xs us).mpr ⟨fun x hx => And.intro hx (hxs x hx), hus⟩
    exact sameAll_values_iff.mpr (hboth.imp fun x u hxu => ih x hxu.1.1 hxu.1.2 hxu.2)
  induction h generalizing u with
  | null | text | bytes =>
    cases hu
    simp [values, map, same]
  | bool | int =>
    cases hu
    simp [values, map, same, number?, Number.same]
  | list _ ih =>
    obtain ⟨us, hus, hu⟩ := bind_eq_ok.mp hu
    cases hu
    exact hall ih (fun x hx => wellTyped_of_mem hv (List.Subset.refl _) hx) hus
  | tuple _ ih =>
    obtain ⟨us, hus, hu⟩ := bind_eq_ok.mp hu
    cases hu
    exact hall ih (fun x hx => wellTyped_of_mem hv (List.Subset.refl _) hx) hus
  | diff type =>
    obtain ⟨y, hy, hu⟩ := bind_eq_ok.mp hu
    cases hu
    have hproper : Object.Proper _ := ⟨wellTyped_diff.mp hv, type.over.composed⟩
    obtain rfl := Except.ok.inj (hproper.rebuild_eq.symm.trans hy)
    simp [values, map, same, DiffView.value]

end Datum

namespace Law

/-- The check that multiplication changes nothing finds nothing on a built-in object and an ordinary
operand. -/
theorem findsNothing_checkMultiplyPurity {x : Object C} {v : Value C} (hx : x.typeOf.Concrete)
    (hxw : x.value.wellTyped = true) (hv : v.Ordinary) (hvw : v.WellTyped) (next : Nat) :
    FindsNothing (checkMultiplyPurity (.diff x) v next).result := by
  have hcopy {u w : Value C} {m n : Nat} (hu : u.Ordinary) (huw : u.WellTyped)
      (h : u.deepCopy m = .ok (w, n)) : u.values.same w.values = true := by
    obtain ⟨w, hw, h⟩ := bind_eq_ok.mp h
    cases h
    exact hu.same_duplicate huw hw
  unfold checkMultiplyPurity
  split
  · exact fun _ h => nomatch h
  next before mid hbefore =>
    have hbefore := hcopy (.diff hx) (Datum.wellTyped_diff.mpr hxw) hbefore
    split
    · exact fun _ h => nomatch h
    next operandBefore last hoperand =>
      have hoperand := hcopy hv hvw hoperand
      have hwrites := ((Diff.InstanceOf.self hxw).builtIn hx).writes_multiply v last
      rcases hproduct : x.multiply v last with ⟨product, s⟩
      rw [hproduct] at hwrites
      intro found h
      dsimp only [Datum.receiver] at h
      rw [hproduct] at h
      obtain ⟨_, -, h⟩ := bind_eq_ok.mp h
      -- nothing is written, so both operands are still compared as they were copied
      have hid (u : Value C) : u.writes s.writes = u := by
        rw [hwrites]
        rfl
      simp only [hid, hbefore, hoperand] at h
      cases h
      rfl

end Law

end DiffAlgebra
