import DiffAlgebra.Proofs.Contract.Forms
import DiffAlgebra.Proofs.Sharing.InPlace

/-!
# Loading what has been written

The JSON form of a value is one of the forms of its type, and it remains one when its arrays are
placed among other data. So it is valid, and what is loaded from it is the value again, as a new
object.
-/

namespace DiffAlgebra

variable {C : Catalog}

namespace Diff

theorem forall₂_hasForm_settleAll {xs : List (Diff C)} {ds : List (Value C)}
    (h : List.Forall₂ (fun x d => ∀ next, x.HasForm (Datum.settle d next).1) xs ds) (next : Nat) :
    List.Forall₂ HasForm xs (Datum.settleAll ds next).1 := by
  induction h generalizing next with
  | nil => exact .nil
  | cons hx _ ih => exact .cons (hx _) (ih _)

theorem HasForm.settle {x : Diff C} {d : Value C} (h : x.HasForm d) (next : Nat) :
    x.HasForm (d.settle next).1 := by
  induction h generalizing next with
  | int value =>
    cases value with
    | int => exact .int (.int _)
    | real value => exact .int (.real value)
  | present => exact .present
  | tuple length_eq _ ih =>
    refine hasForm_tuple_iff.mpr ⟨_, _, rfl, forall₂_hasForm_settleAll ?_ _⟩
    exact forall₂_of_forall_mem_zip length_eq ih
  | vec length_eq _ ih =>
    refine hasForm_vec_iff.mpr ⟨_, _, rfl, forall₂_hasForm_settleAll ?_ _⟩
    exact forall₂_of_forall_mem_zip length_eq ih

end Diff

/-- A new object has none of the labels that have been handed out. -/
theorem Object.not_mem_labels_ofDiff (x : Diff C) {next n : Nat} (hn : n < next) :
    n ∉ (ofDiff x next).1.labels := by
  intro hmem
  have hle := ((ownLabels_ofDiff x next).mem n hmem).1
  omega

namespace Session

/-- The JSON form that a command gives for a value is valid for the type of the value, and loading
it gives an object of the type with the same value that shares no label with the old one. -/
theorem Reachable.load_toForm {s : Session C} (hs : s.Reachable) {t : DiffType C}
    (ht : t.Concrete) {c : Command C} (hc : c.operation = .toForm) {o : Object C} {out : Outcome C}
    (hout : s.attempt c = .ok ([.diff o], out)) (ho : Diff.Exact t o.value) :
    ∃ d, out.result = .ok d ∧ ∀ {l}, layoutType l = .ok t → ∀ known {next}, out.next ≤ next →
      (Operation.accepts.call [l, d] known next).result = .ok (.bool true) ∧
      ∃ p, (Operation.load.call [l, d] known next).result = .ok (.diff p) ∧
        p.typeOf = t ∧ p.value = o.value ∧ ∀ n ∈ o.labels, n ∉ p.labels := by
  obtain ⟨start, -, rfl, hpool⟩ := hs.isCoherent.attempt hout
  have hshape := ho.shaped_holds ht
  obtain ⟨d, hd, hform⟩ := hshape.exists_toForm (δ := Object C)
  have hcall : c.call [.diff o] s.schemas start = .shown start (.ok d) := by
    rw [Command.call_of_ne_same hc (by decide)]
    exact congrArg (Outcome.shown start) hd
  rw [hcall]
  refine ⟨_, Outcome.result_settle_of_ok rfl, fun {l} hl known next hnext => ?_⟩
  obtain ⟨haccepts, hload⟩ := ht.load_eq hshape (hform.settle start)
  have hstart : start ≤ next := (Datum.le_settle d start).trans hnext
  rw [result_accepts hl, result_load hl]
  refine ⟨?_, (Object.ofDiff o.value next).1, ?_, ?_, ?_, fun n hn => ?_⟩
  · rw [Outcome.shown, haccepts]
    rfl
  · rw [Outcome.shown, hload]
    rfl
  · rw [Object.typeOf, Object.value_ofDiff, hshape.typeOf_eq]
  · exact Object.value_ofDiff ..
  · have hnodes : (Datum.diff o).nodes ⊆ Datum.nodesAll (s.data ++ [.diff o]) :=
      Datum.nodes_subset_nodesAll (by simp)
    exact Object.not_mem_labels_ofDiff _ ((hpool.lt_of_mem_labels hnodes hn).trans_le hstart)

/-- A pair whose components are one object is written, and what is loaded has two of them. -/
theorem load_toForm_sharedPair :
    let k : IntKind := ⟨.unsigned, .w8⟩
    let t : DiffType specimens := .tuple [.int k, .int k]
    let o : Object specimens := .tuple 2 (some [.int k, .int k]) [.int 1 k 255, .int 1 k 255]
    ∃ out d, (sharedPair 255).attempt ⟨.toForm, [.var "pair"], none⟩ = .ok ([.diff o], out) ∧
      out.result = .ok d ∧
      (Operation.accepts.call [.type (.diff t), d] [] out.next).result = .ok (.bool true) ∧
      ∃ p, (Operation.load.call [.type (.diff t), d] [] out.next).result = .ok (.diff p) ∧
        p.value = o.value ∧ ∀ n ∈ o.labels, n ∉ p.labels := by
  intro k t o
  let c : Command specimens := ⟨.toForm, [.var "pair"], none⟩
  have ht : t.Concrete := .pair (.int k) (.int k)
  have ho : Diff.Exact t o.value := .pair (.int (by decide)) (.int (by decide))
  obtain ⟨d, hd, hread⟩ := (reachable_sharedPair 255).load_toForm ht (c := c) rfl rfl ho
  obtain ⟨haccepts, p, hp, -, hvalue, hlabels⟩ :=
    hread (l := .type (.diff t)) rfl [] (Nat.le_refl _)
  exact ⟨_, d, rfl, hd, haccepts, p, hp, hvalue, hlabels⟩

end Session

end DiffAlgebra
