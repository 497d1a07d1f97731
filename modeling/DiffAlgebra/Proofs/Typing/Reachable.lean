import DiffAlgebra.Proofs.Sharing.Reachable
import DiffAlgebra.Proofs.Typing.Operations

/-!
# Reachable objects are well typed

Expressions build objects that fit their types, and so do all operations. By induction on the
commands of a run every object that a session ever holds or gives out fits its type, whatever fails
on the way.
-/

namespace DiffAlgebra

variable {C : Catalog}

open Datum (nodesAll mem_nodesAll)

private theorem Class.allFit_call {c : Class C} {args : List (Value C)} {next last : Nat}
    {v : Value C}
    (hargs : AllFit (nodesAll args)) (h : c.call args next = .ok (v, last)) : AllFit v.nodes := by
  cases c with
  | diff t =>
    obtain ⟨d, hd, h⟩ := bind_eq_ok.mp h
    cases h
    refine Object.wellTyped_iff.mp ?_
    rw [Object.value_ofDraft]
    refine (Draft.instanceOf_construct (fun u hu => ?_) hd).wellTyped
    exact Datum.wellTyped_of_allFit (hargs.mono (Datum.nodes_subset_nodesAll hu))
  | isZero | multiply => cases h
  | plain p =>
    obtain ⟨u, hu, h⟩ := bind_eq_ok.mp h
    cases h
    exact hargs.mono (nodes_convert hu)

namespace Expr

mutual

/-- What an expression is evaluated to fits its type, as long as the bound data do. -/
theorem allFit_eval {b : Bindings C} (hb : AllFit (nodesAll b.data)) : (e : Expr C) →
    {next last : Nat} → {v : Value C} → eval b e next = .ok (v, last) → AllFit v.nodes
  | invalid _, _, _, _, h => nomatch h
  | null, _, _, _, h | bool _, _, _, _, h | int _, _, _, _, h | real _, _, _, _, h
  | text _, _, _, _, h | bytes _, _, _, _, h | type _, _, _, _, h => by
    cases h
    exact fun _ hy => nomatch hy
  | list es, _, _, _, h | tuple es, _, _, _, h => by
    obtain ⟨⟨xs, _⟩, hxs, h⟩ := bind_eq_ok.mp h
    cases h
    exact allFit_evalAll hb es hxs
  | record fs, _, _, _, h => by
    obtain ⟨⟨gs, _⟩, hgs, h⟩ := bind_eq_ok.mp h
    cases h
    rw [Datum.nodes, Datum.nodesFields_eq]
    exact (allFit_evalFields hb fs hgs).mono (Datum.nodesAll_mono (Datum.dedupeFields_subset gs))
  | tupleType es, _, _, _, h => by
    obtain ⟨⟨xs, _⟩, hxs, h⟩ := bind_eq_ok.mp h
    obtain ⟨t, ht, h⟩ := bind_eq_ok.mp h
    cases h
    rw [Session.nodes_tupleType ht]
    exact fun _ hy => nomatch hy
  | vecType e, _, _, _, h => by
    obtain ⟨⟨x, _⟩, hx, h⟩ := bind_eq_ok.mp h
    obtain ⟨t, ht, h⟩ := bind_eq_ok.mp h
    cases h
    rw [Session.nodes_vecType ht]
    exact fun _ hy => nomatch hy
  | new e es, _, _, _, h => by
    obtain ⟨⟨c, _⟩, -, h⟩ := bind_eq_ok.mp h
    obtain ⟨⟨args, _⟩, hargs, h⟩ := bind_eq_ok.mp h
    dsimp only at h
    split at h
    · exact Class.allFit_call (allFit_evalAll hb es hargs) h
    · cases h
  | var name, _, _, _, h => by
    simp only [eval] at h
    split at h
    next hv =>
      cases h
      exact hb.mono (Datum.nodes_subset_nodesAll (Bindings.get?_mem hv))
    · cases h
  | item e i, _, _, _, h => by
    obtain ⟨⟨x, _⟩, hx, h⟩ := bind_eq_ok.mp h
    obtain ⟨⟨p, _⟩, -, h⟩ := bind_eq_ok.mp h
    obtain ⟨v, hv, h⟩ := bind_eq_ok.mp h
    cases h
    exact (allFit_eval hb e hx).mono (Datum.nodes_item hv)
  | config fs, _, _, _, h => by
    obtain ⟨⟨gs, _⟩, hgs, h⟩ := bind_eq_ok.mp h
    obtain ⟨c, hc, h⟩ := bind_eq_ok.mp h
    cases h
    exact (allFit_evalFields hb fs hgs).mono (List.Subset.trans
      (LawConfig.nodesAll_multiplicands_ofFields hc)
      (Datum.nodesAll_mono (Datum.dedupeFields_subset gs)))

theorem allFit_evalAll {b : Bindings C} (hb : AllFit (nodesAll b.data)) : (es : List (Expr C)) →
    {next last : Nat} → {vs : List (Value C)} → evalAll b es next = .ok (vs, last) →
    AllFit (nodesAll vs)
  | [], _, _, _, h => by
    cases h
    exact fun _ hy => nomatch hy
  | e :: es, _, _, _, h => by
    obtain ⟨⟨x, _⟩, hx, h⟩ := bind_eq_ok.mp h
    obtain ⟨⟨xs, _⟩, hxs, h⟩ := bind_eq_ok.mp h
    cases h
    exact (allFit_eval hb e hx).append (allFit_evalAll hb es hxs)

theorem allFit_evalFields {b : Bindings C} (hb : AllFit (nodesAll b.data)) :
    (fs : List (String × Expr C)) → {next last : Nat} → {gs : List (String × Value C)} →
    evalFields b fs next = .ok (gs, last) → AllFit (nodesAll (gs.map (·.2)))
  | [], _, _, _, h => by
    cases h
    exact fun _ hy => nomatch hy
  | (_, e) :: fs, _, _, _, h => by
    obtain ⟨⟨x, _⟩, hx, h⟩ := bind_eq_ok.mp h
    obtain ⟨⟨gs, _⟩, hgs, h⟩ := bind_eq_ok.mp h
    cases h
    exact (allFit_eval hb e hx).append (allFit_evalFields hb fs hgs)

end

end Expr

namespace Session

def IsWellTyped (s : Session C) : Prop := AllFit (nodesAll s.data)

theorem IsWellTyped.allFit_args {s : Session C} (h : s.IsWellTyped) {c : Command C}
    {args : List (Value C)} {out : Outcome C} (hc : s.attempt c = .ok (args, out)) :
    AllFit (nodesAll args) := by
  obtain ⟨⟨vs, mid⟩, hvs, hc⟩ := bind_eq_ok.mp hc
  have hb : AllFit (nodesAll s.bindings.data) :=
    AllFit.mono h (Datum.nodesAll_mono (List.subset_append_left _ _))
  obtain ⟨rfl, -⟩ := Prod.mk.inj (Except.ok.inj hc)
  rw [Datum.nodesAll_settleAll]
  exact Expr.allFit_evalAll hb c.operands hvs

theorem IsWellTyped.wellTyped_arg {s : Session C} (h : s.IsWellTyped) {c : Command C}
    {args : List (Value C)} {out : Outcome C} (hc : s.attempt c = .ok (args, out)) {x : Object C}
    (hx : .diff x ∈ args) : x.value.wellTyped = true :=
  Object.wellTyped_iff.mpr ((h.allFit_args hc).mono (Datum.nodes_subset_nodesAll hx))

/-- Carrying out a command leaves objects that fit their types, those of the session and of the
operands, and hands out such objects. -/
theorem IsWellTyped.attempt {s : Session C} (h : s.IsWellTyped) (hs : s.IsCoherent) {c : Command C}
    {args : List (Value C)} {out : Outcome C} (hc : s.attempt c = .ok (args, out)) :
    Outcome.LeavesFit (s.data ++ args) out := by
  have hargs := h.allFit_args hc
  obtain ⟨next, -, rfl, hpool⟩ := hs.attempt hc
  have hfits : AllFit (nodesAll (s.data ++ args)) := by
    rw [Datum.nodesAll_append]
    exact AllFit.append h hargs
  have hknown : s.schemas.map (·.2) ⊆ s.data ++ args :=
    List.subset_append_of_subset_left _ (List.subset_append_right _ _)
  exact ((c.effect_call hpool (Datum.nodesAll_mono (List.subset_append_right _ _))
    (Datum.nodesAll_mono hknown)).leavesFit hpool hfits).settle

theorem IsWellTyped.step {s : Session C} (h : s.IsWellTyped) (hs : s.IsCoherent) (c : Command C) :
    AllFit (nodesAll ((s.step c).1.data ++ yields (fun v => [v]) (s.step c).2.result)) := by
  rw [step_eq]
  split
  · simpa [yields, IsWellTyped] using h
  next args out hc =>
    refine (h.attempt hs hc).mono (Datum.nodesAll_mono (List.append_subset.mpr ⟨?_, ?_⟩))
    · exact data_after_subset_args s c out args
    · exact List.subset_append_of_subset_right _ (List.subset_append_left _ _)

theorem Reachable.isWellTyped {s : Session C} (h : s.Reachable) : s.IsWellTyped := by
  induction h with
  | empty => exact fun _ hy => nomatch hy
  | step hs c ih =>
    refine (ih.step hs.isCoherent c).mono ?_
    rw [Datum.nodesAll_append]
    exact List.subset_append_left _ _

/-- Whatever is done from a reachable session on, the objects of each session on the way, and those
that are given out, fit their types. -/
theorem Reachable.allFit_run {s : Session C} (h : s.Reachable) (cs : List (Command C)) :
    ∀ p ∈ s.run cs, AllFit (nodesAll (p.2.data ++ yields (fun v => [v]) p.1.result)) := by
  induction cs generalizing s with
  | nil => simp [Session.run]
  | cons c cs ih =>
    intro p hp
    rcases List.mem_cons.mp hp with rfl | hp
    · exact h.isWellTyped.step h.isCoherent c
    · exact ih (h.step c) p hp

/-- The representation invariant. In every session that commands lead to, whether they succeed or
fail, and in everything they give out: an integer lies in the range of its kind; a tuple has exactly
one component for each of its component types, of that type; and the elements of a sequence are of
its element type. A tuple at large declares no components, so it has none, and a sequence at large
declares no element type. -/
theorem run_representation (cs : List (Command C)) :
    ∀ p ∈ (empty : Session C).run cs,
      ∀ y ∈ nodesAll (p.2.data ++ yields (fun v => [v]) p.1.result),
        (∀ l k n, y = .int l k n → k.min ≤ n ∧ n ≤ k.max) ∧
        (∀ l ts xs, y = .tuple l ts xs →
          List.Forall₂ (fun t x => x.value.isA t = true) (ts.getD []) xs) ∧
        (∀ l t xs, y = .vec l (some t) xs → ∀ x ∈ xs, x.value.isA t = true) := by
  intro p hp y hy
  have hfits := Reachable.empty.allFit_run cs p hp y hy
  refine ⟨?_, ?_, ?_⟩
  · rintro l k n rfl
    exact hfits
  · rintro l ts xs rfl
    rw [Object.fits_tuple, List.forall₂_map_right_iff] at hfits
    exact hfits
  · rintro l t xs rfl
    rw [Object.fits_vec] at hfits
    exact List.forall_mem_map.mp (hfits t rfl)

/-- A tuple is added to itself, which goes beyond the range of its component: it still holds a byte.
-/
theorem run_representation_overflow :
    let byte : Expr specimens := .type (.diff (.int ⟨.unsigned, .w8⟩))
    let cs : List (Command specimens) :=
      [⟨.evaluate, [.new (.tupleType [byte]) [.int 200]], some "one"⟩,
        ⟨.plusEquals, [.var "one", .var "one"], none⟩]
    ∃ p ∈ empty.run cs, (∃ f, p.1.result = .error f) ∧
      ∃ l ts x, .tuple l ts [x] ∈ nodesAll p.2.data ∧
        List.Forall₂ (fun t x => x.value.isA t = true) (ts.getD []) [x] ∧
        ∃ m k n, x = .int m k n ∧ k.min ≤ n ∧ n ≤ k.max := by
  intro byte cs
  let s := (empty.step ⟨.evaluate, [.new (.tupleType [byte]) [.int 200]], some "one"⟩).1
  let r := s.step ⟨.plusEquals, [.var "one", .var "one"], none⟩
  have hp : (r.2, r.1) ∈ empty.run cs := List.mem_cons_of_mem _ List.mem_cons_self
  let x : Object specimens := .int 2 ⟨.unsigned, .w8⟩ 200
  have hnodes : nodesAll r.1.data = [.tuple 1 (some [.int ⟨.unsigned, .w8⟩]) [x], x] := rfl
  have hrun := run_representation cs _ hp
  rw [Datum.nodesAll_append, hnodes] at hrun
  rw [List.forall_mem_append, List.forall_mem_cons, List.forall_mem_cons] at hrun
  refine ⟨_, hp, ⟨_, rfl⟩, 1, _, x, ?_, hrun.1.1.2.1 _ _ _ rfl, _, _, _, rfl,
    hrun.1.2.1.1 _ _ _ rfl⟩
  rw [hnodes]
  exact List.mem_cons_self

end Session

end DiffAlgebra
