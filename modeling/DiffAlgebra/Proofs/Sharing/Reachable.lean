import DiffAlgebra.Proofs.Sharing.Expressions
import DiffAlgebra.Proofs.Sharing.Operations

/-!
# Reachable sessions are coherent

A session holds the data it has bound and the schemas it has given out. Each command evaluates its
operands, which join the data, and carries out an operation, which keeps them all coherent. So the
data of every session that commands lead to are coherent.
-/

namespace DiffAlgebra

variable {C : Catalog}

open Datum (nodesAll mem_nodesAll)

namespace Session

def data (s : Session C) : List (Value C) := s.bindings.data ++ s.schemas.map (·.2)

def IsCoherent (s : Session C) : Prop := Coherent s.next (nodesAll s.data)

/-- The operands of a command and the outcome of its operation on them, unless evaluating the
operands fails. -/
def attempt (s : Session C) (c : Command C) : Except Fault (List (Value C) × Outcome C) := do
  let (args, next) ← Expr.evalAll s.bindings c.operands s.next
  let (args, next) := Datum.settleAll args next
  .ok (args, (c.call args s.schemas next).settle)

def after (s : Session C) (c : Command C) (out : Outcome C) : Session C :=
  ((s.change out.writes out.next).keep out.schema).bind c.name out.result

theorem step_eq (s : Session C) (c : Command C) :
    s.step c = match s.attempt c with
      | .error f => (s, ⟨.error f, []⟩)
      | .ok (_, out) => (s.after c out, ⟨out.result, out.log⟩) := by
  unfold step attempt
  cases Expr.evalAll s.bindings c.operands s.next with
  | error f => rfl
  | ok p => rfl

theorem step_of_attempt {s : Session C} {c : Command C} {args : List (Value C)} {out : Outcome C}
    (h : s.attempt c = .ok (args, out)) : s.step c = (s.after c out, ⟨out.result, out.log⟩) := by
  rw [step_eq, h]

/-- The sessions that commands lead to. -/
inductive Reachable : Session C → Prop where
  | empty : Reachable empty
  | step {s} (h : Reachable s) (c : Command C) : Reachable (s.step c).1

theorem Reachable.run {s : Session C} (h : s.Reachable) (cs : List (Command C)) :
    ∀ p ∈ s.run cs, p.2.Reachable := by
  induction cs generalizing s with
  | nil => simp [Session.run]
  | cons c cs ih =>
    intro p hp
    rcases List.mem_cons.mp hp with rfl | hp
    · exact h.step c
    · exact ih (h.step c) p hp

private theorem data_change (s : Session C) (ws : List (Write C)) (next : Nat) :
    (s.change ws next).data = s.data.map (Datum.writes ws) := by
  simp [change, data, Bindings.data, Function.comp_def]

private theorem data_keep_subset (s : Session C) (given : Option (DiffType C × Value C)) :
    (s.keep given).data ⊆ s.data ++ (given.map (·.2)).toList := by
  intro v hv
  unfold keep at hv
  split at hv
  next t d =>
    split at hv
    · exact List.mem_append_left _ hv
    · simp only [data, List.map_cons, List.mem_append, List.mem_cons] at hv ⊢
      rcases hv with hv | rfl | hv <;> simp [*]
  · exact List.mem_append_left _ hv

private theorem data_bind_subset (s : Session C) (name : Option String)
    (r : Except Fault (Value C)) :
    (s.bind name r).data ⊆ s.data ++ yields (fun v => [v]) r := by
  intro v hv
  unfold bind at hv
  split at hv
  next n u =>
    rcases List.mem_append.mp hv with hv | hv
    · rcases List.mem_cons.mp (Bindings.data_set_subset _ _ _ hv) with rfl | hv
      · exact List.mem_append_right _ (List.mem_singleton.mpr rfl)
      · exact List.mem_append_left _ (List.mem_append_left _ hv)
    · exact List.mem_append_left _ (List.mem_append_right _ hv)
  · exact List.mem_append_left _ hv

theorem next_keep (s : Session C) (given : Option (DiffType C × Value C)) :
    (s.keep given).next = s.next := by
  unfold keep
  split
  · split <;> rfl
  · rfl

theorem next_bind (s : Session C) (name : Option String) (r : Except Fault (Value C)) :
    (s.bind name r).next = s.next := by
  unfold bind
  split <;> rfl

/-- After a command a session holds its data as they have been changed, and what is handed out. -/
theorem data_after_subset (s : Session C) (c : Command C) (out : Outcome C) :
    (s.after c out).data ⊆ s.data.map (Datum.writes out.writes) ++ out.data := by
  intro v hv
  rcases List.mem_append.mp (data_bind_subset _ _ _ hv) with hv | hv
  · rcases List.mem_append.mp (data_keep_subset _ _ hv) with hv | hv
    · rw [data_change] at hv
      exact List.mem_append_left _ hv
    · exact List.mem_append_right _ (List.mem_append_right _ hv)
  · exact List.mem_append_right _ (List.mem_append_left _ hv)

/-- The data after a command are among those that there were before it, with the operands and as
they have been changed, and those that are handed out. -/
theorem data_after_subset_args (s : Session C) (c : Command C) (out : Outcome C)
    (args : List (Value C)) :
    (s.after c out).data ⊆ (s.data ++ args).map (Datum.writes out.writes) ++ out.data := by
  refine List.Subset.trans (data_after_subset _ _ _) ?_
  rw [List.map_append]
  exact List.append_subset.mpr
    ⟨List.subset_append_of_subset_left _ (List.subset_append_left _ _),
      List.subset_append_right _ _⟩

section Beside

variable {s : Session C} {held args : List (Value C)} {c : Command C} {out : Outcome C}

/-- The operands of a command join the data of a session and what is held beside them. -/
theorem attempt_beside (h : Coherent s.next (nodesAll (s.data ++ held)))
    (hc : s.attempt c = .ok (args, out)) :
    ∃ next, s.next ≤ next ∧ out = (c.call args s.schemas next).settle ∧
      Coherent next (nodesAll (s.data ++ held ++ args)) := by
  obtain ⟨⟨vs, mid⟩, hvs, hc⟩ := bind_eq_ok.mp hc
  cases hc
  have hb : nodesAll s.bindings.data ⊆ nodesAll (s.data ++ held) :=
    Datum.nodesAll_mono (List.subset_append_of_subset_left _ (List.subset_append_left _ _))
  have hjoin := Expr.joins_evalAll c.operands hb h hvs
  have hle := Datum.le_settleAll vs mid
  refine ⟨_, hjoin.le.trans hle, rfl, ?_⟩
  rw [Datum.nodesAll_append, Datum.nodesAll_settleAll]
  exact hjoin.coherent.mono (List.Subset.refl _) hle

/-- A command keeps a pool coherent that holds all there is when it is carried out and no further
objects, together with what it hands out. -/
theorem step_coherent (h : Coherent s.next (nodesAll (s.data ++ held)))
    (hc : s.attempt c = .ok (args, out)) {pool : List (Value C)}
    (hsub : s.data ++ held ++ args ⊆ pool)
    (hnodes : nodesAll pool ⊆ nodesAll (s.data ++ held ++ args)) :
    Coherent (s.step c).1.next (nodesAll (pool.map (Datum.writes out.writes) ++ out.data)) := by
  obtain ⟨next, -, rfl, hbase⟩ := attempt_beside h hc
  have hpool : Coherent next (nodesAll pool) := hbase.mono hnodes (Nat.le_refl _)
  have hargs : nodesAll args ⊆ nodesAll pool :=
    Datum.nodesAll_mono (List.Subset.trans (List.subset_append_right _ _) hsub)
  have hdata : s.data ⊆ pool := List.Subset.trans
    (List.subset_append_of_subset_left _ (List.subset_append_left _ _)) hsub
  have hknown : nodesAll (s.schemas.map (·.2)) ⊆ nodesAll pool :=
    Datum.nodesAll_mono (List.Subset.trans (List.subset_append_right _ _) hdata)
  have hstep : (s.step c).1 = s.after c (c.call args s.schemas next).settle := by
    rw [step_of_attempt hc]
  have hnext : (s.step c).1.next = (c.call args s.schemas next).settle.next := by
    rw [hstep, after, next_bind, next_keep]
    rfl
  rw [hnext]
  exact (c.sound_call hpool hargs hknown).settle.coherent

/-- A command keeps the data of a session coherent with what is held beside them. -/
theorem step_beside (h : Coherent s.next (nodesAll (s.data ++ held)))
    (hc : s.attempt c = .ok (args, out)) :
    Coherent (s.step c).1.next
      (nodesAll ((s.step c).1.data ++ held.map (Datum.writes out.writes))) := by
  have hstep : (s.step c).1 = s.after c out := by rw [step_of_attempt hc]
  refine (step_coherent h hc (List.Subset.refl _) (List.Subset.refl _)).mono
    (Datum.nodesAll_mono ?_) (Nat.le_refl _)
  rw [hstep, List.map_append, List.map_append, List.append_assoc, List.append_assoc]
  refine List.append_subset.mpr ⟨List.Subset.trans (data_after_subset s c out) ?_, ?_⟩
  · refine List.append_subset.mpr ⟨List.subset_append_left _ _, ?_⟩
    exact List.subset_append_of_subset_right _
      (List.subset_append_of_subset_right _ (List.subset_append_right _ _))
  · exact List.subset_append_of_subset_right _ (List.subset_append_left _ _)

end Beside

/-- The operands of a command join the data of a coherent session, and the operation on them is
sound. -/
theorem IsCoherent.attempt {s : Session C} (h : s.IsCoherent) {c : Command C}
    {args : List (Value C)} {out : Outcome C} (hc : s.attempt c = .ok (args, out)) :
    ∃ next, s.next ≤ next ∧ out = (c.call args s.schemas next).settle ∧
      Coherent next (nodesAll (s.data ++ args)) := by
  have hheld : Coherent s.next (nodesAll (s.data ++ [])) := by rwa [List.append_nil]
  simpa using attempt_beside hheld hc

theorem IsCoherent.step {s : Session C} (h : s.IsCoherent) (c : Command C) :
    (s.step c).1.IsCoherent := by
  cases hc : s.attempt c with
  | error f =>
    rw [step_eq, hc]
    exact h
  | ok p =>
    have hheld : Coherent s.next (nodesAll (s.data ++ [])) := by rwa [List.append_nil]
    simpa [IsCoherent] using step_beside hheld hc

/-- The data of every reachable session are coherent. -/
theorem Reachable.isCoherent {s : Session C} (h : s.Reachable) : s.IsCoherent := by
  induction h with
  | empty => exact Coherent.nil
  | step _ c ih => exact ih.step c

end Session

end DiffAlgebra
