import DiffAlgebra.Proofs.Failure
import DiffAlgebra.Proofs.Sharing.Coherence

/-!
# Copies join the pool

A shallow copy is one new node over the components of the copied object. The nodes of a deep copy
are those of the copied object, built again and moved beyond all labels in use, so that two of them
are one object just if they were before.
-/

namespace DiffAlgebra

variable {C : Catalog}

namespace Object

private theorem shiftAll_eq_map (d : Nat) (xs : List (Object C)) :
    shiftAll d xs = xs.map (shift d) := by
  induction xs with
  | nil => rfl
  | cons x xs ih => simp [shiftAll, ih]

theorem label?_shift (d : Nat) (x : Object C) : (shift d x).label? = x.label?.map (· + d) := by
  cases x <;> rfl

theorem parts_shift (d : Nat) (x : Object C) : (shift d x).parts = x.parts.map (shift d) := by
  cases x <;> simp [shift, parts, shiftAll_eq_map]

theorem mem_nodes_shift {d : Nat} {x y : Object C} (hy : y ∈ (shift d x).nodes) :
    ∃ z ∈ x.nodes, y = shift d z := by
  induction x using parts_induction with
  | step x ih =>
    rcases mem_nodes_iff.mp hy with rfl | ⟨p, hp, hyp⟩
    · exact ⟨x, mem_nodes_self x, rfl⟩
    · rw [parts_shift] at hp
      obtain ⟨q, hq, rfl⟩ := List.mem_map.mp hp
      obtain ⟨z, hz, rfl⟩ := ih q hq hyp
      exact ⟨z, mem_nodes_of_mem_parts hq hz, rfl⟩

theorem composeAs_eq_ok {label : Nat} {t : DiffType C} {xs : List (Object C)} {y : Object C}
    (h : composeAs label t xs = .ok y) : y.label? = some label ∧ y.parts = xs := by
  unfold composeAs at h
  split at h
  · obtain ⟨_, _, h⟩ := bind_eq_ok.mp h
    cases h
    exact ⟨rfl, rfl⟩
  · obtain ⟨_, _, h⟩ := bind_eq_ok.mp h
    cases h
    exact ⟨rfl, rfl⟩
  · cases h

theorem rebuildAll_eq_mapM (xs : List (Object C)) : rebuildAll xs = xs.mapM rebuild := by
  induction xs with
  | nil => rfl
  | cons x xs ih => rw [rebuildAll, List.mapM_cons, ih]; rfl

/-- An object that is built again keeps its label, and its components are built again. -/
theorem rebuild_eq_ok {x y : Object C} (h : rebuild x = .ok y) :
    y.label? = x.label? ∧ x.parts.mapM rebuild = .ok y.parts := by
  cases x with
  | int | present | custom =>
    cases h
    exact ⟨rfl, rfl⟩
  | tuple l ts xs | vec l t xs =>
    obtain ⟨_, _, h⟩ := bind_eq_ok.mp h
    obtain ⟨ys, hys, h⟩ := bind_eq_ok.mp h
    obtain ⟨hlabel, rfl⟩ := composeAs_eq_ok h
    exact ⟨hlabel, rebuildAll_eq_mapM xs ▸ hys⟩

private theorem mem_nodes_rebuild {x y z : Object C} (h : rebuild x = .ok y) (hz : z ∈ y.nodes) :
    ∃ w ∈ x.nodes, rebuild w = .ok z := by
  induction x using parts_induction generalizing y with
  | step x ih =>
    rcases mem_nodes_iff.mp hz with rfl | ⟨q, hq, hzq⟩
    · exact ⟨x, mem_nodes_self x, h⟩
    · obtain ⟨p, hp, hpq⟩ := exists_of_mem_mapM (rebuild_eq_ok h).2 hq
      obtain ⟨w, hw, hwz⟩ := ih p hp hpq hzq
      exact ⟨w, mem_nodes_of_mem_parts hp hw, hwz⟩

/-- A copy of an object of the pool: built again and moved by `d`. -/
def Copied (pool : List (Object C)) (d : Nat) (y : Object C) : Prop :=
  ∃ w ∈ pool, ∃ z, rebuild w = .ok z ∧ y = shift d z

theorem copied_of_mem_nodes {x y z : Object C} {d : Nat} (h : rebuild x = .ok y)
    (hz : z ∈ (shift d y).nodes) : Copied x.nodes d z := by
  obtain ⟨v, hv, rfl⟩ := mem_nodes_shift hz
  obtain ⟨w, hw, hwv⟩ := mem_nodes_rebuild h hv
  exact ⟨w, hw, v, hwv, rfl⟩

/-- The label of a copy is that of what is copied, moved. -/
theorem exists_label_of_copied {w z : Object C} {d l : Nat} (h : rebuild w = .ok z)
    (hl : (shift d z).label? = some l) : ∃ k, w.label? = some k ∧ l = k + d := by
  rw [label?_shift, (rebuild_eq_ok h).1] at hl
  obtain ⟨k, hk, rfl⟩ := Option.map_eq_some_iff.mp hl
  exact ⟨k, hk, rfl⟩

/-- Copies of nodes of a coherent pool join it. -/
theorem joins_copied {pool ys : List (Object C)} {next : Nat} (h : Coherent next pool)
    (hys : ∀ y ∈ ys, Copied pool next y) : Joins pool next ys (next + next) := by
  have hbounds {y : Object C} {l : Nat} (hy : y ∈ ys) (hl : y.label? = some l) :
      next ≤ l ∧ l < next + next := by
    obtain ⟨w, hw, z, hwz, rfl⟩ := hys y hy
    obtain ⟨k, hk, rfl⟩ := exists_label_of_copied hwz hl
    have := h.label_lt hw hk
    omega
  refine ⟨Nat.le_add_left _ _, fun hy => Or.inr fun l hl => (hbounds hy hl).1, ?_, ?_⟩
  · intro y l hy hl
    rcases List.mem_append.mp hy with hy | hy
    · exact (h.label_lt hy hl).trans_le (Nat.le_add_left _ _)
    · exact (hbounds hy hl).2
  · intro y z l hy hz hyl hzl
    rcases List.mem_append.mp hy with hy | hy <;> rcases List.mem_append.mp hz with hz | hz
    · exact h.eq_of_label hy hz hyl hzl
    · exact absurd (h.label_lt hy hyl) (Nat.not_lt.mpr (hbounds hz hzl).1)
    · exact absurd (h.label_lt hz hzl) (Nat.not_lt.mpr (hbounds hy hyl).1)
    · obtain ⟨v, hv, y', hvy, rfl⟩ := hys y hy
      obtain ⟨w, hw, z', hwz, rfl⟩ := hys z hz
      obtain ⟨j, hj, rfl⟩ := exists_label_of_copied hvy hyl
      obtain ⟨k, hk, hjk⟩ := exists_label_of_copied hwz hzl
      obtain rfl : j = k := Nat.add_right_cancel hjk
      obtain rfl : v = w := h.eq_of_label hv hw hj hk
      rw [Except.ok.inj (hvy.symm.trans hwz)]

theorem parts_recompose {x y : Object C} (h : recompose x = .ok y) : y.parts = x.parts := by
  cases x with
  | int | present | custom =>
    cases h
    rfl
  | tuple l ts xs | vec l t xs =>
    obtain ⟨_, _, h⟩ := bind_eq_ok.mp h
    exact (composeAs_eq_ok h).2

/-- A shallow copy joins every coherent pool that holds the copied object. -/
theorem joins_copy {pool : List (Object C)} {x y : Object C} {next last : Nat}
    (h : copy x next = .ok (y, last)) (hsub : x.nodes ⊆ pool) (hpool : Coherent next pool) :
    Joins pool next y.nodes last := by
  obtain ⟨z, hz, h⟩ := bind_eq_ok.mp h
  have hparts : nodesAll z.parts ⊆ pool := by
    rw [parts_recompose hz]
    exact fun w hw => hsub (nodes_eq x ▸ List.mem_cons_of_mem _ hw)
  have hjoin : Joins pool (next + 1) (nodesAll z.parts) (next + 1) :=
    .of_subset (hpool.mono (List.Subset.refl _) (Nat.le_succ _)) hparts (Nat.le_refl _)
  cases z with
  | present =>
    cases h
    exact .present hpool
  | int | custom | tuple | vec =>
    cases h
    exact .cons hpool rfl hjoin

end Object

namespace Datum

open Object (Copied)

theorem duplicateAll_eq_mapM (rule : CopyRule C) (d : Nat) (vs : List (Value C)) :
    duplicateAll rule d vs = vs.mapM (duplicate rule d) := by
  induction vs with
  | nil => rfl
  | cons v vs ih => rw [duplicateAll, List.mapM_cons, ih]; rfl

theorem exists_of_mem_duplicateFields {rule : CopyRule C} {d : Nat}
    {fs gs : List (String × Value C)} (h : duplicateFields rule d fs = .ok gs) {u : Value C}
    (hu : u ∈ gs.map (·.2)) : ∃ v ∈ fs.map (·.2), duplicate rule d v = .ok u := by
  induction fs generalizing gs with
  | nil =>
    cases h
    cases hu
  | cons f fs ih =>
    obtain ⟨v, hv, h⟩ := bind_eq_ok.mp h
    obtain ⟨hs, hhs, h⟩ := bind_eq_ok.mp h
    cases h
    rcases List.mem_cons.mp hu with rfl | hu
    · exact ⟨f.2, List.mem_cons_self, hv⟩
    · obtain ⟨w, hw, hwu⟩ := ih hhs hu
      exact ⟨w, List.mem_cons_of_mem _ hw, hwu⟩

/-- The nodes of a duplicate are copies of nodes of what is duplicated. -/
theorem copied_of_mem_duplicate {rule : CopyRule C} {d : Nat} {v u : Value C} {y : Object C}
    (h : duplicate rule d v = .ok u) (hy : y ∈ u.nodes) : Copied v.nodes d y := by
  induction v using members_induction generalizing u with
  | step v ih =>
    have hmember {w w' : Value C} (hw : w ∈ v.members) (hd : duplicate rule d w = .ok w')
        (hy' : y ∈ w'.nodes) : Copied v.nodes d y := by
      obtain ⟨x, hx, hxy⟩ := ih w hw hd hy'
      exact ⟨x, nodes_subset_of_mem_members hw hx, hxy⟩
    cases v with
    | diff x =>
      obtain ⟨z, hz, h⟩ := bind_eq_ok.mp h
      cases h
      exact Object.copied_of_mem_nodes hz hy
    | list l vs | tuple l vs | config l c p vs =>
      obtain ⟨us, hus, h⟩ := bind_eq_ok.mp h
      cases h
      rw [duplicateAll_eq_mapM] at hus
      obtain ⟨w', hw', hyw⟩ := mem_nodesAll.mp hy
      obtain ⟨w, hw, hd⟩ := exists_of_mem_mapM hus hw'
      exact hmember hw hd hyw
    | record l fs =>
      obtain ⟨gs, hgs, h⟩ := bind_eq_ok.mp h
      cases h
      rw [nodes, nodesFields_eq] at hy
      obtain ⟨w', hw', hyw⟩ := mem_nodesAll.mp hy
      obtain ⟨w, hw, hd⟩ := exists_of_mem_duplicateFields hgs hw'
      exact hmember hw hd hyw
    | type c =>
      simp only [duplicate] at h
      split at h
      · cases h
        cases hy
      · cases h
    | reference l t =>
      obtain ⟨_, _, h⟩ := bind_eq_ok.mp h
      cases h
      cases hy
    | _ =>
      cases h
      cases hy

/-- What is duplicated beyond all labels in use joins the pool. -/
theorem joins_duplicate {pool : List (Object C)} {rule : CopyRule C} {v u : Value C} {next : Nat}
    (h : duplicate rule next v = .ok u) (hsub : v.nodes ⊆ pool) (hpool : Coherent next pool) :
    Joins pool next u.nodes (next + next) := by
  refine Object.joins_copied hpool fun y hy => ?_
  obtain ⟨w, hw, hwy⟩ := copied_of_mem_duplicate h hy
  exact ⟨w, hsub hw, hwy⟩

theorem joins_deepCopy {pool : List (Object C)} {v u : Value C} {next last : Nat}
    (h : deepCopy v next = .ok (u, last)) (hsub : v.nodes ⊆ pool) (hpool : Coherent next pool) :
    Joins pool next u.nodes last := by
  obtain ⟨w, hw, h⟩ := bind_eq_ok.mp h
  cases h
  exact joins_duplicate hw hsub hpool

theorem joins_archive {pool : List (Object C)} {v u : Value C} {next last : Nat}
    (h : archive v next = .ok (u, last)) (hsub : v.nodes ⊆ pool) (hpool : Coherent next pool) :
    Joins pool next u.nodes last := by
  obtain ⟨w, hw, h⟩ := bind_eq_ok.mp h
  cases h
  exact joins_duplicate hw hsub hpool

theorem joins_copy {pool : List (Object C)} {v u : Value C} {next last : Nat}
    (h : copy v next = .ok (u, last)) (hsub : v.nodes ⊆ pool) (hpool : Coherent next pool) :
    Joins pool next u.nodes last := by
  cases v with
  | diff x =>
    obtain ⟨⟨y, n⟩, hy, h⟩ := bind_eq_ok.mp h
    cases h
    exact Object.joins_copy hy hsub hpool
  | reference l t =>
    obtain ⟨_, _, h⟩ := bind_eq_ok.mp h
    cases h
    exact .of_subset hpool (List.nil_subset _) (Nat.le_refl _)
  | _ =>
    cases h
    exact .of_subset hpool hsub (by omega)

end Datum

end DiffAlgebra
