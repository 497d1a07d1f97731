import DiffAlgebra.Object.Copy
import DiffAlgebra.Proofs.Sharing.Data
import Mathlib.Data.Nat.Basic
import Mathlib.Order.Basic

/-!
# Coherent pools

A pool of labelled nodes stands for a graph of objects if nodes with one label are one object and
no label is in use that has not been handed out. New objects and copies join a coherent pool, and
changes in place keep it coherent.
-/

namespace DiffAlgebra

variable {C : Catalog}

/-- Nodes with one label are one object, and all labels lie below the next one. -/
structure Coherent (next : Nat) (ys : List (Object C)) : Prop where
  label_lt : ∀ {y l}, y ∈ ys → y.label? = some l → l < next
  eq_of_label : ∀ {y z l}, y ∈ ys → z ∈ ys → y.label? = some l → z.label? = some l → y = z

namespace Coherent

variable {next next' : Nat} {ys zs : List (Object C)}

theorem nil : Coherent next ([] : List (Object C)) :=
  ⟨by simp, by simp⟩

theorem mono (h : Coherent next ys) (hsub : zs ⊆ ys) (hle : next ≤ next') : Coherent next' zs :=
  ⟨fun hy hl => lt_of_lt_of_le (h.label_lt (hsub hy) hl) hle,
    fun hy hz => h.eq_of_label (hsub hy) (hsub hz)⟩

theorem cons {x : Object C} (h : Coherent next ys)
    (hx : ∀ l, x.label? = some l → l < next ∧ ∀ y ∈ ys, y.label? = some l → y = x) :
    Coherent next (x :: ys) where
  label_lt hy hl := by
    rcases List.mem_cons.mp hy with rfl | hy
    · exact (hx _ hl).1
    · exact h.label_lt hy hl
  eq_of_label hy hz hyl hzl := by
    rcases List.mem_cons.mp hy with rfl | hys
    · rcases List.mem_cons.mp hz with rfl | hzs
      · rfl
      · exact ((hx _ hyl).2 _ hzs hzl).symm
    · rcases List.mem_cons.mp hz with rfl | hzs
      · exact (hx _ hzl).2 _ hys hyl
      · exact h.eq_of_label hys hzs hyl hzl

theorem of_append_right {vs ws : List (Value C)} (h : Coherent next (Datum.nodesAll (vs ++ ws))) :
    Coherent next (Datum.nodesAll ws) :=
  h.mono (Datum.nodesAll_mono (List.subset_append_right _ _)) (Nat.le_refl _)

theorem lt_of_mem_labels (h : Coherent next ys) {x : Object C} (hx : x.nodes ⊆ ys) {l : Nat}
    (hl : l ∈ x.labels) : l < next := by
  obtain ⟨y, hy, hyl⟩ := Object.mem_labels_iff.mp hl
  exact h.label_lt (hx hy) hyl

end Coherent

/-- The nodes `new` join a pool: each of them is in the pool already or has a label from `next` on,
and with them the pool is coherent, all labels now lying below `next'`. -/
structure Joins (pool : List (Object C)) (next : Nat) (new : List (Object C)) (next' : Nat) :
    Prop where
  le : next ≤ next'
  old_or_fresh : ∀ {y}, y ∈ new → y ∈ pool ∨ ∀ l, y.label? = some l → next ≤ l
  coherent : Coherent next' (pool ++ new)

namespace Joins

variable {pool ys zs : List (Object C)} {next mid last : Nat}

theorem of_subset (h : Coherent next pool) (hsub : ys ⊆ pool) (hle : next ≤ last) :
    Joins pool next ys last :=
  ⟨hle, fun hy => Or.inl (hsub hy), h.mono (List.append_subset.mpr ⟨List.Subset.refl _, hsub⟩) hle⟩

theorem trans (h : Joins pool next ys mid) (h' : Joins (pool ++ ys) mid zs last) :
    Joins pool next (ys ++ zs) last where
  le := h.le.trans h'.le
  old_or_fresh := by
    intro y hy
    rcases List.mem_append.mp hy with hy | hy
    · exact h.old_or_fresh hy
    · rcases h'.old_or_fresh hy with hold | hfresh
      · rcases List.mem_append.mp hold with hpool | hys
        · exact Or.inl hpool
        · exact h.old_or_fresh hys
      · exact Or.inr fun l hl => h.le.trans (hfresh l hl)
  coherent := by
    rw [← List.append_assoc]
    exact h'.coherent

/-- A pool may be made smaller as long as it keeps what the new nodes take from it. -/
theorem mono (h : Joins pool next ys last) (hsub : zs ⊆ ys) : Joins pool next zs last :=
  ⟨h.le, fun hy => h.old_or_fresh (hsub hy),
    h.coherent.mono (List.append_subset.mpr ⟨List.subset_append_left _ _,
      List.Subset.trans hsub (List.subset_append_right _ _)⟩) (Nat.le_refl _)⟩

/-- What joins after some nodes have joined does so without them as well. -/
theorem after (h : Joins pool next ys mid)
    (h' : Coherent mid (pool ++ ys) → Joins (pool ++ ys) mid zs last) : Joins pool next zs last :=
  (h.trans (h' h.coherent)).mono (List.subset_append_right _ _)

theorem cons {x : Object C} (hpool : Coherent next pool) (hl : x.label? = some next)
    (h : Joins pool (next + 1) ys last) : Joins pool next (x :: ys) last where
  le := (Nat.le_succ next).trans h.le
  old_or_fresh := by
    intro y hy
    rcases List.mem_cons.mp hy with rfl | hy
    · exact Or.inr fun l hl' => by simp_all
    · exact (h.old_or_fresh hy).imp_right fun hfresh l hl' =>
        (Nat.le_succ next).trans (hfresh l hl')
  coherent := by
    have hunused (y : Object C) (hy : y ∈ pool ++ ys) (hyl : y.label? = some next) : y = x := by
      have hold (hmem : y ∈ pool) : y = x := absurd (hpool.label_lt hmem hyl) (lt_irrefl _)
      rcases List.mem_append.mp hy with hmem | hmem
      · exact hold hmem
      · rcases h.old_or_fresh hmem with hmem | hfresh
        · exact hold hmem
        · exact absurd (hfresh next hyl) (Nat.not_succ_le_self next)
    have hcons : Coherent last (x :: (pool ++ ys)) := by
      refine h.coherent.cons fun l hxl => ?_
      obtain rfl : next = l := Option.some.inj (hl.symm.trans hxl)
      exact ⟨h.le, hunused⟩
    exact hcons.mono (by simp) (Nat.le_refl _)

theorem present (h : Coherent next pool) : Joins pool next [(.present : Object C)] next where
  le := Nat.le_refl _
  old_or_fresh hy := by simp_all [Object.label?]
  coherent := (h.cons (x := .present) (by simp [Object.label?])).mono (by simp) (Nat.le_refl _)

end Joins

namespace Object

mutual

/-- A new object joins every coherent pool. -/
theorem joins_ofDiff : (x : Diff C) → {next : Nat} → {pool : List (Object C)} →
    Coherent next pool → Joins pool next (ofDiff x next).1.nodes (ofDiff x next).2
  | .int _ _, _, _, h | .custom _ _, _, _, h =>
    .cons h rfl (.of_subset (h.mono (List.Subset.refl _) (Nat.le_succ _)) (List.nil_subset _)
      (Nat.le_refl _))
  | .present, _, _, h => .present h
  | .tuple _ xs, _, _, h | .vec _ xs, _, _, h =>
    .cons h rfl (joins_ofDiffs xs (h.mono (List.Subset.refl _) (Nat.le_succ _)))

theorem joins_ofDiffs : (xs : List (Diff C)) → {next : Nat} → {pool : List (Object C)} →
    Coherent next pool → Joins pool next (nodesAll (ofDiffs xs next).1) (ofDiffs xs next).2
  | [], _, _, h => .of_subset h (List.nil_subset _) (Nat.le_refl _)
  | x :: xs, _, _, h => (joins_ofDiff x h).trans (joins_ofDiffs xs (joins_ofDiff x h).coherent)

end

end Object

end DiffAlgebra
