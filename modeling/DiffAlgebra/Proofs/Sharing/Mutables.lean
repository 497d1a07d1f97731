import DiffAlgebra.Proofs.Sharing.Labels

/-!
# What can be changed in data

Data share what can be changed in them if it has the same label. A deep copy that is moved beyond
all labels in use shares nothing of this kind with anything that was there before.
-/

namespace DiffAlgebra

variable {C : Catalog}

private theorem Object.exists_of_mem_labels_rebuild {x y : Object C} {d l : Nat}
    (h : x.rebuild = .ok y)
    (hl : l ∈ (y.shift d).labels) : ∃ k ∈ x.labels, l = k + d := by
  obtain ⟨z, hz, hzl⟩ := mem_labels_iff.mp hl
  obtain ⟨w, hw, z', hz', rfl⟩ := copied_of_mem_nodes h hz
  obtain ⟨k, hk, rfl⟩ := exists_label_of_copied hz' hzl
  exact ⟨k, mem_labels_iff.mpr ⟨w, hw, hk⟩, rfl⟩

namespace Datum

mutual

/-- The labels of what can be changed in a datum, and of all else with an identity of its own but
tuples, which are the same as their copies if nothing in them can be changed. -/
def mutables : Value C → List Nat
  | list l xs | config l _ _ xs => l :: mutablesAll xs
  | record l fs => l :: mutablesFields fs
  | tuple _ xs => mutablesAll xs
  | diff x => x.labels
  | reference l _ | violation l _ | report l _ | mismatch l _ => [l]
  | null | bool _ | int _ | real _ | text _ | bytes _ | type _ => []

def mutablesAll : List (Value C) → List Nat
  | [] => []
  | v :: vs => mutables v ++ mutablesAll vs

def mutablesFields : List (String × Value C) → List Nat
  | [] => []
  | (_, v) :: fs => mutables v ++ mutablesFields fs

end

/-- A datum has no label in common with another one of what can be changed in it. -/
def Apart (u v : Value C) : Prop := u.mutables.Disjoint v.mutables

private theorem mutablesAll_eq_flatMap (vs : List (Value C)) :
    mutablesAll vs = vs.flatMap mutables := by
  induction vs with
  | nil => rfl
  | cons v vs ih => rw [mutablesAll, ih, List.flatMap_cons]

theorem mutablesFields_eq (fs : List (String × Value C)) :
    mutablesFields fs = mutablesAll (fs.map (·.2)) := by
  induction fs with
  | nil => rfl
  | cons f fs ih => rw [mutablesFields, ih, List.map_cons, mutablesAll]

variable {u v : Value C} {l : Nat}

theorem mem_mutablesAll {vs : List (Value C)} :
    l ∈ mutablesAll vs ↔ ∃ v ∈ vs, l ∈ v.mutables := by
  rw [mutablesAll_eq_flatMap, List.mem_flatMap]

/-- What can be changed in a datum: itself, an object, or what can be changed in a member. -/
theorem mem_mutables_cases (h : l ∈ v.mutables) :
    v.label? = some l ∨ (∃ x, v = .diff x ∧ l ∈ x.labels) ∨ ∃ w ∈ v.members, l ∈ w.mutables := by
  cases v with
  | list | config =>
    rcases List.mem_cons.mp h with rfl | h
    · exact Or.inl rfl
    · exact Or.inr (Or.inr (mem_mutablesAll.mp h))
  | record l fs =>
    rcases List.mem_cons.mp h with rfl | h
    · exact Or.inl rfl
    · rw [mutablesFields_eq] at h
      exact Or.inr (Or.inr (mem_mutablesAll.mp h))
  | tuple => exact Or.inr (Or.inr (mem_mutablesAll.mp h))
  | diff x => exact Or.inr (Or.inl ⟨x, rfl, h⟩)
  | reference | violation | report | mismatch =>
    exact Or.inl (congrArg some (List.mem_singleton.mp h).symm)
  | _ => cases h

private theorem mutables_subset_of_mem_members (h : u ∈ v.members) : u.mutables ⊆ v.mutables := by
  intro l hl
  have hall := mem_mutablesAll.mpr ⟨u, h, hl⟩
  cases v with
  | list | config => exact List.mem_cons_of_mem _ hall
  | record l fs =>
    rw [members, ← mutablesFields_eq] at hall
    exact List.mem_cons_of_mem _ hall
  | tuple => exact hall
  | _ => cases h

/-- What can be changed in placed data has a label that has been handed out. -/
theorem Below.lt_of_mem_mutables {next : Nat} (h : v.Below next) (hv : Coherent next v.nodes)
    (hl : l ∈ v.mutables) : l < next := by
  induction h with
  | @intro v own _ ih =>
    rcases mem_mutables_cases hl with hlabel | ⟨x, rfl, hx⟩ | ⟨w, hw, hlw⟩
    · exact own l hlabel
    · exact hv.lt_of_mem_labels (List.Subset.refl _) hx
    · exact ih w hw (hv.mono (nodes_subset_of_mem_members hw) (Nat.le_refl _)) hlw

section Duplicate

variable {rule : CopyRule C} {d : Nat}

/-- What can be changed in a duplicate has labels of what can be changed in the datum, moved. -/
theorem exists_of_mem_mutables_duplicate (h : duplicate rule d v = .ok u) (hl : l ∈ u.mutables) :
    ∃ k ∈ v.mutables, l = k + d := by
  induction v using members_induction generalizing u with
  | step v ih =>
    have hmember {w w' : Value C} (hw : w ∈ v.members) (hd : duplicate rule d w = .ok w')
        (hl' : l ∈ w'.mutables) : ∃ k ∈ v.mutables, l = k + d := by
      obtain ⟨k, hk, hkl⟩ := ih w hw hd hl'
      exact ⟨k, mutables_subset_of_mem_members hw hk, hkl⟩
    have hall {xs ys : List (Value C)} (hxs : xs = v.members)
        (hys : duplicateAll rule d xs = .ok ys) (hl' : l ∈ mutablesAll ys) :
        ∃ k ∈ v.mutables, l = k + d := by
      rw [duplicateAll_eq_mapM] at hys
      obtain ⟨w', hw', hlw⟩ := mem_mutablesAll.mp hl'
      obtain ⟨w, hw, hd⟩ := exists_of_mem_mapM hys hw'
      exact hmember (hxs ▸ hw) hd hlw
    cases v with
    | diff x =>
      obtain ⟨y, hy, h⟩ := bind_eq_ok.mp h
      cases h
      exact Object.exists_of_mem_labels_rebuild hy hl
    | list m xs | config m c p xs =>
      obtain ⟨ys, hys, h⟩ := bind_eq_ok.mp h
      cases h
      rcases List.mem_cons.mp hl with rfl | hl
      · exact ⟨m, List.mem_cons_self, rfl⟩
      · exact hall rfl hys hl
    | tuple m xs =>
      obtain ⟨ys, hys, h⟩ := bind_eq_ok.mp h
      cases h
      exact hall rfl hys hl
    | record m fs =>
      obtain ⟨gs, hgs, h⟩ := bind_eq_ok.mp h
      cases h
      rcases List.mem_cons.mp hl with rfl | hl
      · exact ⟨m, List.mem_cons_self, rfl⟩
      · rw [mutablesFields_eq] at hl
        obtain ⟨w', hw', hlw⟩ := mem_mutablesAll.mp hl
        obtain ⟨w, hw, hd⟩ := exists_of_mem_duplicateFields hgs hw'
        exact hmember hw hd hlw
    | violation m | report m | mismatch m =>
      cases h
      exact ⟨m, List.mem_cons_self, List.mem_singleton.mp hl⟩
    | type c =>
      simp only [duplicate] at h
      split at h
      · cases h
        cases hl
      · cases h
    | reference m t =>
      obtain ⟨_, _, h⟩ := bind_eq_ok.mp h
      cases h
      cases hl
    | _ =>
      cases h
      cases hl

/-- A deep copy has labels of its own, which have been handed out for it. -/
theorem bounds_deepCopy {next last : Nat} (h : v.deepCopy next = .ok (u, last))
    (hv : ∀ k ∈ v.mutables, k < next) : ∀ l ∈ u.mutables, next ≤ l ∧ l < last := by
  obtain ⟨w, hw, h⟩ := bind_eq_ok.mp h
  cases h
  intro l hl
  obtain ⟨k, hk, rfl⟩ := exists_of_mem_mutables_duplicate hw hl
  have := hv k hk
  omega

theorem le_deepCopy {next last : Nat} (h : v.deepCopy next = .ok (u, last)) : next ≤ last := by
  obtain ⟨_, _, h⟩ := bind_eq_ok.mp h
  cases h
  exact Nat.le_add_left _ _

theorem labelled_deepCopy {next last : Nat} (hv : v.Labelled (0 < ·))
    (h : v.deepCopy next = .ok (u, last)) : u.Labelled (0 < ·) := by
  obtain ⟨w, hw, h⟩ := bind_eq_ok.mp h
  cases h
  exact hv.duplicate hw (fun _ hl => hl) fun l hl => Nat.add_pos_left hl _

mutual

/-- How far labels are moved does not decide whether a duplicate can be made. -/
theorem duplicate_error : (v : Value C) → {d d' : Nat} → {f : Fault} →
    duplicate rule d v = .error f → duplicate rule d' v = .error f
  | list _ xs, _, _, _, h | tuple _ xs, _, _, _, h | config _ _ _ xs, _, _, _, h => by
    rcases bind_eq_error.mp h with h | ⟨_, _, h⟩
    · exact bind_eq_error.mpr (Or.inl (duplicateAll_error xs h))
    · cases h
  | record _ fs, _, _, _, h => by
    rcases bind_eq_error.mp h with h | ⟨_, _, h⟩
    · exact bind_eq_error.mpr (Or.inl (duplicateFields_error fs h))
    · cases h
  | diff x, _, _, _, h => by
    rcases bind_eq_error.mp h with h | ⟨_, _, h⟩
    · exact bind_eq_error.mpr (Or.inl h)
    · cases h
  | type _, _, _, _, h | reference _ _, _, _, _, h => h
  | null, _, _, _, h | bool _, _, _, _, h | int _, _, _, _, h | real _, _, _, _, h
  | text _, _, _, _, h | bytes _, _, _, _, h | violation _ _, _, _, _, h | report _ _, _, _, _, h
  | mismatch _ _, _, _, _, h => nomatch h

theorem duplicateAll_error : (vs : List (Value C)) → {d d' : Nat} → {f : Fault} →
    duplicateAll rule d vs = .error f → duplicateAll rule d' vs = .error f
  | [], _, _, _, h => nomatch h
  | v :: vs, d, d', _, h => by
    rcases bind_eq_error.mp h with h | ⟨y, hy, h⟩
    · exact bind_eq_error.mpr (Or.inl (duplicate_error v h))
    cases hy' : duplicate rule d' v with
    | error g => exact nomatch hy.symm.trans (duplicate_error v hy')
    | ok y' =>
      rcases bind_eq_error.mp h with h | ⟨_, _, h⟩
      · exact bind_eq_error.mpr (Or.inr ⟨y', hy', bind_eq_error.mpr
          (Or.inl (duplicateAll_error vs h))⟩)
      · cases h

theorem duplicateFields_error : (fs : List (String × Value C)) → {d d' : Nat} → {f : Fault} →
    duplicateFields rule d fs = .error f → duplicateFields rule d' fs = .error f
  | [], _, _, _, h => nomatch h
  | (_, v) :: fs, d, d', _, h => by
    rcases bind_eq_error.mp h with h | ⟨y, hy, h⟩
    · exact bind_eq_error.mpr (Or.inl (duplicate_error v h))
    cases hy' : duplicate rule d' v with
    | error g => exact nomatch hy.symm.trans (duplicate_error v hy')
    | ok y' =>
      rcases bind_eq_error.mp h with h | ⟨_, _, h⟩
      · exact bind_eq_error.mpr (Or.inr ⟨y', hy', bind_eq_error.mpr
          (Or.inl (duplicateFields_error fs h))⟩)
      · cases h

end

/-- Whether a datum can be copied does not depend on the labels that are in use. -/
theorem deepCopy_error {next next' : Nat} {f : Fault} (h : v.deepCopy next = .error f) :
    v.deepCopy next' = .error f := by
  rcases bind_eq_error.mp h with h | ⟨_, _, h⟩
  · exact bind_eq_error.mpr (Or.inl (duplicate_error v h))
  · cases h

theorem exists_deepCopy {next last : Nat} (h : v.deepCopy next = .ok (u, last)) (next' : Nat) :
    ∃ w last', v.deepCopy next' = .ok (w, last') := by
  cases h' : v.deepCopy next' with
  | error f => exact nomatch h.symm.trans (deepCopy_error h')
  | ok r => exact ⟨r.1, r.2, rfl⟩

end Duplicate

theorem issue_of_pos {l next : Nat} (hl : 0 < l) : issue l next = (l, next) :=
  if_neg (Nat.ne_of_gt hl)

mutual

/-- A datum with all its labels is in place already. -/
theorem settle_eq_self : (v : Value C) → {next : Nat} → v.Labelled (0 < ·) →
    v.settle next = (v, next)
  | list l xs, next, h | tuple l xs, next, h | config l _ _ xs, next, h => by
    have ⟨hl, hxs⟩ := labelled_iff.mp h
    simp only [settle, issue_of_pos (hl l rfl), settleAll_eq_self xs hxs]
  | record l fs, next, h => by
    have ⟨hl, hfs⟩ := labelled_record.mp h
    simp only [settle, issue_of_pos hl, settleFields_eq_self fs hfs]
  | reference l _, _, h | violation l _, _, h | report l _, _, h | mismatch l _, _, h => by
    have hl := (labelled_iff.mp h).1
    simp only [settle, issue_of_pos (hl l rfl)]
  | null, _, _ | bool _, _, _ | int _, _, _ | real _, _, _ | text _, _, _ | bytes _, _, _
  | type _, _, _ | diff _, _, _ => rfl

theorem settleAll_eq_self : (vs : List (Value C)) → {next : Nat} →
    (∀ v ∈ vs, v.Labelled (0 < ·)) → settleAll vs next = (vs, next)
  | [], _, _ => rfl
  | v :: vs, _, h => by
    obtain ⟨hv, hvs⟩ := List.forall_mem_cons.mp h
    simp only [settleAll, settle_eq_self v hv, settleAll_eq_self vs hvs]

theorem settleFields_eq_self : (fs : List (String × Value C)) → {next : Nat} →
    (∀ f ∈ fs, f.2.Labelled (0 < ·)) → settleFields fs next = (fs, next)
  | [], _, _ => rfl
  | (_, v) :: fs, _, h => by
    obtain ⟨hv, hfs⟩ := List.forall_mem_cons.mp h
    simp only [settleFields, settle_eq_self v hv, settleFields_eq_self fs hfs]

end

end Datum

end DiffAlgebra
