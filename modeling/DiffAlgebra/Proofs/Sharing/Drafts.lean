import DiffAlgebra.Proofs.Failure
import DiffAlgebra.Proofs.Sharing.Coherence

/-!
# Drafts and the objects they were given

Coercion and construction take over the objects they are given and invent none: every object that a
draft was given stems from the data it was made of. The object that a draft becomes joins every
coherent pool that holds the given ones.
-/

namespace DiffAlgebra

variable {C : Catalog}

namespace Datum

theorem nodesAll_sequence {v : Value C} {vs : List (Value C)} (h : v.sequence = .ok vs) :
    nodesAll vs ⊆ v.nodes := by
  have hparts (x : Object C) : nodesAll (x.parts.map diff) ⊆ x.nodes := by
    refine nodesAll_subset fun u hu y hy => ?_
    obtain ⟨p, hp, rfl⟩ := List.mem_map.mp hu
    exact Object.mem_nodes_of_mem_parts hp hy
  cases v with
  | list | tuple =>
    cases h
    exact List.Subset.refl _
  | text | bytes =>
    cases h
    rw [nodesAll_map_eq_nil fun _ => rfl]
    exact List.nil_subset _
  | diff x =>
    simp only [sequence] at h
    split at h
    · cases h
      exact hparts x
    · cases h
      exact hparts x
    · cases h
  | _ => cases h

theorem nodesAll_items {v : Value C} {vs : List (Value C)} (h : v.items = .ok vs) :
    nodesAll vs ⊆ v.nodes := by
  unfold items at h
  split at h
  · cases h
    rw [nodesAll_map_eq_nil fun _ => rfl]
    exact List.nil_subset _
  · split at h
    next fields hfields =>
      cases h
      cases v with
      | config =>
        cases hfields
        simp [nodesAll, nodes, named]
      | violation =>
        cases hfields
        simp [named, nodes, nodesAll, nodesAll_map_eq_nil (f := text) fun _ => rfl]
      | report =>
        cases hfields
        simp [named, nodes, nodesAll, nodesAll_map_eq_nil (f := violation 0) fun _ => rfl]
      | _ => cases hfields
    · exact nodesAll_sequence h

end Datum

namespace Draft

mutual

def givenNodes : Draft C (Object C) → List (Object C)
  | given x => x.nodes
  | int _ _ | present | custom _ _ => []
  | tuple _ xs | vec _ xs => givenNodesAll xs

def givenNodesAll : List (Draft C (Object C)) → List (Object C)
  | [] => []
  | d :: ds => givenNodes d ++ givenNodesAll ds

end

private theorem givenNodesAll_subset {ds : List (Draft C (Object C))} {ys : List (Object C)}
    (h : ∀ d ∈ ds, d.givenNodes ⊆ ys) : givenNodesAll ds ⊆ ys := by
  induction ds with
  | nil => exact List.nil_subset _
  | cons d ds ih =>
    exact List.append_subset.mpr ⟨h d (by simp), ih fun e he => h e (by simp [he])⟩

private theorem keepOr_eq_ok {t : DiffType C} {v : Value C}
    {build : Except Fault (Draft C (Object C))}
    {d : Draft C (Object C)} (h : keepOr t v build = .ok d) :
    (∃ x, v = .diff x ∧ d = given x) ∨ build = .ok d := by
  unfold keepOr at h
  split at h
  · split at h
    · cases h
      exact Or.inl ⟨_, rfl, rfl⟩
    · exact Or.inr h
  · exact Or.inr h

theorem givenNodes_keepOr {t : DiffType C} {v : Value C}
    {build : Except Fault (Draft C (Object C))} {d : Draft C (Object C)}
    (h : keepOr t v build = .ok d) (hbuild : build = .ok d → d.givenNodes ⊆ v.nodes) :
    d.givenNodes ⊆ v.nodes := by
  rcases keepOr_eq_ok h with ⟨x, rfl, rfl⟩ | h
  · exact List.Subset.refl _
  · exact hbuild h

theorem givenNodes_ofInteger {k : IntKind} {v : Value C} {d : Draft C (Object C)}
    (h : ofInteger k v = .ok d) : d.givenNodes = [] := by
  simp only [ofInteger, bind_eq_ok] at h
  obtain ⟨_, _, _, _, h⟩ := h
  cases h
  rfl

theorem givenNodes_ofArgument {n : C.Name} {v : Value C} {d : Draft C (Object C)}
    (h : ofArgument n v = .ok d) : d.givenNodes = [] := by
  simp only [ofArgument, bind_eq_ok] at h
  obtain ⟨_, _, h⟩ := h
  cases h
  rfl

theorem givenNodesAll_mapM {f : Value C → Except Fault (Draft C (Object C))}
    (hf : ∀ {v d}, f v = .ok d → d.givenNodes ⊆ v.nodes) {vs : List (Value C)}
    {ds : List (Draft C (Object C))} (h : vs.mapM f = .ok ds) :
    givenNodesAll ds ⊆ Datum.nodesAll vs := by
  refine givenNodesAll_subset fun d hd y hy => ?_
  obtain ⟨v, hv, hvd⟩ := exists_of_mem_mapM h hd
  exact Datum.mem_nodesAll.mpr ⟨v, hv, hf hvd hy⟩

mutual

/-- Coercion takes over objects of the coerced datum only. -/
theorem givenNodes_coerce : (t : DiffType C) → {v : Value C} → {d : Draft C (Object C)} →
    coerce t v = .ok d → d.givenNodes ⊆ v.nodes
  | .tier t, _, _, h => givenNodes_keepOr h fun h => by cases h
  | .anyInt g, v, _, h => givenNodes_keepOr h fun h => by simp at h
  | .int k, _, _, h => givenNodes_keepOr h fun h => by
    obtain ⟨_, _, h⟩ := bind_eq_ok.mp h
    simp [givenNodes_ofInteger h]
  | .present, _, _, h => givenNodes_keepOr h fun h => by
    split at h
    · cases h
      exact List.nil_subset _
    · cases h
  | .custom n, _, _, h => givenNodes_keepOr h fun h => by simp [givenNodes_ofArgument h]
  | .anyTuple, _, _, h => givenNodes_keepOr h fun h => by
    obtain ⟨_, _, h⟩ := bind_eq_ok.mp h
    split at h
    · cases h
      exact List.nil_subset _
    · cases h
  | .tuple ts, _, _, h => givenNodes_keepOr h fun h => by
    obtain ⟨_, _, h⟩ := bind_eq_ok.mp h
    obtain ⟨vs, hvs, h⟩ := bind_eq_ok.mp h
    split at h
    · obtain ⟨ds, hds, h⟩ := bind_eq_ok.mp h
      cases h
      exact List.Subset.trans (givenNodesAll_coerceAll ts hds) (Datum.nodesAll_items hvs)
    · cases h
  | .anyVec, _, _, h => givenNodes_keepOr h fun h => by
    obtain ⟨_, _, h⟩ := bind_eq_ok.mp h
    split at h
    · cases h
      exact List.nil_subset _
    · cases h
  | .vec t, v, _, h => givenNodes_keepOr h fun h => by
    obtain ⟨_, _, h⟩ := bind_eq_ok.mp h
    obtain ⟨vs, hvs, h⟩ := bind_eq_ok.mp h
    obtain ⟨ds, hds, h⟩ := bind_eq_ok.mp h
    cases h
    exact List.Subset.trans (givenNodesAll_mapM (givenNodes_coerce t) hds)
      (Datum.nodesAll_items hvs)

theorem givenNodesAll_coerceAll : (ts : List (DiffType C)) → {vs : List (Value C)} →
    {ds : List (Draft C (Object C))} → coerceAll ts vs = .ok ds →
    givenNodesAll ds ⊆ Datum.nodesAll vs
  | [], _, _, h => by
    cases h
    exact List.nil_subset _
  | t :: ts, [], _, h => by
    cases h
    exact List.nil_subset _
  | t :: ts, v :: vs, _, h => by
    obtain ⟨d, hd, h⟩ := bind_eq_ok.mp h
    obtain ⟨ds, hds, h⟩ := bind_eq_ok.mp h
    cases h
    exact List.append_subset.mpr
      ⟨List.subset_append_of_subset_left _ (givenNodes_coerce t hd),
        List.subset_append_of_subset_right _ (givenNodesAll_coerceAll ts hds)⟩

end

/-- Construction takes over objects of the arguments only. -/
theorem givenNodes_construct {t : DiffType C} {vs : List (Value C)} {d : Draft C (Object C)}
    (h : construct t vs = .ok d) : d.givenNodes ⊆ Datum.nodesAll vs := by
  unfold construct at h
  split at h
  case h_3 => simp at h
  case h_5 => simp [givenNodes_ofInteger h]
  case h_7 =>
    obtain ⟨_, _, h⟩ := bind_eq_ok.mp h
    cases h
    exact List.nil_subset _
  case h_8 => simp [givenNodes_ofArgument h]
  case h_9 =>
    split at h
    · cases h
      exact List.nil_subset _
    · cases h
  case h_10 =>
    split at h
    · obtain ⟨ds, hds, h⟩ := bind_eq_ok.mp h
      cases h
      exact givenNodesAll_coerceAll _ hds
    · cases h
  case h_12 =>
    obtain ⟨_, _, h⟩ := bind_eq_ok.mp h
    split at h
    · cases h
      exact List.nil_subset _
    · cases h
  case h_14 v =>
    obtain ⟨us, hus, h⟩ := bind_eq_ok.mp h
    obtain ⟨ds, hds, h⟩ := bind_eq_ok.mp h
    cases h
    rw [Datum.nodesAll_singleton]
    exact List.Subset.trans (givenNodesAll_mapM (givenNodes_coerce _) hds)
      (Datum.nodesAll_items hus)
  all_goals
    cases h
    try exact List.nil_subset _

end Draft

namespace Object

mutual

/-- The object that a draft becomes joins every coherent pool that holds the given objects. -/
theorem joins_ofDraft : (d : Draft C (Object C)) → {next : Nat} → {pool : List (Object C)} →
    d.givenNodes ⊆ pool → Coherent next pool →
    Joins pool next (ofDraft d next).1.nodes (ofDraft d next).2
  | .given _, _, _, hsub, h => .of_subset h hsub (Nat.le_refl _)
  | .int _ _, _, _, _, h | .custom _ _, _, _, _, h =>
    .cons h rfl (.of_subset (h.mono (List.Subset.refl _) (Nat.le_succ _)) (List.nil_subset _)
      (Nat.le_refl _))
  | .present, _, _, _, h => .present h
  | .tuple _ ds, _, _, hsub, h | .vec _ ds, _, _, hsub, h =>
    .cons h rfl (joins_ofDrafts ds hsub (h.mono (List.Subset.refl _) (Nat.le_succ _)))

theorem joins_ofDrafts : (ds : List (Draft C (Object C))) → {next : Nat} →
    {pool : List (Object C)} → Draft.givenNodesAll ds ⊆ pool → Coherent next pool →
    Joins pool next (nodesAll (ofDrafts ds next).1) (ofDrafts ds next).2
  | [], _, _, _, h => .of_subset h (List.nil_subset _) (Nat.le_refl _)
  | d :: ds, _, _, hsub, h => by
    obtain ⟨hd, hds⟩ := List.append_subset.mp hsub
    have hjoin := joins_ofDraft d hd h
    exact hjoin.trans (joins_ofDrafts ds (List.subset_append_of_subset_left _ hds) hjoin.coherent)

end

end Object

end DiffAlgebra
