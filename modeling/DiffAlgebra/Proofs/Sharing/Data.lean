import DiffAlgebra.Object.Fresh
import DiffAlgebra.Proofs.Sharing.Nodes
import DiffAlgebra.Proofs.Values

/-!
# The objects in data

Data hold objects at their leaves, so the nodes of a datum are those of these objects. A change in
place acts on the nodes of a datum as it acts on objects; placing a datum among others does not
touch them.
-/

namespace DiffAlgebra.Datum

variable {C : Catalog}

def members {δ : Type} : Datum C δ → List (Datum C δ)
  | list _ xs | tuple _ xs | config _ _ _ xs => xs
  | record _ fs => fs.map (·.2)
  | null | bool _ | int _ | real _ | text _ | bytes _ | type _ | reference _ _ | violation _ _
  | report _ _ | mismatch _ _ | diff _ => []

private theorem sizeOf_lt_of_mem_members {δ : Type} {u v : Datum C δ} (h : u ∈ v.members) :
    sizeOf u < sizeOf v := by
  cases v with
  | list l xs | tuple l xs | config l c p xs =>
    have := List.sizeOf_lt_of_mem (show _ ∈ xs from h)
    simp
    omega
  | record l fs =>
    obtain ⟨⟨k, w⟩, hf, rfl⟩ := List.mem_map.mp h
    have := List.sizeOf_lt_of_mem hf
    simp at this ⊢
    omega
  | _ => simp [members] at h

/-- What holds of a datum as soon as it holds of its members holds of every datum. -/
@[elab_as_elim]
theorem members_induction {δ : Type} {motive : Datum C δ → Prop}
    (step : ∀ v, (∀ u ∈ v.members, motive u) → motive v) (v : Datum C δ) : motive v :=
  step v fun u _ => members_induction step u
termination_by sizeOf v
decreasing_by exact sizeOf_lt_of_mem_members ‹_›

mutual

/-- The nodes of the objects in a datum. -/
def nodes : Value C → List (Object C)
  | diff x => x.nodes
  | list _ xs | tuple _ xs | config _ _ _ xs => nodesAll xs
  | record _ fs => nodesFields fs
  | null | bool _ | int _ | real _ | text _ | bytes _ | type _ | reference _ _ | violation _ _
  | report _ _ | mismatch _ _ => []

def nodesAll : List (Value C) → List (Object C)
  | [] => []
  | v :: vs => nodes v ++ nodesAll vs

def nodesFields : List (String × Value C) → List (Object C)
  | [] => []
  | (_, v) :: fs => nodes v ++ nodesFields fs

end

theorem mem_nodesAll {y : Object C} {vs : List (Value C)} :
    y ∈ nodesAll vs ↔ ∃ v ∈ vs, y ∈ v.nodes := by
  induction vs with
  | nil => simp [nodesAll]
  | cons v vs ih => simp [nodesAll, ih]

theorem nodesFields_eq (fs : List (String × Value C)) :
    nodesFields fs = nodesAll (fs.map (·.2)) := by
  induction fs with
  | nil => rfl
  | cons f fs ih => simp [nodesFields, nodesAll, ih]

@[simp] theorem nodesAll_append (vs ws : List (Value C)) :
    nodesAll (vs ++ ws) = nodesAll vs ++ nodesAll ws := by
  induction vs with
  | nil => rfl
  | cons v vs ih => simp [nodesAll, ih]

@[simp] theorem nodesAll_singleton (v : Value C) : nodesAll [v] = v.nodes := by
  simp [nodesAll]

theorem nodes_eq_nodesAll_members {v : Value C} (h : ∀ x, v ≠ diff x) :
    v.nodes = nodesAll v.members := by
  cases v with
  | diff x => exact absurd rfl (h x)
  | record l fs => exact nodesFields_eq fs
  | _ => rfl

theorem mem_nodes_iff {v : Value C} {y : Object C} :
    y ∈ v.nodes ↔ (∃ x, v = diff x ∧ y ∈ x.nodes) ∨ ∃ u ∈ v.members, y ∈ u.nodes := by
  by_cases h : ∃ x, v = diff x
  · obtain ⟨x, rfl⟩ := h
    simp [nodes, members]
  · rw [nodes_eq_nodesAll_members fun x hx => h ⟨x, hx⟩, mem_nodesAll]
    simp_all

theorem nodes_subset_of_mem_members {u v : Value C} (hu : u ∈ v.members) : u.nodes ⊆ v.nodes :=
  fun _ hy => mem_nodes_iff.mpr (Or.inr ⟨u, hu, hy⟩)

theorem nodesAll_subset {vs : List (Value C)} {ys : List (Object C)}
    (h : ∀ v ∈ vs, v.nodes ⊆ ys) : nodesAll vs ⊆ ys := by
  intro y hy
  obtain ⟨v, hv, hyv⟩ := mem_nodesAll.mp hy
  exact h v hv hyv

theorem nodesAll_mono {vs ws : List (Value C)} (h : vs ⊆ ws) : nodesAll vs ⊆ nodesAll ws :=
  nodesAll_subset fun v hv _ hy => mem_nodesAll.mpr ⟨v, h hv, hy⟩

theorem nodes_subset_nodesAll {v : Value C} {vs : List (Value C)} (h : v ∈ vs) :
    v.nodes ⊆ nodesAll vs := fun _ hy => mem_nodesAll.mpr ⟨v, h, hy⟩

theorem nodesAll_map_eq_nil {α : Type} {f : α → Value C} (hf : ∀ a, (f a).nodes = [])
    (as : List α) : nodesAll (as.map f) = [] := by
  induction as with
  | nil => rfl
  | cons a as ih => simp [nodesAll, hf, ih]

theorem mem_nodes_trans {v : Value C} {y z : Object C} (hy : y ∈ v.nodes) (hz : z ∈ y.nodes) :
    z ∈ v.nodes := by
  induction v using members_induction with
  | step v ih =>
    rcases mem_nodes_iff.mp hy with ⟨x, rfl, hyx⟩ | ⟨u, hu, hyu⟩
    · exact Object.mem_nodes_trans hyx hz
    · exact nodes_subset_of_mem_members hu (ih u hu hyu)

theorem nodes_subset_of_mem_nodesAll {vs : List (Value C)} {y : Object C} (hy : y ∈ nodesAll vs) :
    y.nodes ⊆ nodesAll vs := by
  obtain ⟨v, hv, hyv⟩ := mem_nodesAll.mp hy
  exact fun z hz => mem_nodesAll.mpr ⟨v, hv, mem_nodes_trans hyv hz⟩

end DiffAlgebra.Datum

namespace DiffAlgebra

variable {C : Catalog}

namespace Write

def onObject : Write C → Object C → Object C
  | object new => Object.write new
  | list _ _ => id

def brought : Write C → List (Object C)
  | object new => new.nodes
  | list _ items => Datum.nodesAll items

end Write

namespace Datum

theorem writeAll_eq_map (w : Write C) (vs : List (Value C)) : writeAll w vs = vs.map (write w) := by
  induction vs with
  | nil => rfl
  | cons v vs ih => simp [writeAll, ih]

theorem writeFields_eq_map (w : Write C) (fs : List (String × Value C)) :
    writeFields w fs = fs.map fun f => (f.1, write w f.2) := by
  induction fs with
  | nil => rfl
  | cons f fs ih => simp [writeFields, ih]

/-- A change in place acts on objects, gives a list its new items, and otherwise acts on members. -/
theorem write_cases (w : Write C) (v : Value C) :
    (∃ x, v = diff x ∧ v.write w = diff (w.onObject x)) ∨
    (∃ l xs ys, w = .list l ys ∧ v = list l xs ∧ v.write w = list l ys) ∨
    ((∀ x, v.write w ≠ diff x) ∧ (v.write w).members = v.members.map (write w)) := by
  cases v with
  | diff x => cases w <;> exact Or.inl ⟨x, rfl, rfl⟩
  | list l xs =>
    cases w with
    | object new => simp [write, members, writeAll_eq_map]
    | list m ys =>
      by_cases h : m = l
      · exact Or.inr (Or.inl ⟨l, xs, ys, by rw [h], rfl, by simp [write, h]⟩)
      · simp [write, members, writeAll_eq_map, h]
  | record l fs => simp [write, members, writeFields_eq_map]
  | tuple l xs | config l c p xs => simp [write, members, writeAll_eq_map]
  | _ => simp [write, members]

theorem map_eq_self {f : Object C → Object C} {v : Value C} (h : ∀ x ∈ v.nodes, f x = x) :
    v.map f = v := by
  induction v using members_induction with
  | step v ih =>
    have hmembers (u : Value C) (hu : u ∈ v.members) : u.map f = u :=
      ih u hu fun y hy => h y (nodes_subset_of_mem_members hu hy)
    cases v with
    | diff x => exact congrArg diff (h x (Object.mem_nodes_self x))
    | list l xs | tuple l xs | config l c p xs =>
      have hmap : xs.map (map f) = xs := (List.map_congr_left hmembers).trans (List.map_id xs)
      simp [map, mapAll_eq_map, hmap]
    | record l fs =>
      have hmap : (fs.map fun g => (g.1, g.2.map f)) = fs := by
        refine (List.map_congr_left fun g hg => ?_).trans (List.map_id fs)
        rw [hmembers g.2 (List.mem_map.mpr ⟨g, hg, rfl⟩)]
        rfl
      simp [map, mapFields_eq_map, hmap]
    | _ => rfl

theorem map_map (f g : Object C → Object C) (v : Value C) :
    (v.map f).map g = v.map fun x => g (f x) := by
  induction v using members_induction with
  | step v ih =>
    cases v with
    | list l xs | tuple l xs | config l c p xs =>
      have hmap : xs.map (fun u => (u.map f).map g) = xs.map (map fun x => g (f x)) :=
        List.map_congr_left ih
      simp [map, mapAll_eq_map, Function.comp_def, hmap]
    | record l fs =>
      have hmap : (fs.map fun e => (e.1, (e.2.map f).map g)) =
          fs.map fun e => (e.1, e.2.map fun x => g (f x)) := by
        refine List.map_congr_left fun e he => ?_
        rw [ih e.2 (List.mem_map.mpr ⟨e, he, rfl⟩)]
      simp [map, mapFields_eq_map, Function.comp_def, hmap]
    | _ => rfl

/-- Writing an object changes the objects of a datum and nothing around them. -/
theorem write_object_eq_map (new : Object C) (v : Value C) :
    v.write (.object new) = v.map (Object.write new) := by
  induction v using members_induction with
  | step v ih =>
    cases v with
    | list l xs | tuple l xs | config l c p xs =>
      have hmap : xs.map (write (.object new)) = xs.map (map (Object.write new)) :=
        List.map_congr_left ih
      simp [write, map, writeAll_eq_map, mapAll_eq_map, hmap]
    | record l fs =>
      have hmap : (fs.map fun f => (f.1, f.2.write (.object new))) =
          fs.map fun f => (f.1, f.2.map (Object.write new)) := by
        refine List.map_congr_left fun f hf => ?_
        rw [ih f.2 (List.mem_map.mpr ⟨f, hf, rfl⟩)]
      simp [write, map, writeFields_eq_map, mapFields_eq_map, hmap]
    | _ => rfl

/-- The nodes after a change in place are those it brings along and the old ones with the change
made to them. -/
theorem mem_nodes_write {w : Write C} {v : Value C} {y : Object C} (hy : y ∈ (v.write w).nodes) :
    y ∈ w.brought ∨ ∃ z ∈ v.nodes, y = w.onObject z := by
  induction v using members_induction with
  | step v ih =>
    rcases write_cases w v with ⟨x, rfl, hw⟩ | ⟨l, xs, ys, rfl, rfl, hw⟩ | ⟨hdiff, hmembers⟩
    · rw [hw] at hy
      cases w with
      | object new => exact Object.mem_nodes_write hy
      | list m ys => exact Or.inr ⟨y, hy, rfl⟩
    · rw [hw] at hy
      exact Or.inl hy
    · rw [nodes_eq_nodesAll_members hdiff, hmembers] at hy
      obtain ⟨u', hu', hyu⟩ := mem_nodesAll.mp hy
      obtain ⟨u, hu, rfl⟩ := List.mem_map.mp hu'
      rcases ih u hu hyu with hbrought | ⟨z, hz, rfl⟩
      · exact Or.inl hbrought
      · exact Or.inr ⟨z, nodes_subset_of_mem_members hu hz, rfl⟩

mutual

/-- A datum keeps its nodes when it is placed among others. -/
theorem nodes_settle : (v : Value C) → (next : Nat) → (settle v next).1.nodes = v.nodes
  | list _ xs, next | tuple _ xs, next | config _ _ _ xs, next => by
    simp [settle, nodes, nodesAll_settleAll xs]
  | record _ fs, next => by simp [settle, nodes, nodesFields_settleFields fs]
  | null, _ | bool _, _ | int _, _ | real _, _ | text _, _ | bytes _, _ => rfl
  | type _, _ | diff _, _ => rfl
  | reference _ _, _ | violation _ _, _ | report _ _, _ | mismatch _ _, _ => rfl

theorem nodesAll_settleAll :
    (vs : List (Value C)) → (next : Nat) → nodesAll (settleAll vs next).1 = nodesAll vs
  | [], _ => rfl
  | v :: vs, next => by simp [settleAll, nodesAll, nodes_settle v, nodesAll_settleAll vs]

theorem nodesFields_settleFields : (fs : List (String × Value C)) → (next : Nat) →
    nodesFields (settleFields fs next).1 = nodesFields fs
  | [], _ => rfl
  | (_, v) :: fs, next => by
    simp [settleFields, nodesFields, nodes_settle v, nodesFields_settleFields fs]

end

theorem le_issue (label next : Nat) : next ≤ (issue label next).2 := by
  unfold issue
  split <;> simp

mutual

theorem le_settle : (v : Value C) → (next : Nat) → next ≤ (settle v next).2
  | list l xs, next | tuple l xs, next | config l _ _ xs, next =>
    Nat.le_trans (le_issue l next) (le_settleAll xs _)
  | record l fs, next => Nat.le_trans (le_issue l next) (le_settleFields fs _)
  | reference l _, next | violation l _, next | report l _, next | mismatch l _, next =>
    le_issue l next
  | null, _ | bool _, _ | int _, _ | real _, _ | text _, _ | bytes _, _ | type _, _ | diff _, _ =>
    Nat.le_refl _

theorem le_settleAll : (vs : List (Value C)) → (next : Nat) → next ≤ (settleAll vs next).2
  | [], _ => Nat.le_refl _
  | v :: vs, next => Nat.le_trans (le_settle v next) (le_settleAll vs _)

theorem le_settleFields :
    (fs : List (String × Value C)) → (next : Nat) → next ≤ (settleFields fs next).2
  | [], _ => Nat.le_refl _
  | (_, v) :: fs, next => Nat.le_trans (le_settle v next) (le_settleFields fs _)

end

end Datum

end DiffAlgebra
