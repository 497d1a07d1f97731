import DiffAlgebra.Object.Basic
import Mathlib.Data.List.Basic

/-!
# The nodes of shared objects

An object is the list of its nodes: itself and the nodes of its components. What a node holds itself
is its content, in which components are named by their labels. To write an object in place changes
the contents of no node but those with its label, and leaves alone whatever does not reach one.
-/

namespace DiffAlgebra

/-- What a node holds itself; its components are given by their labels, and the presence marker,
which has none, by no label. -/
inductive Content (C : Catalog) where
  | int (k : IntKind) (n : Int)
  | present
  | custom (n : C.Name) (s : C.State)
  | tuple (types : Option (List (DiffType C))) (items : List (Option Nat))
  | vec (type : Option (DiffType C)) (items : List (Option Nat))

namespace Object

variable {C : Catalog}

def content : Object C → Content C
  | int _ k n => .int k n
  | present => .present
  | custom _ n s => .custom n s
  | tuple _ ts xs => .tuple ts (xs.map label?)
  | vec _ t xs => .vec t (xs.map label?)

theorem sizeOf_lt_of_mem_parts {p x : Object C} (h : p ∈ x.parts) : sizeOf p < sizeOf x := by
  cases x with
  | int | present | custom => simp [parts] at h
  | tuple l ts xs =>
    have := List.sizeOf_lt_of_mem (show _ ∈ xs from h)
    simp only [tuple.sizeOf_spec]
    omega
  | vec l t xs =>
    have := List.sizeOf_lt_of_mem (show _ ∈ xs from h)
    simp only [vec.sizeOf_spec]
    omega

/-- What holds of an object as soon as it holds of its components holds of every object. -/
@[elab_as_elim]
theorem parts_induction {motive : Object C → Prop}
    (step : ∀ x, (∀ p ∈ x.parts, motive p) → motive x) (x : Object C) : motive x :=
  step x fun p _ => parts_induction step p
termination_by sizeOf x
decreasing_by exact sizeOf_lt_of_mem_parts ‹_›

theorem nodesAll_eq_flatMap (xs : List (Object C)) : nodesAll xs = xs.flatMap nodes := by
  induction xs with
  | nil => rfl
  | cons x xs ih => simp [nodesAll, ih]

theorem mem_nodesAll {y : Object C} {xs : List (Object C)} :
    y ∈ nodesAll xs ↔ ∃ x ∈ xs, y ∈ x.nodes := by
  simp [nodesAll_eq_flatMap]

theorem nodes_eq (x : Object C) : x.nodes = x :: nodesAll x.parts := by
  cases x <;> rfl

theorem mem_nodes_self (x : Object C) : x ∈ x.nodes := by
  simp [nodes_eq]

theorem mem_nodes_iff {x y : Object C} : y ∈ x.nodes ↔ y = x ∨ ∃ p ∈ x.parts, y ∈ p.nodes := by
  rw [nodes_eq, List.mem_cons, mem_nodesAll]

theorem mem_nodes_of_mem_parts {p x y : Object C} (hp : p ∈ x.parts) (hy : y ∈ p.nodes) :
    y ∈ x.nodes :=
  mem_nodes_iff.mpr (Or.inr ⟨p, hp, hy⟩)

theorem mem_nodes_trans {x y z : Object C} (hy : y ∈ x.nodes) (hz : z ∈ y.nodes) :
    z ∈ x.nodes := by
  induction x using parts_induction with
  | step x ih =>
    rcases mem_nodes_iff.mp hy with rfl | ⟨p, hp, hyp⟩
    · exact hz
    · exact mem_nodes_of_mem_parts hp (ih p hp hyp)

private theorem sizeOf_le_of_mem_nodes {x y : Object C} (hy : y ∈ x.nodes) :
    sizeOf y ≤ sizeOf x := by
  induction x using parts_induction with
  | step x ih =>
    rcases mem_nodes_iff.mp hy with rfl | ⟨p, hp, hyp⟩
    · exact Nat.le_refl _
    · have hp' := sizeOf_lt_of_mem_parts hp
      have hy' := ih p hp hyp
      omega

/-- An object is not a node of its own components. -/
theorem not_mem_nodes_of_mem_parts {p x : Object C} (hp : p ∈ x.parts) : x ∉ p.nodes := by
  intro hx
  have hlt := sizeOf_lt_of_mem_parts hp
  have hle := sizeOf_le_of_mem_nodes hx
  omega

theorem labelsAll_eq_flatMap (xs : List (Object C)) : labelsAll xs = xs.flatMap labels := by
  induction xs with
  | nil => rfl
  | cons x xs ih => simp [labelsAll, ih]

/-- The labels of an object are those of its nodes. -/
theorem mem_labels_iff {x : Object C} {l : Nat} :
    l ∈ x.labels ↔ ∃ y ∈ x.nodes, y.label? = some l := by
  induction x using parts_induction with
  | step x ih =>
    have hsplit : l ∈ x.labels ↔ x.label? = some l ∨ ∃ p ∈ x.parts, l ∈ p.labels := by
      cases x <;> simp [labels, label?, parts, labelsAll_eq_flatMap, eq_comm]
    rw [hsplit]
    constructor
    · rintro (h | ⟨p, hp, hl⟩)
      · exact ⟨x, mem_nodes_self x, h⟩
      · obtain ⟨y, hy, hyl⟩ := (ih p hp).mp hl
        exact ⟨y, mem_nodes_of_mem_parts hp hy, hyl⟩
    · rintro ⟨y, hy, hyl⟩
      rcases mem_nodes_iff.mp hy with rfl | ⟨p, hp, hyp⟩
      · exact Or.inl hyl
      · exact Or.inr ⟨p, hp, (ih p hp).mpr ⟨y, hyp, hyl⟩⟩

theorem writeAll_eq_map (new : Object C) (xs : List (Object C)) :
    writeAll new xs = xs.map (write new) := by
  induction xs with
  | nil => rfl
  | cons x xs ih => simp [writeAll, ih]

/-- An object keeps its label when another, or the object itself, is written. -/
@[simp] theorem label?_write (new x : Object C) : (write new x).label? = x.label? := by
  cases x <;> simp only [write] <;> split <;> simp_all [label?]

theorem write_of_label {new x : Object C} {l : Nat} (hn : new.label? = some l)
    (hx : x.label? = some l) : write new x = new := by
  cases x <;> simp_all [write, label?]

/-- The object `new` is written at `x`. -/
def Hits (new x : Object C) : Prop := ∃ l, new.label? = some l ∧ x.label? = some l

theorem parts_write {new x : Object C} (h : ¬ Hits new x) :
    (write new x).parts = x.parts.map (write new) := by
  cases x <;> simp_all [write, parts, label?, Hits, writeAll_eq_map]

/-- Only the object that is written gets a new content. -/
theorem content_write {new x : Object C} (h : ¬ Hits new x) :
    (write new x).content = x.content := by
  have hmap (xs : List (Object C)) : (xs.map (write new)).map label? = xs.map label? := by
    rw [List.map_map]
    exact List.map_congr_left fun y _ => label?_write new y
  have hne {l : Nat} (hl : x.label? = some l) : ¬ new.label? = some l := fun hn => h ⟨l, hn, hl⟩
  cases x with
  | present => rfl
  | int l | custom l => simp [write, hne rfl]
  | tuple l ts xs | vec l t xs => simp [write, hne rfl, content, writeAll_eq_map, hmap]

/-- What does not reach the object that is written stays as it is. -/
theorem write_eq_self {new x : Object C} (h : ∀ y ∈ x.nodes, ¬ Hits new y) :
    write new x = x := by
  induction x using parts_induction with
  | step x ih =>
    have hself := h x (mem_nodes_self x)
    have hmap : x.parts.map (write new) = x.parts := by
      rw [List.map_congr_left fun p hp => ih p hp fun y hy => h y (mem_nodes_of_mem_parts hp hy)]
      simp
    cases x <;> simp_all [write, label?, Hits, writeAll_eq_map, parts]

/-- The nodes after writing are those of the new object and the old ones with the new object
written to them. -/
theorem mem_nodes_write {new x y : Object C} (hy : y ∈ (write new x).nodes) :
    y ∈ new.nodes ∨ ∃ z ∈ x.nodes, y = write new z := by
  induction x using parts_induction with
  | step x ih =>
    by_cases hx : Hits new x
    · obtain ⟨l, hn, hl⟩ := hx
      rw [write_of_label hn hl] at hy
      exact Or.inl hy
    · rcases mem_nodes_iff.mp hy with rfl | ⟨p, hp, hyp⟩
      · exact Or.inr ⟨x, mem_nodes_self x, rfl⟩
      · rw [parts_write hx] at hp
        obtain ⟨q, hq, rfl⟩ := List.mem_map.mp hp
        rcases ih q hq hyp with hnew | ⟨z, hz, rfl⟩
        · exact Or.inl hnew
        · exact Or.inr ⟨z, mem_nodes_of_mem_parts hq hz, rfl⟩

end Object

end DiffAlgebra
