import DiffAlgebra.Proofs.Sharing.Labels
import DiffAlgebra.Proofs.Sharing.Outcomes
import DiffAlgebra.Session.Run

/-!
# Bare results

Descriptions, JSON forms and what is said about data hold no objects, and they get no labels until
the outcome that holds them is settled.
-/

namespace DiffAlgebra

variable {C : Catalog}

namespace Datum

/-- A datum that holds no objects and has not been placed yet. -/
structure Bare (v : Value C) : Prop where
  nodes_eq : v.nodes = []
  unplaced : v.Unplaced

section Constructors

variable {l : Nat} {v : Value C} {xs : List (Value C)}

/-- A datum other than an object is bare if it has no label and its members are bare. -/
theorem bare_iff (hdiff : ∀ x, v ≠ diff x) :
    v.Bare ↔ (∀ l, v.label? = some l → l = 0) ∧ ∀ u ∈ v.members, u.Bare := by
  constructor
  · intro ⟨hnodes, hlabels⟩
    refine ⟨(labelled_iff.mp hlabels).1, fun u hu => ⟨?_, hlabels.of_mem_members hu⟩⟩
    exact List.subset_nil.mp (hnodes ▸ nodes_subset_of_mem_members hu)
  · intro ⟨hlabel, hmembers⟩
    refine ⟨?_, labelled_iff.mpr ⟨hlabel, fun u hu => (hmembers u hu).unplaced⟩⟩
    rw [nodes_eq_nodesAll_members hdiff]
    exact List.subset_nil.mp (nodesAll_subset fun u hu => by simp [(hmembers u hu).nodes_eq])

theorem bare_of_plain (hnodes : v.nodes = []) (hlabel : v.label? = none)
    (hmembers : v.members = []) : v.Bare :=
  ⟨hnodes, labelled_of_plain hlabel hmembers⟩

@[simp] theorem bare_null : (null : Value C).Bare := bare_of_plain rfl rfl rfl

@[simp] theorem bare_bool (b : Bool) : (bool b : Value C).Bare := bare_of_plain rfl rfl rfl

@[simp] theorem bare_int (n : Int) : (int n : Value C).Bare := bare_of_plain rfl rfl rfl

@[simp] theorem bare_text (s : String) : (text s : Value C).Bare := bare_of_plain rfl rfl rfl

@[simp] theorem bare_bytes (bs : List UInt8) : (bytes bs : Value C).Bare :=
  bare_of_plain rfl rfl rfl

@[simp] theorem bare_type (c : Class C) : (type c : Value C).Bare := bare_of_plain rfl rfl rfl

@[simp] theorem bare_list : (list l xs).Bare ↔ l = 0 ∧ ∀ x ∈ xs, x.Bare := by
  simp [bare_iff, label?, members]

@[simp] theorem bare_tuple : (tuple l xs).Bare ↔ l = 0 ∧ ∀ x ∈ xs, x.Bare := by
  simp [bare_iff, label?, members]

@[simp] theorem bare_record {fs : List (String × Value C)} :
    (record l fs).Bare ↔ l = 0 ∧ ∀ f ∈ fs, f.2.Bare := by
  rw [bare_iff, members, List.forall_mem_map]
  · simp [label?]
  · simp

@[simp] theorem bare_reference {t : DiffType C} : (reference l t : Value C).Bare ↔ l = 0 := by
  simp [bare_iff, label?, members]

@[simp] theorem bare_violation {v : LawViolation} : (violation l v : Value C).Bare ↔ l = 0 := by
  simp [bare_iff, label?, members]

@[simp] theorem bare_report {r : LawReport} : (report l r : Value C).Bare ↔ l = 0 := by
  simp [bare_iff, label?, members]

@[simp] theorem bare_mismatch {v : Contract.Violation} :
    (mismatch l v : Value C).Bare ↔ l = 0 := by
  simp [bare_iff, label?, members]

end Constructors

theorem nodesAll_of_bare {vs : List (Value C)} (h : ∀ v ∈ vs, v.Bare) : nodesAll vs = [] :=
  List.subset_nil.mp (nodesAll_subset fun v hv => by simp [(h v hv).nodes_eq])

theorem bare_words (ws : List String) : (words ws : Value C).Bare :=
  bare_list.mpr ⟨rfl, List.forall_mem_map.mpr fun _ _ => bare_text _⟩

theorem bare_orNull {α : Type} {f : α → Value C} (hf : ∀ a, (f a).Bare) (o : Option α) :
    (orNull f o).Bare := by
  cases o with
  | none => exact bare_null
  | some a => exact hf a

theorem Comparison.bare_toRecord (c : Comparison) : (c.toRecord : Value C).Bare := by
  obtain ⟨_, lt, le, gt, ge⟩ := c
  cases lt <;> cases le <;> cases gt <;> cases ge <;> simp [Comparison.toRecord]

end Datum

theorem Class.Info.bare_toRecord (i : Class.Info) : (i.toRecord : Value C).Bare := by
  have hbool := Datum.bare_orNull (f := .bool (C := C) (δ := Object C)) Datum.bare_bool
  have hint := Datum.bare_orNull (f := .int (C := C) (δ := Object C)) Datum.bare_int
  have hnat := Datum.bare_orNull (f := fun n : Nat => .int (C := C) (δ := Object C) n) fun _ =>
    Datum.bare_int _
  have htext := Datum.bare_orNull (f := .text (C := C) (δ := Object C)) Datum.bare_text
  have hwords := Datum.bare_orNull (f := Datum.words (C := C) (δ := Object C)) Datum.bare_words
  simp [Class.Info.toRecord, Datum.bare_words, hbool, hint, hnat, htext, hwords]

namespace Contract.Document

open Datum (bare_list bare_record)

mutual

theorem bare_toDatum : (d : Document) → (toDatum d : Value C).Bare
  | word _ | number _ => Datum.bare_of_plain rfl rfl rfl
  | array ds => bare_list.mpr ⟨rfl, bare_toData ds⟩
  | object fs => bare_record.mpr ⟨rfl, bare_toFields fs⟩

theorem bare_toData : (ds : List Document) → ∀ v ∈ (toData ds : List (Value C)), v.Bare
  | [] => by simp [toData]
  | d :: ds => List.forall_mem_cons.mpr ⟨bare_toDatum d, bare_toData ds⟩

theorem bare_toFields : (fs : List (String × Document)) →
    ∀ f ∈ (toFields fs : List (String × Value C)), f.2.Bare
  | [] => by simp [toFields]
  | (_, d) :: fs => List.forall_mem_cons.mpr ⟨bare_toDatum d, bare_toFields fs⟩

end

end Contract.Document

namespace Diff

mutual

theorem bare_toForm : (x : Diff C) → {v : Value C} → x.toForm = .ok v → v.Bare
  | int _ _, _, h | present, _, h => by
    cases h
    exact Datum.bare_of_plain rfl rfl rfl
  | custom _ _, _, h => by cases h
  | tuple _ xs, _, h | vec _ xs, _, h => by
    obtain ⟨vs, hvs, h⟩ := bind_eq_ok.mp h
    cases h
    exact Datum.bare_list.mpr ⟨rfl, bare_toForms xs hvs⟩

theorem bare_toForms : (xs : List (Diff C)) → {vs : List (Value C)} → toForms xs = .ok vs →
    ∀ v ∈ vs, v.Bare
  | [], _, h => by
    cases h
    simp
  | x :: xs, _, h => by
    obtain ⟨v, hv, h⟩ := bind_eq_ok.mp h
    obtain ⟨vs, hvs, h⟩ := bind_eq_ok.mp h
    cases h
    exact List.forall_mem_cons.mpr ⟨bare_toForm x hv, bare_toForms xs hvs⟩

end

end Diff

namespace Returns

variable {r : Except Fault (Value C)}

theorem plain (h : Returns Datum.Bare r) : Outcome.Plain r := fun v hv => (h v hv).nodes_eq

theorem unplaced (h : Returns Datum.Bare r) : Returns Datum.Unplaced r :=
  h.mono fun _ hv => hv.unplaced

end Returns

namespace Session

open Datum (Bare)

theorem bare_constants : (constants : Value C).Bare := by
  simp [constants, Datum.bare_words]

theorem bare_lawValue (v : Option LawViolation) : (lawValue v : Value C).Bare := by
  cases v <;> simp [lawValue]

theorem bare_violations {l data : Value C} {vs : List (Value C)}
    (h : violations l data = .ok vs) : ∀ v ∈ vs, v.Bare := by
  obtain ⟨_, _, h⟩ := bind_eq_ok.mp h
  obtain ⟨_, _, h⟩ := bind_eq_ok.mp h
  cases h
  exact List.forall_mem_map.mpr fun _ _ => Datum.bare_mismatch.mpr rfl

theorem bare_isZero (x : Value C) : Returns Bare (isZero x) :=
  .bind (fun _ => .ok (Datum.bare_bool _)) _

theorem bare_typeInfo (x : Value C) : Returns Bare (typeInfo x) := by
  cases x with
  | type c => exact .ok c.info.bare_toRecord
  | _ => exact .error _

theorem bare_typeReference (t : DiffType C) :
    Returns Bare (typeReference t : Except Fault (Value C)) := by
  unfold typeReference
  split
  · exact .ok (Datum.bare_type _)
  · refine .bind (fun _ => .ok ?_) _
    exact Datum.bare_reference.mpr rfl

theorem bare_encode (x : Value C) : Returns Bare (encode x) := by
  cases x with
  | diff => exact .bind (fun _ => .ok (Datum.bare_bytes _)) _
  | _ => exact .error _

theorem bare_encodedSize (x : Value C) : Returns Bare (encodedSize x) := by
  cases x with
  | diff => exact .bind (fun _ => .ok (Datum.bare_int _)) _
  | _ => exact .error _

theorem bare_toForm (x : Value C) : Returns Bare (toForm x) := by
  cases x with
  | diff o => exact fun _ hv => o.value.bare_toForm hv
  | _ => exact .error _

private theorem bare_indexInSequence (v start : Value C) (xs : List (Value C))
    (stop : Option Datum.Number) : Returns Bare (Datum.indexInSequence v xs start stop) := by
  unfold Datum.indexInSequence
  dsimp only
  split
  · refine .bind (fun i => ?_) _
    split
    · split <;> exact .ok (Datum.bare_of_plain rfl rfl rfl)
    · exact .ok (Datum.bare_int _)
  · split
    · exact .bind (fun _ => .ok (Datum.bare_int _)) _
    · split
      · split <;> split <;> exact .error _
      · exact .error _
  · exact .error _

theorem bare_index (x v : Value C) (bounds : List (Value C)) :
    Returns Bare (x.index v bounds) := by
  have hint (n : Int) : Returns Bare (.ok (.int n : Value C)) := .ok (Datum.bare_int n)
  unfold Datum.index
  split
  · exact .bind (fun _ => .bind (fun _ => .bind (fun _ => hint _) _) _) _
  · exact .bind (fun _ => .bind (fun _ => .bind (fun _ => hint _) _) _) _
  · exact .bind (fun _ => .bind (fun _ => bare_indexInSequence _ _ _ _) _) _
  · exact .bind (fun _ => .bind (fun _ => .bind (fun _ => hint _) _) _) _

end Session

end DiffAlgebra
