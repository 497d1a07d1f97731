import DiffAlgebra.Proofs.Sharing.Copies
import DiffAlgebra.Proofs.Sharing.Expressions

/-!
# The labels of data

Data other than objects carry labels as well. Whatever property the labels of a datum have, its
parts have it too; placing the datum, changing it in place and copying it make labels of which it is
known where they come from.
-/

namespace DiffAlgebra

variable {C : Catalog}

namespace Datum

def label? : Value C → Option Nat
  | list l _ | tuple l _ | record l _ | reference l _ | config l _ _ _ | violation l _ | report l _
  | mismatch l _ => some l
  | null | bool _ | int _ | real _ | text _ | bytes _ | type _ | diff _ => none

/-- All labels of a datum around its objects have a property. -/
inductive Labelled (P : Nat → Prop) : Value C → Prop where
  | intro {v : Value C} (own : ∀ l, v.label? = some l → P l)
      (members : ∀ u ∈ v.members, Labelled P u) : Labelled P v

variable {P Q : Nat → Prop} {u v w : Value C}

theorem labelled_iff :
    v.Labelled P ↔ (∀ l, v.label? = some l → P l) ∧ ∀ u ∈ v.members, u.Labelled P :=
  ⟨fun ⟨own, members⟩ => ⟨own, members⟩, fun ⟨own, members⟩ => .intro own members⟩

section Constructors

variable {l : Nat} {xs : List (Value C)}

@[simp] theorem labelled_list : (list l xs).Labelled P ↔ P l ∧ ∀ x ∈ xs, x.Labelled P := by
  rw [labelled_iff]
  simp [label?, members]

@[simp] theorem labelled_tuple : (tuple l xs).Labelled P ↔ P l ∧ ∀ x ∈ xs, x.Labelled P := by
  rw [labelled_iff]
  simp [label?, members]

@[simp] theorem labelled_config {c p : Bool} :
    (config l c p xs).Labelled P ↔ P l ∧ ∀ x ∈ xs, x.Labelled P := by
  rw [labelled_iff]
  simp [label?, members]

@[simp] theorem labelled_record {fs : List (String × Value C)} :
    (record l fs).Labelled P ↔ P l ∧ ∀ f ∈ fs, f.2.Labelled P := by
  rw [labelled_iff, members, List.forall_mem_map]
  simp [label?]

@[simp] theorem labelled_reference {t : DiffType C} :
    (reference l t : Value C).Labelled P ↔ P l := by
  rw [labelled_iff]
  simp [label?, members]

@[simp] theorem labelled_violation {v : LawViolation} :
    (violation l v : Value C).Labelled P ↔ P l := by
  rw [labelled_iff]
  simp [label?, members]

@[simp] theorem labelled_report {r : LawReport} : (report l r : Value C).Labelled P ↔ P l := by
  rw [labelled_iff]
  simp [label?, members]

@[simp] theorem labelled_mismatch {v : Contract.Violation} :
    (mismatch l v : Value C).Labelled P ↔ P l := by
  rw [labelled_iff]
  simp [label?, members]

theorem labelled_of_plain (hlabel : v.label? = none) (hmembers : v.members = []) :
    v.Labelled P := by
  rw [labelled_iff, hlabel, hmembers]
  simp

@[simp] theorem labelled_null : (null : Value C).Labelled P := labelled_of_plain rfl rfl

@[simp] theorem labelled_bool (b : Bool) : (bool b : Value C).Labelled P := labelled_of_plain rfl rfl

@[simp] theorem labelled_int (n : Int) : (int n : Value C).Labelled P := labelled_of_plain rfl rfl

@[simp] theorem labelled_real (x : Binary64) : (real x : Value C).Labelled P :=
  labelled_of_plain rfl rfl

@[simp] theorem labelled_text (s : String) : (text s : Value C).Labelled P :=
  labelled_of_plain rfl rfl

@[simp] theorem labelled_bytes (bs : List UInt8) : (bytes bs : Value C).Labelled P :=
  labelled_of_plain rfl rfl

@[simp] theorem labelled_type (c : Class C) : (type c : Value C).Labelled P :=
  labelled_of_plain rfl rfl

@[simp] theorem labelled_diff (x : Object C) : (diff x : Value C).Labelled P :=
  labelled_of_plain rfl rfl

end Constructors

theorem Labelled.mono (h : v.Labelled P) (hPQ : ∀ l, P l → Q l) : v.Labelled Q := by
  induction h with
  | intro own _ ih => exact .intro (fun l hl => hPQ l (own l hl)) ih

theorem Labelled.of_mem_members (h : v.Labelled P) (hu : u ∈ v.members) : u.Labelled P :=
  (labelled_iff.mp h).2 u hu

theorem Labelled.sequence (h : v.Labelled P) {vs : List (Value C)} (hvs : v.sequence = .ok vs) :
    ∀ u ∈ vs, u.Labelled P := by
  cases v with
  | list l xs | tuple l xs =>
    cases hvs
    exact fun u hu => h.of_mem_members hu
  | text | bytes =>
    cases hvs
    exact List.forall_mem_map.mpr fun _ _ => by simp
  | diff x =>
    simp only [Datum.sequence] at hvs
    split at hvs
    all_goals cases hvs
    all_goals exact List.forall_mem_map.mpr fun _ _ => by simp
  | _ => cases hvs

theorem Labelled.items (h : v.Labelled P) (hzero : P 0) {vs : List (Value C)}
    (hvs : v.items = .ok vs) : ∀ u ∈ vs, u.Labelled P := by
  cases v with
  | record l fs =>
    cases hvs
    exact List.forall_mem_map.mpr fun _ _ => by simp
  | config | violation | report =>
    cases hvs
    simp_all [named]
  | list | tuple | text | bytes | diff => exact h.sequence hvs
  | _ => cases hvs

theorem Labelled.reversed (h : v.Labelled P) (hzero : P 0) {vs : List (Value C)}
    (hvs : v.reversed = .ok vs) : ∀ u ∈ vs, u.Labelled P := by
  unfold Datum.reversed at hvs
  split at hvs
  all_goals
    obtain ⟨us, hus, hvs⟩ := bind_eq_ok.mp hvs
    cases hvs
    intro u hu
  · exact h.items hzero hus u (List.mem_reverse.mp hu)
  · exact h.sequence hus u (List.mem_reverse.mp hu)

theorem Labelled.item (h : v.Labelled P) {i : Value C} (hw : v.item i = .ok w) :
    w.Labelled P := by
  unfold Datum.item at hw
  split at hw
  next l fs =>
    split at hw
    · split at hw
      next hfield =>
        cases hw
        exact h.of_mem_members (lookupField_mem hfield)
      · cases hw
    · split at hw <;> cases hw
  · split at hw
    · cases hw
    next xs hxs =>
      obtain ⟨n, _, hw⟩ := bind_eq_ok.mp hw
      exact h.sequence hxs w (itemAt_mem hw)

theorem issue_property {l next : Nat} (hl : P l) (hold : ∀ l, P l → l ≠ 0 → Q l)
    (hnew : ∀ k, next ≤ k → k < (issue l next).2 → Q k) : Q (issue l next).1 := by
  by_cases hzero : l = 0
  · have hissue : issue l next = (next, next + 1) := if_pos hzero
    rw [hissue] at hnew ⊢
    exact hnew next (Nat.le_refl _) (Nat.lt_succ_self _)
  · have hissue : issue l next = (l, next) := if_neg hzero
    rw [hissue]
    exact hold l hl hzero

mutual

/-- A datum that is placed keeps its labels, and gets new ones in place of none. -/
theorem Labelled.settle : (v : Value C) → {next : Nat} → v.Labelled P →
    (∀ l, P l → l ≠ 0 → Q l) → (∀ l, next ≤ l → l < (settle v next).2 → Q l) →
    (settle v next).1.Labelled Q
  | list l xs, next, h, hold, hnew => by
    have ⟨hl, hxs⟩ := labelled_list.mp h
    refine labelled_list.mpr ⟨issue_property hl hold fun k hk hlt => ?_, ?_⟩
    · exact hnew k hk (hlt.trans_le (le_settleAll xs _))
    · exact Labelled.settleAll xs hxs hold fun k hk => hnew k ((le_issue l next).trans hk)
  | tuple l xs, next, h, hold, hnew => by
    have ⟨hl, hxs⟩ := labelled_tuple.mp h
    refine labelled_tuple.mpr ⟨issue_property hl hold fun k hk hlt => ?_, ?_⟩
    · exact hnew k hk (hlt.trans_le (le_settleAll xs _))
    · exact Labelled.settleAll xs hxs hold fun k hk => hnew k ((le_issue l next).trans hk)
  | config l c p xs, next, h, hold, hnew => by
    have ⟨hl, hxs⟩ := labelled_config.mp h
    refine labelled_config.mpr ⟨issue_property hl hold fun k hk hlt => ?_, ?_⟩
    · exact hnew k hk (hlt.trans_le (le_settleAll xs _))
    · exact Labelled.settleAll xs hxs hold fun k hk => hnew k ((le_issue l next).trans hk)
  | record l fs, next, h, hold, hnew => by
    have ⟨hl, hfs⟩ := labelled_record.mp h
    refine labelled_record.mpr ⟨issue_property hl hold fun k hk hlt => ?_, ?_⟩
    · exact hnew k hk (hlt.trans_le (le_settleFields fs _))
    · exact Labelled.settleFields fs hfs hold fun k hk => hnew k ((le_issue l next).trans hk)
  | reference l t, _, h, hold, hnew =>
    labelled_reference.mpr (issue_property (labelled_reference.mp h) hold hnew)
  | violation l v, _, h, hold, hnew =>
    labelled_violation.mpr (issue_property (labelled_violation.mp h) hold hnew)
  | report l r, _, h, hold, hnew =>
    labelled_report.mpr (issue_property (labelled_report.mp h) hold hnew)
  | mismatch l v, _, h, hold, hnew =>
    labelled_mismatch.mpr (issue_property (labelled_mismatch.mp h) hold hnew)
  | null, _, _, _, _ | bool _, _, _, _, _ | int _, _, _, _, _ | real _, _, _, _, _
  | text _, _, _, _, _ | bytes _, _, _, _, _ | type _, _, _, _, _ | diff _, _, _, _, _ =>
    labelled_of_plain rfl rfl

theorem Labelled.settleAll : (vs : List (Value C)) → {next : Nat} → (∀ v ∈ vs, v.Labelled P) →
    (∀ l, P l → l ≠ 0 → Q l) → (∀ l, next ≤ l → l < (settleAll vs next).2 → Q l) →
    ∀ v ∈ (settleAll vs next).1, v.Labelled Q
  | [], _, _, _, _ => by simp [Datum.settleAll]
  | v :: vs, next, h, hold, hnew => by
    obtain ⟨hv, hvs⟩ := List.forall_mem_cons.mp h
    refine List.forall_mem_cons.mpr ⟨?_, ?_⟩
    · exact Labelled.settle v hv hold fun k hk hlt =>
        hnew k hk (hlt.trans_le (le_settleAll vs _))
    · exact Labelled.settleAll vs hvs hold fun k hk => hnew k ((le_settle v next).trans hk)

theorem Labelled.settleFields : (fs : List (String × Value C)) → {next : Nat} →
    (∀ f ∈ fs, f.2.Labelled P) → (∀ l, P l → l ≠ 0 → Q l) →
    (∀ l, next ≤ l → l < (settleFields fs next).2 → Q l) →
    ∀ f ∈ (settleFields fs next).1, f.2.Labelled Q
  | [], _, _, _, _ => by simp [Datum.settleFields]
  | (k, v) :: fs, next, h, hold, hnew => by
    obtain ⟨hv, hfs⟩ := List.forall_mem_cons.mp h
    refine List.forall_mem_cons.mpr ⟨?_, ?_⟩
    · exact Labelled.settle v hv hold fun k hk hlt =>
        hnew k hk (hlt.trans_le (le_settleFields fs _))
    · exact Labelled.settleFields fs hfs hold fun k hk => hnew k ((le_settle v next).trans hk)

end

/-- A duplicate has the labels of the datum, moved by the distance where they are not kept. -/
theorem Labelled.duplicate {rule : CopyRule C} {d : Nat} (h : v.Labelled P)
    (hu : duplicate rule d v = .ok u) (hkept : ∀ l, P l → Q l) (hmoved : ∀ l, P l → Q (l + d)) :
    u.Labelled Q := by
  induction h generalizing u with
  | @intro v own members ih =>
    have hall {xs ys : List (Value C)} (hxs : xs = v.members)
        (hys : duplicateAll rule d xs = .ok ys) : ∀ y ∈ ys, y.Labelled Q := by
      intro y hy
      rw [duplicateAll_eq_mapM] at hys
      obtain ⟨x, hx, hxy⟩ := exists_of_mem_mapM hys hy
      exact ih x (hxs ▸ hx) hxy
    cases v with
    | list l xs =>
      obtain ⟨ys, hys, hu⟩ := bind_eq_ok.mp hu
      cases hu
      exact labelled_list.mpr ⟨hmoved l (own l rfl), hall rfl hys⟩
    | tuple l xs =>
      obtain ⟨ys, hys, hu⟩ := bind_eq_ok.mp hu
      cases hu
      refine labelled_tuple.mpr ⟨?_, hall rfl hys⟩
      split
      · exact hkept l (own l rfl)
      · exact hmoved l (own l rfl)
    | config l c p xs =>
      obtain ⟨ys, hys, hu⟩ := bind_eq_ok.mp hu
      cases hu
      exact labelled_config.mpr ⟨hmoved l (own l rfl), hall rfl hys⟩
    | record l fs =>
      obtain ⟨gs, hgs, hu⟩ := bind_eq_ok.mp hu
      cases hu
      refine labelled_record.mpr ⟨hmoved l (own l rfl), fun g hg => ?_⟩
      obtain ⟨x, hx, hxg⟩ := exists_of_mem_duplicateFields hgs (List.mem_map_of_mem hg)
      exact ih x hx hxg
    | violation l | report l | mismatch l =>
      cases hu
      simpa using hmoved l (own l rfl)
    | type c =>
      simp only [Datum.duplicate] at hu
      split at hu
      · cases hu
        simp
      · cases hu
    | reference l t | diff x =>
      obtain ⟨_, _, hu⟩ := bind_eq_ok.mp hu
      cases hu
      simp
    | _ =>
      cases hu
      exact labelled_of_plain rfl rfl

end Datum

def Write.Labelled (P : Nat → Prop) : Write C → Prop
  | .object _ => True
  | .list _ items => ∀ v ∈ items, v.Labelled P

namespace Datum

variable {P Q : Nat → Prop} {u v : Value C}

theorem Labelled.write (h : v.Labelled P) {w : Write C} (hw : w.Labelled P) :
    (v.write w).Labelled P := by
  induction h with
  | @intro v own members ih =>
    have hall : ∀ y ∈ v.members.map (Datum.write w), y.Labelled P := List.forall_mem_map.mpr ih
    cases v with
    | list l xs =>
      cases w with
      | object new =>
        rw [Datum.write, writeAll_eq_map]
        exact labelled_list.mpr ⟨own l rfl, hall⟩
      | list m ys =>
        rw [Datum.write]
        split
        · exact labelled_list.mpr ⟨own l rfl, hw⟩
        · rw [writeAll_eq_map]
          exact labelled_list.mpr ⟨own l rfl, hall⟩
    | tuple l xs =>
      rw [Datum.write, writeAll_eq_map]
      exact labelled_tuple.mpr ⟨own l rfl, hall⟩
    | config l c p xs =>
      rw [Datum.write, writeAll_eq_map]
      exact labelled_config.mpr ⟨own l rfl, hall⟩
    | record l fs =>
      rw [Datum.write, writeFields_eq_map, labelled_record]
      refine ⟨own l rfl, List.forall_mem_map.mpr fun f hf => ?_⟩
      exact ih f.2 (List.mem_map_of_mem hf)
    | diff x => cases w <;> simp [Datum.write]
    | reference l | violation l | report l | mismatch l => simpa [Datum.write] using own l rfl
    | _ => exact labelled_of_plain rfl rfl

theorem Labelled.writes (h : v.Labelled P) {ws : List (Write C)} (hws : ∀ w ∈ ws, w.Labelled P) :
    (v.writes ws).Labelled P := by
  induction ws generalizing v with
  | nil => exact h
  | cons w ws ih =>
    obtain ⟨hw, hws⟩ := List.forall_mem_cons.mp hws
    exact ih (h.write hw) hws

/-- All labels of a datum around its objects have been handed out, or are none. -/
def Below (n : Nat) (v : Value C) : Prop := v.Labelled (· < n)

theorem Below.mono {m n : Nat} (h : v.Below m) (hle : m ≤ n) : v.Below n :=
  Labelled.mono h fun _ hl => hl.trans_le hle

/-- A datum that has not been placed yet: what would have a label has none. -/
abbrev Unplaced (v : Value C) : Prop := v.Labelled (· = 0)

theorem Unplaced.below {n : Nat} (h : v.Unplaced) (hn : 0 < n) : v.Below n :=
  Labelled.mono h fun l hl => by omega

theorem Below.settle {next : Nat} (h : v.Below next) :
    (v.settle next).1.Below (v.settle next).2 :=
  Labelled.settle v h (fun _ hl _ => hl.trans_le (le_settle v next)) fun _ _ hl => hl

theorem Below.settleAll {vs : List (Value C)} {next : Nat} (h : ∀ v ∈ vs, v.Below next) :
    ∀ v ∈ (settleAll vs next).1, v.Below (settleAll vs next).2 :=
  Labelled.settleAll vs h (fun _ hl _ => hl.trans_le (le_settleAll vs next)) fun _ _ hl => hl

theorem Below.duplicate {rule : CopyRule C} {next : Nat} (h : v.Below next)
    (hu : Datum.duplicate rule next v = .ok u) : u.Below (next + next) :=
  Labelled.duplicate h hu (fun l hl => by omega) fun l hl => by omega

theorem Below.deepCopy {next last : Nat} (h : v.Below next)
    (hu : v.deepCopy next = .ok (u, last)) : next ≤ last ∧ u.Below last := by
  obtain ⟨w, hw, hu⟩ := bind_eq_ok.mp hu
  cases hu
  exact ⟨by omega, h.duplicate hw⟩

theorem Below.archive {next last : Nat} (h : v.Below next)
    (hu : v.archive next = .ok (u, last)) : next ≤ last ∧ u.Below last := by
  obtain ⟨w, hw, hu⟩ := bind_eq_ok.mp hu
  cases hu
  exact ⟨by omega, h.duplicate hw⟩

/-- A shallow copy has a new label and holds the members of the datum. -/
theorem Below.copy {next last : Nat} (h : v.Below next) (hu : v.copy next = .ok (u, last)) :
    next ≤ last ∧ u.Below last := by
  have hmembers {w : Value C} (hw : w ∈ v.members) : w.Below (next + 1) :=
    Below.mono (Labelled.of_mem_members h hw) (Nat.le_succ _)
  cases v with
  | list l xs =>
    cases hu
    exact ⟨Nat.le_succ _, labelled_list.mpr ⟨Nat.lt_succ_self _, fun x hx => hmembers hx⟩⟩
  | config l c p xs =>
    cases hu
    exact ⟨Nat.le_succ _, labelled_config.mpr ⟨Nat.lt_succ_self _, fun x hx => hmembers hx⟩⟩
  | record l fs =>
    cases hu
    exact ⟨Nat.le_succ _, labelled_record.mpr ⟨Nat.lt_succ_self _, fun f hf =>
      hmembers (List.mem_map_of_mem hf)⟩⟩
  | violation | report | mismatch =>
    cases hu
    exact ⟨Nat.le_succ _, by simp [Below]⟩
  | reference l t =>
    obtain ⟨_, _, hu⟩ := bind_eq_ok.mp hu
    cases hu
    exact ⟨Nat.le_refl _, by simp [Below]⟩
  | diff x =>
    obtain ⟨⟨y, m⟩, hy, hu⟩ := bind_eq_ok.mp hu
    cases hu
    obtain ⟨z, -, hy⟩ := bind_eq_ok.mp hy
    refine ⟨?_, by simp [Below]⟩
    cases z <;> cases hy <;> omega
  | _ =>
    cases hu
    exact ⟨Nat.le_refl _, h⟩

end Datum

end DiffAlgebra
