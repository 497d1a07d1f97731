import DiffAlgebra.Proofs.Addition.Totals
import DiffAlgebra.Proofs.Sharing.Changes
import DiffAlgebra.Session.Arithmetic
import DiffAlgebra.Specimens

/-!
# Accumulation in groups

Values are accumulated in groups, the totals of the groups in groups again, and so on. Neither the
order of the values nor the grouping matters to a total that is reached. Without trapping signed
integers they do not matter to whether it is reached either: the columns decide.
-/

namespace DiffAlgebra

variable {C : Catalog}

/-- A way to accumulate values: a value by itself, or groups whose totals are accumulated. -/
inductive Grouping (α : Type) where
  | single (x : α)
  | group (first : Grouping α) (rest : List (Grouping α))

namespace Grouping

mutual

def leaves {α : Type} : Grouping α → List α
  | single x => [x]
  | group g gs => leaves g ++ leavesAll gs

def leavesAll {α : Type} : List (Grouping α) → List α
  | [] => []
  | g :: gs => leaves g ++ leavesAll gs

end

theorem leaves_ne_nil {α : Type} : (g : Grouping α) → g.leaves ≠ []
  | single x => by simp [leaves]
  | group g gs => by simp [leaves, leaves_ne_nil g]

def accumulateNow (xs : List (Object C)) : UpdateM C (Object C) := fun s =>
  let (r, t) := (Object.accumulate (xs.map fun x => .diff (x.after s.changes))).run ⟨[], s.next⟩
  (r, ⟨s.changes ++ t.changes, t.next⟩)

mutual

def accumulate : Grouping (Object C) → UpdateM C (Object C)
  | single x => return x
  | group g gs => do
    let x ← accumulate g
    let xs ← accumulateAll gs
    accumulateNow (x :: xs)

def accumulateAll : List (Grouping (Object C)) → UpdateM C (List (Object C))
  | [] => return []
  | g :: gs => do
    let x ← accumulate g
    let xs ← accumulateAll gs
    return x :: xs

end

theorem inPlace_accumulate_singles (x : Object C) (xs : List (Object C)) (l next : Nat) :
    Session.inPlace (group (single x) (xs.map single)).accumulate .diff next =
      Session.accumulate (.list l ((x :: xs).map .diff)) next := by
  have hsingles (ys : List (Object C)) : accumulateAll (ys.map single) = pure ys := by
    induction ys with
    | nil => rfl
    | cons y ys ih => simp [accumulateAll, accumulate, ih]
  have hgroup : (group (single x) (xs.map single)).accumulate = accumulateNow (x :: xs) := by
    simp [accumulate, hsingles]
  rw [hgroup]
  rfl

open Object (after value)
open Progress (Extends)

/-- The objects that an object is made of by now have labels that have been handed out. -/
def Known (s : Progress C) (x : Object C) : Prop := ∀ l ∈ (x.after s.changes).labels, l < s.next

def valuesAt (s : Progress C) (xs : List (Object C)) : List (Diff C) :=
  xs.map fun x => (x.after s.changes).value

section Progress

variable {s u : Progress C} {x : Object C} {xs : List (Object C)}

theorem Known.after_eq (h : Known s x) (hext : Extends [] s u) :
    x.after u.changes = x.after s.changes := by
  obtain ⟨cs, hcs, hnew⟩ := hext.changes
  rw [hcs, Object.after_append]
  refine Object.after_eq_self fun c hc l hcl hl => ?_
  have hlt := h l hl
  have hle := (hnew c hc l hcl).resolve_left List.not_mem_nil
  omega

theorem Known.extends (h : Known s x) (hext : Extends [] s u) : Known u x := by
  intro l hl
  rw [h.after_eq hext] at hl
  exact (h l hl).trans_le hext.le

private theorem settled_of_known (h : ∀ x ∈ xs, Known s x) :
    Progress.Settled ⟨[], s.next⟩
      (Datum.nodesAll (xs.map fun x => .diff (x.after s.changes))) := by
  refine ⟨fun hy hl => ?_, fun _ _ hc => absurd hc List.not_mem_nil⟩
  obtain ⟨v, hv, hyv⟩ := Datum.mem_nodesAll.mp hy
  obtain ⟨x, hx, rfl⟩ := List.mem_map.mp hv
  exact h x hx _ (Object.mem_labels_iff.mpr ⟨_, hyv, hl⟩)

end Progress

open Diff (Shaped mergeList ColumnsFit)

def AllExact (t : DiffType C) (ds : List (Diff C)) : Prop := ∀ d ∈ ds, Shaped IntKind.Holds t d

/-- An overflow, which does not occur if no integer of the type is of a trapping signed kind and the
columns of the values fit. -/
def Overflows (t : DiffType C) (ds : List (Diff C)) (f : Fault) : Prop :=
  f.kind = .overflow ∧ (t.Over (·.family ≠ .signed) → ¬ ColumnsFit ds)

/-- What an accumulation comes to: an object whose value is the exact merge of the values, or an
overflow. -/
def ResultOf (t : DiffType C) (ds : List (Diff C)) (r : Except Fault (Object C))
    (s : Progress C) : Prop :=
  (∃ x, r = .ok x ∧ x.after s.changes = x ∧ Known s x ∧ mergeList ds = some x.value ∧
    Shaped IntKind.Holds t x.value) ∨
  ∃ f, r = .error f ∧ Overflows t ds f

def ResultsOf (t : DiffType C) (ds : List (Diff C)) (r : Except Fault (List (Object C)))
    (s : Progress C) : Prop :=
  (∃ xs, r = .ok xs ∧ (∀ x ∈ xs, Known s x) ∧ mergeList (valuesAt s xs) = mergeList ds ∧
    AllExact t (valuesAt s xs)) ∨
  ∃ f, r = .error f ∧ Overflows t ds f

variable {t : DiffType C} {d : Diff C} {ds es fs : List (Diff C)}

private theorem allExact_append : AllExact t (ds ++ es) ↔ AllExact t ds ∧ AllExact t es := by
  simp [AllExact, or_imp, forall_and]

theorem AllExact.bounded (h : AllExact t ds) (ht : t.Over (·.family ≠ .signed)) :
    ∀ d ∈ ds, Shaped Diff.Bounded t d :=
  fun d hd => (h d hd).bounded ht

/-- What overflows in a part overflows in the whole: its columns do not fit either. -/
theorem Overflows.append_left {f : Fault} (h : Overflows t ds f) (hds : AllExact t ds)
    (hes : AllExact t es) : Overflows t (ds ++ es) f := by
  refine ⟨h.1, fun ht hfit => h.2 ht ?_⟩
  exact (hfit.of_append (hds.bounded ht) (hes.bounded ht)).1

private theorem Overflows.append_right {f : Fault} (h : Overflows t es f) (hds : AllExact t ds)
    (hes : AllExact t es) : Overflows t (ds ++ es) f := by
  refine ⟨h.1, fun ht hfit => h.2 ht ?_⟩
  exact (hfit.of_append (hds.bounded ht) (hes.bounded ht)).2

theorem ResultOf.congr {r : Except Fault (Object C)} {s : Progress C} (h : ResultOf t ds r s)
    (hds : AllExact t ds) (hes : AllExact t es) (hmerge : mergeList ds = mergeList es) :
    ResultOf t es r s := by
  rcases h with ⟨x, hx, hafter, hknown, hmerge', hshape⟩ | ⟨f, hf, hkind, hfit⟩
  · exact Or.inl ⟨x, hx, hafter, hknown, hmerge.symm.trans hmerge', hshape⟩
  · exact Or.inr ⟨f, hf, hkind, fun ht hfit' => hfit ht (hfit'.congr hes hds hmerge.symm)⟩

/-- The total of a group and those of further groups merge as all their values do. -/
theorem mergeList_totals (hds : AllExact t ds) (hes : AllExact t es)
    (hd : mergeList ds = some d) (hfs : mergeList fs = mergeList es) :
    mergeList (d :: fs) = mergeList (ds ++ es) := by
  rw [Diff.mergeList_append hds hes, hd, mergeList, hfs]

variable {s : Progress C}

/-- Accumulating objects comes to the merge of the values that they have by now. -/
theorem run_accumulateNow {x : Object C} {xs : List (Object C)} (hs : s.Valid)
    (hknown : ∀ y ∈ x :: xs, Known s y) (h : AllExact t (valuesAt s (x :: xs))) :
    ∃ r u, (accumulateNow (x :: xs)).run s = (r, u) ∧ Extends [] s u ∧
      ResultOf t (valuesAt s (x :: xs)) r u := by
  obtain ⟨u, hext, hresult⟩ := Object.run_accumulate
    ((x :: xs).map fun y => .diff (y.after s.changes)) (Progress.valid_start s.next)
    (settled_of_known hknown)
  have hvalues : ((x :: xs).map fun y => (.diff (y.after s.changes) : Value C)).map Datum.values =
      (valuesAt s (x :: xs)).map .diff := by
    simp only [valuesAt, List.map_map]
    rfl
  have htotal : Diff.TotalOf t (valuesAt s (x :: xs))
      (Diff.accumulate ((valuesAt s (x :: xs)).map .diff)) :=
    Diff.totalOf_accumulate (h _ List.mem_cons_self) fun d hd => h d (List.mem_cons_of_mem _ hd)
  rw [← hvalues] at htotal
  have hrun : (accumulateNow (x :: xs)).run s =
      let (r, t) := (Object.accumulate ((x :: xs).map fun y => .diff (y.after s.changes))).run
        ⟨[], s.next⟩
      (r, ⟨s.changes ++ t.changes, t.next⟩) := rfl
  have hext' : Extends [] s ⟨s.changes ++ u.changes, u.next⟩ := by
    obtain ⟨cs, hcs, hnew⟩ := hext.changes
    exact ⟨hext.le, cs, by simp [hcs], hnew⟩
  rw [hrun]
  rcases hresult with ⟨f, hf, hrun⟩ | ⟨z, hz, hrun, hafter, hown⟩
  · rw [hrun]
    refine ⟨_, _, rfl, hext', Or.inr ⟨f, rfl, ?_⟩⟩
    rcases htotal with ⟨w, hw, _⟩ | ⟨g, hg, hfault⟩
    · exact nomatch hf.symm.trans hw
    · cases hf.symm.trans hg
      exact hfault
  · rw [hrun]
    have hnew : z.after s.changes = z := by
      refine Object.after_eq_self fun c hc l hcl hl => ?_
      exact absurd (hs c hc l hcl) (Nat.not_lt.mpr (hown.mem l hl).1)
    have hafter : z.after (s.changes ++ u.changes) = z := by
      rw [Object.after_append, hnew, hafter]
    rcases htotal with ⟨w, hw, hmerge, hshape⟩ | ⟨g, hg, _⟩
    · cases hz.symm.trans hw
      refine ⟨_, _, rfl, hext', Or.inl ⟨z, rfl, hafter, fun l hl => ?_, hmerge, hshape⟩⟩
      rw [hafter] at hl
      exact (hown.mem l hl).2
    · exact nomatch hz.symm.trans hg

/-- What a grouping comes to, from wherever its leaves are settled. -/
def Totals (t : DiffType C) (g : Grouping (Object C)) : Prop :=
  ∀ {s : Progress C}, s.Valid → s.Settled (Object.nodesAll g.leaves) →
    AllExact t (g.leaves.map value) →
    ∃ r u, g.accumulate.run s = (r, u) ∧ Extends [] s u ∧ ResultOf t (g.leaves.map value) r u

def TotalsAll (t : DiffType C) (gs : List (Grouping (Object C))) : Prop :=
  ∀ {s : Progress C}, s.Valid → s.Settled (Object.nodesAll (leavesAll gs)) →
    AllExact t ((leavesAll gs).map value) →
    ∃ r u, (accumulateAll gs).run s = (r, u) ∧ Extends [] s u ∧
      ResultsOf t ((leavesAll gs).map value) r u

variable {g : Grouping (Object C)} {gs : List (Grouping (Object C))}

private theorem totals_single (x : Object C) : Totals t (single x) := by
  intro s hs hleaves h
  have hx : s.Settled x.nodes := hleaves.mono (List.subset_append_left _ _)
  refine ⟨_, _, rfl, .refl _ _, Or.inl ⟨x, rfl, hx.after_eq, fun l hl => ?_, rfl, ?_⟩⟩
  · rw [hx.after_eq] at hl
    exact (Object.settled_nodes_iff.mp hx l hl).1
  · exact h _ List.mem_cons_self

private theorem totalsAll_nil : TotalsAll t ([] : List (Grouping (Object C))) :=
  fun _ _ _ => ⟨_, _, rfl, .refl _ _, Or.inl ⟨[], rfl, by simp, rfl, by simp [AllExact, valuesAt]⟩⟩

theorem totalsAll_cons (hg : Totals t g) (hgs : TotalsAll t gs) : TotalsAll t (g :: gs) := by
  intro s hs hleaves h
  have hleft : g.leaves ⊆ leavesAll (g :: gs) := List.subset_append_left _ _
  have hright : leavesAll gs ⊆ leavesAll (g :: gs) := List.subset_append_right _ _
  have hvalues : (leavesAll (g :: gs)).map value = g.leaves.map value ++ (leavesAll gs).map value :=
    List.map_append
  rw [hvalues] at h ⊢
  obtain ⟨hexact, hexacts⟩ := allExact_append.mp h
  obtain ⟨r, u, hrun, hext, hresult⟩ :=
    hg hs (hleaves.mono (Object.nodesAll_subset_of_subset hleft)) hexact
  rw [accumulateAll, run_bind, hrun]
  rcases hresult with ⟨x, rfl, hafter, hknown, hmerge, hshape⟩ | ⟨f, rfl, hfault⟩
  · obtain ⟨r', u', hrun', hext', hresult'⟩ := hgs (hs.extends hext (by simp))
      ((hleaves.mono (Object.nodesAll_subset_of_subset hright)).extends hext
        (Progress.apart_nil _)) hexacts
    simp only [run_bind, hrun']
    have hsteps : Extends [] s u' := hext.trans hext' (by simp)
    rcases hresult' with ⟨xs, rfl, hknowns, hmerges, hshapes⟩ | ⟨f, rfl, hfault⟩
    · have hlater := (hknown.after_eq hext').trans hafter
      refine ⟨_, _, rfl, hsteps, Or.inl ⟨x :: xs, rfl, ?_, ?_, ?_⟩⟩
      · exact List.forall_mem_cons.mpr ⟨hknown.extends hext', hknowns⟩
      · rw [← hlater] at hmerge
        exact mergeList_totals hexact hexacts hmerge hmerges
      · rw [← hlater] at hshape
        exact List.forall_mem_cons.mpr ⟨hshape, hshapes⟩
    · exact ⟨_, _, rfl, hsteps, Or.inr ⟨f, rfl, hfault.append_right hexact hexacts⟩⟩
  · exact ⟨_, _, rfl, hext, Or.inr ⟨f, rfl, hfault.append_left hexact hexacts⟩⟩

private theorem totals_group (h : TotalsAll t (g :: gs)) : Totals t (group g gs) := by
  intro s hs hleaves hexact
  obtain ⟨r, u, hrun, hext, hresult⟩ := h hs hleaves hexact
  have hgroup : (group g gs).accumulate = accumulateAll (g :: gs) >>= accumulateNow := by
    simp [accumulate, accumulateAll]
  rw [hgroup, run_bind, hrun]
  rcases hresult with ⟨xs, rfl, hknown, hmerge, hshape⟩ | ⟨f, rfl, hfault⟩
  · cases xs with
    | nil => exact absurd (Diff.mergeList_eq_none hmerge.symm) (by simp [leavesAll, leaves_ne_nil])
    | cons x xs =>
      obtain ⟨r', u', hrun', hext', hresult'⟩ :=
        run_accumulateNow (hs.extends hext (by simp)) hknown hshape
      exact ⟨r', u', hrun', hext.trans hext' (by simp), hresult'.congr hshape hexact hmerge⟩
  · exact ⟨_, _, rfl, hext, Or.inr ⟨f, rfl, hfault⟩⟩

mutual

/-- Accumulation in groups comes to the merge of all values, in whatever groups, and changes no
object that was there. -/
theorem totals : (g : Grouping (Object C)) → Totals t g
  | single x => totals_single x
  | group g gs => totals_group (totalsAll_cons (totals g) (totalsAll gs))

theorem totalsAll : (gs : List (Grouping (Object C))) → TotalsAll t gs
  | [] => totalsAll_nil
  | g :: gs => totalsAll_cons (totals g) (totalsAll gs)

end

theorem ResultOf.merge_of_ok {r : Except Fault (Object C)} {x : Object C}
    (h : ResultOf t ds r s) (hx : r = .ok x) :
    mergeList ds = some x.value ∧ Shaped IntKind.Holds t x.value := by
  rcases h with ⟨y, hy, _, _, hmerge, hshape⟩ | ⟨f, hf, _⟩
  · cases hy.symm.trans hx
    exact ⟨hmerge, hshape⟩
  · cases hf.symm.trans hx

theorem ResultOf.exists_ok {r : Except Fault (Object C)} (h : ResultOf t ds r s)
    (ht : t.Over (·.family ≠ .signed)) (hfit : ColumnsFit ds) : ∃ x, r = .ok x := by
  rcases h with ⟨x, hx, _⟩ | ⟨f, _, _, hfit'⟩
  · exact ⟨x, hx⟩
  · exact absurd hfit (hfit' ht)

theorem ResultOf.exists_overflow {r : Except Fault (Object C)} (h : ResultOf t ds r s)
    (hds : AllExact t ds) (hfit : ¬ ColumnsFit ds) : ∃ f, r = .error f ∧ f.kind = .overflow := by
  rcases h with ⟨x, _, _, _, hmerge, hshape⟩ | ⟨f, hf, hkind, _⟩
  · exact absurd (Diff.columnsFit_of_mergeList hds hmerge hshape.inRange) hfit
  · exact ⟨f, hf, hkind⟩

/-- An accumulation of a session comes to the merge of the values, and changes none of them. -/
theorem outcome_accumulate (g : Grouping (Object C)) {next : Nat}
    (hlabels : ∀ l ∈ Object.labelsAll g.leaves, l < next) (h : AllExact t (g.leaves.map value)) :
    ∃ r u, (Session.inPlace g.accumulate .diff next).result = r.map .diff ∧
      ResultOf t (g.leaves.map value) r u ∧
      ∀ x ∈ g.leaves, (Datum.diff x).writes (Session.inPlace g.accumulate .diff next).writes =
        .diff x := by
  have hleaves : Progress.Settled ⟨[], next⟩ (Object.nodesAll g.leaves) := by
    refine ⟨fun hy hl => hlabels _ ?_, fun _ _ hc => absurd hc List.not_mem_nil⟩
    rw [Object.labelsAll_eq_filterMap]
    exact List.mem_filterMap.mpr ⟨_, hy, hl⟩
  obtain ⟨r, u, hrun, hext, hresult⟩ := totals g (Progress.valid_start next) hleaves h
  refine ⟨r, u, by simp [Session.inPlace, hrun], hresult, fun x hx => ?_⟩
  have hsettled := (hleaves.extends hext (Progress.apart_nil _)).mono fun y hy =>
    Object.mem_nodesAll.mpr ⟨x, hx, hy⟩
  simp only [Session.inPlace, hrun, Datum.writes_object]
  exact Progress.Settled.map_eq (v := .diff x) hsettled

/-- Exact values of one type are accumulated in two ways, in any order and in any groups. No value
is changed. If both ways reach a total, the totals are equal. If no integer of the type is of a
trapping signed kind, both ways reach one if every column fits, and both overflow otherwise. -/
theorem accumulate_perm (ht : t.Concrete) {g₁ g₂ : Grouping (Object C)}
    (hperm : g₁.leaves.Perm g₂.leaves) (hexact : ∀ x ∈ g₁.leaves, Diff.Exact t x.value)
    {n₁ n₂ : Nat} (hlabels : ∀ l ∈ Object.labelsAll g₁.leaves, l < n₁ ∧ l < n₂) :
    let o₁ := Session.inPlace g₁.accumulate .diff n₁
    let o₂ := Session.inPlace g₂.accumulate .diff n₂
    (∀ x ∈ g₁.leaves, (Datum.diff x).writes o₁.writes = .diff x ∧
      (Datum.diff x).writes o₂.writes = .diff x) ∧
    (∀ v₁ v₂, o₁.result = .ok v₁ → o₂.result = .ok v₂ →
      ∃ z, Diff.Exact t z ∧ v₁.values = .diff z ∧ v₂.values = .diff z) ∧
    (t.Over (·.family ≠ .signed) →
      (ColumnsFit (g₁.leaves.map value) →
        (∃ v₁, o₁.result = .ok v₁) ∧ ∃ v₂, o₂.result = .ok v₂) ∧
      (¬ ColumnsFit (g₁.leaves.map value) →
        (∃ f₁, o₁.result = .error f₁ ∧ f₁.kind = .overflow) ∧
          ∃ f₂, o₂.result = .error f₂ ∧ f₂.kind = .overflow)) := by
  intro o₁ o₂
  have hvalues := hperm.map value
  have h₁ : AllExact t (g₁.leaves.map value) := by
    intro d hd
    obtain ⟨x, hx, rfl⟩ := List.mem_map.mp hd
    exact (hexact x hx).shaped_holds ht
  have h₂ : AllExact t (g₂.leaves.map value) := fun d hd => h₁ d (hvalues.mem_iff.mpr hd)
  have hlabels₂ (l : Nat) (hl : l ∈ Object.labelsAll g₂.leaves) : l < n₂ := by
    refine (hlabels l ?_).2
    rw [Object.labelsAll_eq_flatMap] at hl ⊢
    exact (hperm.flatMap_right _).mem_iff.mpr hl
  obtain ⟨r₁, u₁, hr₁, hresult₁, hsame₁⟩ := outcome_accumulate g₁ (fun l hl => (hlabels l hl).1) h₁
  obtain ⟨r₂, u₂, hr₂, hresult₂, hsame₂⟩ := outcome_accumulate g₂ hlabels₂ h₂
  have hok {o : Outcome C} {r : Except Fault (Object C)} (hr : o.result = r.map .diff)
      (h : ∃ x, r = .ok x) : ∃ v, o.result = .ok v := by
    obtain ⟨x, rfl⟩ := h
    exact ⟨_, hr⟩
  have herror {o : Outcome C} {r : Except Fault (Object C)} (hr : o.result = r.map .diff)
      (h : ∃ f, r = .error f ∧ f.kind = .overflow) :
      ∃ f, o.result = .error f ∧ f.kind = .overflow := by
    obtain ⟨f, rfl, hf⟩ := h
    exact ⟨f, hr, hf⟩
  refine ⟨fun x hx => ⟨hsame₁ x hx, hsame₂ x (hperm.mem_iff.mp hx)⟩, ?_, fun hkinds => ⟨?_, ?_⟩⟩
  · intro v₁ v₂ hv₁ hv₂
    obtain ⟨x₁, hx₁, rfl⟩ := map_eq_ok.mp (hr₁.symm.trans hv₁)
    obtain ⟨x₂, hx₂, rfl⟩ := map_eq_ok.mp (hr₂.symm.trans hv₂)
    obtain ⟨hmerge₁, hshape⟩ := hresult₁.merge_of_ok hx₁
    obtain ⟨hmerge₂, _⟩ := hresult₂.merge_of_ok hx₂
    have heq : x₁.value = x₂.value := by
      rw [Diff.mergeList_perm hvalues h₁, hmerge₂] at hmerge₁
      exact (Option.some.inj hmerge₁).symm
    exact ⟨x₁.value, hshape.exact, rfl, congrArg Datum.diff heq.symm⟩
  · intro hfit
    exact ⟨hok hr₁ (hresult₁.exists_ok hkinds hfit),
      hok hr₂ (hresult₂.exists_ok hkinds (hfit.perm hvalues))⟩
  · intro hfit
    have hfit₂ := fun hfit' : ColumnsFit (g₂.leaves.map value) =>
      hfit (hfit'.perm hvalues.symm)
    exact ⟨herror hr₁ (hresult₁.exists_overflow h₁ hfit),
      herror hr₂ (hresult₂.exists_overflow h₂ hfit₂)⟩

/-- Three sequences of different lengths, added up from the left and from the right. -/
theorem accumulate_ragged :
    let k : IntKind := ⟨.unsigned, .w8⟩
    let x : Object specimens := .vec 1 (some (.int k)) [.int 2 k 100, .int 3 k 1]
    let y : Object specimens := .vec 4 (some (.int k)) []
    let z : Object specimens := .vec 5 (some (.int k)) [.int 6 k 100]
    let g₁ := group (single x) [single y, single z]
    let g₂ := group (single z) [group (single y) [single x]]
    ∃ v w : Value specimens,
      (Session.inPlace g₁.accumulate .diff 7).result = .ok v ∧
      (Session.inPlace g₂.accumulate .diff 7).result = .ok w ∧
      ∃ u, Diff.Exact (.vec (.int k)) u ∧ v.values = .diff u ∧ w.values = .diff u := by
  intro k x y z g₁ g₂
  have hperm : g₁.leaves.Perm g₂.leaves := (List.reverse_perm [x, y, z]).symm
  have hexact : ∀ u ∈ g₁.leaves, Diff.Exact (.vec (.int k)) u.value := by
    change ∀ u ∈ [x, y, z], Diff.Exact (.vec (.int k)) u.value
    intro u hu
    simp only [List.mem_cons, List.not_mem_nil, or_false] at hu
    rcases hu with rfl | rfl | rfl
    all_goals
      refine .vec fun e he => ?_
      simp only [Object.valueAll, Object.value, List.mem_cons, List.not_mem_nil, or_false] at he
    · rcases he with rfl | rfl <;> exact .int (by decide)
    · cases he
      exact .int (by decide)
  have hlabels : ∀ l ∈ Object.labelsAll g₁.leaves, l < 7 ∧ l < 7 := by
    change ∀ l ∈ [1, 2, 3, 4, 5, 6], l < 7 ∧ l < 7
    decide
  refine ⟨_, _, rfl, rfl, ?_⟩
  exact (accumulate_perm (.vec (.int k)) hperm hexact hlabels).2.1 _ _ rfl rfl

end Grouping

end DiffAlgebra
