import DiffAlgebra.Proofs.Shape
import DiffAlgebra.Proofs.Sharing.Drafts
import DiffAlgebra.Proofs.Sharing.Progress

/-!
# What addition and negation in place do

An operation in place comes to what it comes to for values, and it changes the object it is called
on and no other object that was there before. It does so last of all: up to then it works on clones
of the components, so that a failure leaves everything as it was.
-/

namespace DiffAlgebra.Object

variable {C : Catalog}

open Progress (Apart Extends Settled Valid)

theorem run_attempt_bind {α β : Type} (r : Except Fault α) (f : α → UpdateM C β)
    (s : Progress C) : (attempt r >>= f).run s = match r with
      | .ok a => (f a).run s
      | .error e => (.error e, s) := by
  cases r <;> rfl

theorem run_clones (ds : List (Diff C)) (s : Progress C) :
    (clones ds).run s = match Diff.cloneAll ds with
      | .ok _ => (.ok (ofDiffs ds s.next).1, { s with next := (ofDiffs ds s.next).2 })
      | .error f => (.error f, s) := by
  unfold clones Diff.cloneAll
  split <;> rfl

mutual

/-- An object that a draft becomes is made of objects that the draft was given and of new ones. -/
theorem mem_nodes_ofDraft : (d : Draft C (Object C)) → (next : Nat) →
    next ≤ (ofDraft d next).2 ∧ ∀ y ∈ (ofDraft d next).1.nodes, y ∈ d.givenNodes ∨
      ∀ l, y.label? = some l → next ≤ l ∧ l < (ofDraft d next).2
  | .given x, next => ⟨Nat.le_refl _, fun _ hy => Or.inl hy⟩
  | .int _ _, next | .custom _ _, next => by
    refine ⟨Nat.le_succ next, fun y hy => Or.inr fun l hl => ?_⟩
    cases List.mem_singleton.mp hy
    cases hl
    exact ⟨Nat.le_refl _, Nat.lt_succ_self _⟩
  | .present, next => by
    refine ⟨Nat.le_refl _, fun y hy => Or.inr fun l hl => ?_⟩
    cases List.mem_singleton.mp hy
    cases hl
  | .tuple _ ds, next | .vec _ ds, next => by
    obtain ⟨hle, hmem⟩ := mem_nodesAll_ofDrafts ds (next + 1)
    refine ⟨(Nat.le_succ next).trans hle, fun y hy => ?_⟩
    rcases List.mem_cons.mp hy with rfl | hy
    · refine Or.inr fun l hl => ?_
      cases hl
      exact ⟨Nat.le_refl _, hle⟩
    · refine (hmem y hy).imp_right fun h l hl => ?_
      have := h l hl
      exact ⟨Nat.le_of_succ_le this.1, this.2⟩

theorem mem_nodesAll_ofDrafts : (ds : List (Draft C (Object C))) → (next : Nat) →
    next ≤ (ofDrafts ds next).2 ∧
      ∀ y ∈ nodesAll (ofDrafts ds next).1, y ∈ Draft.givenNodesAll ds ∨
        ∀ l, y.label? = some l → next ≤ l ∧ l < (ofDrafts ds next).2
  | [], next => ⟨Nat.le_refl _, by simp [ofDrafts, nodesAll]⟩
  | d :: ds, next => by
    obtain ⟨hle, hmem⟩ := mem_nodes_ofDraft d next
    obtain ⟨hle', hmem'⟩ := mem_nodesAll_ofDrafts ds (ofDraft d next).2
    refine ⟨hle.trans hle', fun y hy => ?_⟩
    rcases List.mem_append.mp hy with hy | hy
    · refine (hmem y hy).imp (List.mem_append_left _) fun h l hl => ?_
      exact ⟨(h l hl).1, (h l hl).2.trans_le hle'⟩
    · refine (hmem' y hy).imp (List.mem_append_right _) fun h l hl => ?_
      exact ⟨hle.trans (h l hl).1, (h l hl).2⟩

end

/-- An operand is coerced to an object that is settled as well, or it is refused. -/
theorem operand_cases {t : DiffType C} {v : Value C} {s : Progress C} (hs : s.Valid)
    (hv : s.Settled v.nodes) :
    (∃ f, Diff.coerce t v.values = .error f ∧ (operand t v).run s = (.error f, s)) ∨
    ∃ y n, Diff.coerce t v.values = .ok y.value ∧ s.next ≤ n ∧
      (operand t v).run s = (.ok y, { s with next := n }) ∧
      Settled { s with next := n } y.nodes := by
  have hvalue : Diff.coerce t v.values = (Draft.coerce t v).map Draft.value :=
    Draft.coerce_values t v
  have hrun : (operand t v).run s = match Draft.coerce t v with
      | .ok d => (.ok (ofDraft d s.next).1, { s with next := (ofDraft d s.next).2 })
      | .error f => (.error f, s) := by
    change (attempt (Draft.coerce t (v.map (after s.changes))) >>= _).run s = _
    rw [hv.map_eq, run_attempt_bind]
    cases Draft.coerce t v <;> rfl
  cases hd : Draft.coerce t v with
  | error f =>
    rw [hd] at hvalue hrun
    exact Or.inl ⟨f, hvalue, hrun⟩
  | ok d =>
    rw [hd] at hvalue hrun
    obtain ⟨hle, hmem⟩ := mem_nodes_ofDraft d s.next
    have hgiven := Draft.givenNodes_coerce t hd
    refine Or.inr ⟨_, _, ?_, hle, hrun, ?_, ?_⟩
    · rw [value_ofDraft]
      exact hvalue
    · intro y l hy hl
      rcases hmem y hy with hy | hy
      · exact (hv.lt (hgiven hy) hl).trans_le hle
      · exact (hy l hl).2
    · intro y l c hy hl hc hcl
      rcases hmem y hy with hy | hy
      · exact hv.unchanged (hgiven hy) hl hc hcl
      · exact absurd (hs c hc l hcl) (Nat.not_lt.mpr (hy l hl).1)

/-- What becomes of the object with a label: it has the given value, and components of its own. -/
structure Renewed (place : Option Nat) (next last : Nat) (z : Diff C) (new : Object C) : Prop where
  label_eq : new.label? = place
  value_eq : new.value = z
  own : OwnLabels next last (labelsAll new.parts)

/-- What an operation in place comes to: it fails as `r` does and has changed nothing that was
there, or, last of all, it gives the object with a label the value that `r` gives. -/
def Renews (place : Option Nat) (r : Except Fault (Diff C)) (m : UpdateM C Unit)
    (s : Progress C) : Prop :=
  (∃ f t, r = .error f ∧ m.run s = (.error f, t) ∧ Extends [] s t) ∨
  ∃ z new t, r = .ok z ∧ Renewed place s.next t.next z new ∧ Extends [] s t ∧
    m.run s = (.ok (), ⟨t.changes ++ (place.map fun _ => new).toList, t.next⟩)

theorem eq_present {x : Object C} (h : x.label? = none) : x = present := by
  cases x <;> first | rfl | cases h

variable {s t : Progress C} {place : Option Nat}

theorem extends_commit {new : Object C} (h : Extends [] s t) (hnew : new.label? = place) :
    Extends place.toList s ⟨t.changes ++ (place.map fun _ => new).toList, t.next⟩ := by
  have hsub : ([] : List Nat) ⊆ place.toList := List.nil_subset _
  refine (h.mono hsub).trans ⟨Nat.le_refl _, _, rfl, ?_⟩ fun l hl => Or.inl hl
  intro c hc l hl
  cases hplace : place with
  | none => simp [hplace] at hc
  | some k =>
    simp only [hplace, Option.map_some, Option.toList_some, List.mem_singleton] at hc
    rw [hc, hnew, hplace] at hl
    cases hl
    exact Or.inl (by simp)

namespace Renewed

variable {next last : Nat} {z : Diff C} {new : Object C}

theorem mem_labels (h : Renewed place next last z new) {l : Nat} (hl : l ∈ new.labels) :
    l ∈ place.toList ∨ next ≤ l ∧ l < last := by
  rw [labels_eq, h.label_eq] at hl
  exact (List.mem_append.mp hl).imp_right (h.own.mem l)

theorem nodup_labels (h : Renewed place next last z new) (hplace : ∀ l ∈ place.toList, l < next) :
    new.labels.Nodup := by
  rw [labels_eq, h.label_eq]
  refine List.nodup_append.mpr ⟨?_, h.own.nodup, fun l hl m hm => ?_⟩
  · cases place <;> simp
  · have hlt := hplace l hl
    have hle := (h.own.mem m hm).1
    omega

end Renewed

theorem after_commit {x new : Object C} (cs : List (Object C)) (hnew : new.label? = x.label?) :
    x.after (cs ++ (x.label?.map fun _ => new).toList) = new := by
  cases hx : x.label? with
  | none =>
    rw [hx] at hnew
    rw [eq_present hx, eq_present hnew]
    exact eq_present (label?_after _ _)
  | some l => exact after_concat (hnew.trans hx) hx

theorem renews_change (r : Except Fault (Diff C)) {α : Type} {a : Except Fault α}
    {contents : α → Nat → Object C} {z : α → Diff C} (hr : r = a.map z)
    (hplace : place ≠ none) (hcontents : ∀ a l, (contents a l).label? = some l ∧
      (contents a l).value = z a ∧ (contents a l).parts = []) :
    Renews place r (attempt a >>= fun a => change place (contents a)) s := by
  cases a with
  | error f => exact Or.inl ⟨f, s, hr, rfl, .refl _ _⟩
  | ok a =>
    cases place with
    | none => exact absurd rfl hplace
    | some l =>
      obtain ⟨hlabel, hvalue, hparts⟩ := hcontents a l
      refine Or.inr ⟨z a, contents a l, s, hr, ⟨hlabel, hvalue, ?_⟩, .refl _ _, rfl⟩
      rw [hparts]
      exact .nil _

/-- What operations on several objects in turn come to: they fail as `r` does, or the objects have
the values that `r` gives, together with further objects that are made. Nothing else that was there
is changed. -/
def RenewsEach {α : Type} (more : α → List (Object C)) (xs : List (Object C))
    (r : Except Fault (List (Diff C))) (m : UpdateM C α) (s : Progress C) : Prop :=
  (∃ f t, r = .error f ∧ m.run s = (.error f, t) ∧ Extends (labelsAll xs) s t) ∨
  ∃ zs a t, r = .ok zs ∧ m.run s = (.ok a, t) ∧ Extends (labelsAll xs) s t ∧
    valueAll (xs.map (after t.changes) ++ more a) = zs ∧
    (labelsAll (xs.map (after t.changes) ++ more a)).Nodup ∧
    ∀ l ∈ labelsAll (xs.map (after t.changes) ++ more a),
      l ∈ labelsAll xs ∨ s.next ≤ l ∧ l < t.next

theorem settled_nodes_iff {x : Object C} : s.Settled x.nodes ↔
    ∀ l ∈ x.labels, l < s.next ∧ ∀ c ∈ s.changes, c.label? ≠ some l := by
  constructor
  · intro h l hl
    obtain ⟨y, hy, hyl⟩ := mem_labels_iff.mp hl
    exact ⟨h.lt hy hyl, fun c hc => h.unchanged hy hyl hc⟩
  · intro h
    have hmem {y : Object C} {l : Nat} (hy : y ∈ x.nodes) (hl : y.label? = some l) :
        l ∈ x.labels := mem_labels_iff.mpr ⟨y, hy, hl⟩
    exact ⟨fun hy hl => (h _ (hmem hy hl)).1, fun hy hl hc => (h _ (hmem hy hl)).2 _ hc⟩

theorem map_after_eq_self {xs : List (Object C)} (h : s.Settled (nodesAll xs)) :
    xs.map (after s.changes) = xs := by
  refine (List.map_congr_left fun x hx => ?_).trans (List.map_id xs)
  exact Settled.after_eq (h.mono fun _ hy => mem_nodesAll.mpr ⟨x, hx, hy⟩)

theorem renewsEach_pure {xs : List (Object C)} (hxs : s.Settled (nodesAll xs))
    (hnodup : (labelsAll xs).Nodup) :
    RenewsEach (fun _ => []) xs (.ok (valueAll xs)) (pure () : UpdateM C Unit) s := by
  refine Or.inr ⟨_, (), s, rfl, rfl, .refl _ _, ?_, ?_, ?_⟩
  all_goals simp only [map_after_eq_self hxs, List.append_nil]
  · exact hnodup
  · exact fun l hl => Or.inl hl

theorem renewsEach_cons {α : Type} {more : α → List (Object C)} {x : Object C}
    {xs : List (Object C)} {r : Except Fault (Diff C)} {rs : Except Fault (List (Diff C))}
    {m : UpdateM C Unit} {m' : UpdateM C α} (hs : s.Valid)
    (hsettled : s.Settled (nodesAll (x :: xs))) (hnodup : (labelsAll (x :: xs)).Nodup)
    (hx : Renews x.label? r m s)
    (hxs : ∀ u, Extends x.label?.toList s u → u.Valid → u.Settled (nodesAll xs) →
      RenewsEach more xs rs m' u) :
    RenewsEach more (x :: xs) (do let z ← r; let zs ← rs; .ok (z :: zs)) (m >>= fun _ => m') s := by
  obtain ⟨-, hnodupxs, hdisjoint⟩ := List.nodup_append.mp hnodup
  have hself (l : Nat) (hl : l ∈ x.label?.toList) : l ∈ x.labels := by
    rw [labels_eq]
    exact List.mem_append_left _ hl
  have hlt (l : Nat) (hl : l ∈ labelsAll (x :: xs)) : l < s.next :=
    hsettled.lt_of_mem_labelsAll hl
  have hlabel (l : Nat) (hl : l ∈ x.label?.toList) : l < s.next :=
    hlt l (List.mem_append_left _ (hself l hl))
  unfold RenewsEach
  rw [run_bind]
  rcases hx with ⟨f, t, rfl, hrun, hext⟩ | ⟨z, new, t, rfl, hnew, hext, hrun⟩
  · rw [hrun]
    exact Or.inl ⟨f, t, rfl, rfl, hext.mono (List.nil_subset _)⟩
  rw [hrun]
  have hcommit := extends_commit hext hnew.label_eq
  have hafter := after_commit t.changes hnew.label_eq
  generalize hu : (⟨t.changes ++ (x.label?.map fun _ => new).toList, t.next⟩ : Progress C) = u
    at hcommit
  have hlast : u.next = t.next := by rw [← hu]
  have hchanges : x.after u.changes = new := by rw [← hu, hafter]
  have hothers : u.Settled (nodesAll xs) := by
    refine (hsettled.mono (List.subset_append_right _ _)).extends hcommit fun y hy l hl hyl => ?_
    refine hdisjoint l (hself l hl) l ?_ rfl
    rw [labelsAll_eq_filterMap]
    exact List.mem_filterMap.mpr ⟨y, hy, hyl⟩
  have hall {t' : Progress C} (h : Extends (labelsAll xs) u t') :
      Extends (labelsAll (x :: xs)) s t' := by
    refine (hcommit.mono fun l hl => ?_).trans h fun l hl => Or.inl (List.mem_append_right _ hl)
    exact List.mem_append_left _ (hself l hl)
  rcases hxs u hcommit (hs.extends hcommit hlabel) hothers with
    ⟨f, t', rfl, hrun', hext'⟩ | ⟨zs, a, t', rfl, hrun', hext', hvalues, hnodup', hmem⟩
  · exact Or.inl ⟨f, t', rfl, hrun', hall hext'⟩
  · have hapart (l : Nat) (hl : l ∈ new.labels) : l ∉ labelsAll xs ∧ l < u.next := by
      have hle := hext.le
      rcases hnew.mem_labels hl with hl | hl
      · refine ⟨fun hl' => hdisjoint l (hself l hl) l hl' rfl, ?_⟩
        have := hlabel l hl
        omega
      · refine ⟨fun hl' => ?_, by omega⟩
        have := hlt l (List.mem_append_right _ hl')
        omega
    -- what is done to the others leaves the first alone
    have hfirst : x.after t'.changes = new := by
      obtain ⟨cs, hcs, hcs'⟩ := hext'.changes
      rw [hcs, after_append, hchanges]
      refine after_eq_self fun c hc l hcl hl => ?_
      have hl := hapart l hl
      exact (hcs' c hc l hcl).elim hl.1 fun hl' => by omega
    refine Or.inr ⟨z :: zs, a, t', rfl, hrun', hall hext', ?_, ?_, ?_⟩
    all_goals rw [List.map_cons, List.cons_append, hfirst]
    · rw [valueAll, hnew.value_eq, hvalues]
    · refine List.nodup_append.mpr ⟨hnew.nodup_labels hlabel, hnodup', fun l hl m hm => ?_⟩
      rintro rfl
      have hl := hapart l hl
      exact (hmem l hm).elim hl.1 fun hl' => by omega
    · intro l hl
      have hle := hcommit.le
      rcases List.mem_append.mp hl with hl | hl
      · refine (hnew.mem_labels hl).imp (fun hl => List.mem_append_left _ (hself l hl)) fun hl => ?_
        have := hext'.le
        omega
      · refine (hmem l hl).imp (List.mem_append_right _) fun hl => ?_
        omega

/-- Work on clones of the components is taken over at the end. -/
theorem renews_takeOver {ds : List (Diff C)} {contents : Nat → List (Object C) → Object C}
    {build : List (Diff C) → Diff C} {work : List (Object C) → UpdateM C (List (Object C))}
    {r : Except Fault (List (Diff C))} (hs : s.Valid) (hplace : place ≠ none)
    (hcontents : ∀ l xs, (contents l xs).label? = some l ∧
      (contents l xs).value = build (valueAll xs) ∧ (contents l xs).parts = xs)
    (hwork : ∀ xs u, Extends [] s u → u.Valid → u.Settled (nodesAll xs) →
      (labelsAll xs).Nodup → (∀ l ∈ labelsAll xs, s.next ≤ l) → valueAll xs = ds →
      RenewsEach id xs r (work xs) u) :
    Renews place (do let _ ← Diff.cloneAll ds; let zs ← r; .ok (build zs))
      (takeOver place contents ds work) s := by
  unfold Renews takeOver
  rw [run_bind, run_clones]
  cases hclones : Diff.cloneAll ds with
  | error f => exact Or.inl ⟨f, s, rfl, rfl, .refl _ _⟩
  | ok _ =>
    have hown := ownLabels_ofDiffs ds s.next
    have hvalues := valueAll_ofDiffs ds s.next
    generalize (ofDiffs ds s.next).1 = xs at hown hvalues ⊢
    generalize (ofDiffs ds s.next).2 = n at hown ⊢
    have hext : Extends [] s { s with next := n } := .handOut _ hown.le
    have hsettled : Settled { s with next := n } (nodesAll xs) := by
      refine hs.settled fun y hy l hl => hown.mem l ?_
      rw [labelsAll_eq_filterMap]
      exact List.mem_filterMap.mpr ⟨y, hy, hl⟩
    have hvalid := hs.extends hext (by simp)
    simp only [run_bind]
    rcases hwork xs _ hext hvalid hsettled hown.nodup (fun l hl => (hown.mem l hl).1) hvalues with
      ⟨f, t, rfl, hrun, hext'⟩ | ⟨zs, ys, t, rfl, hrun, hext', hvalues', hnodup, hmem⟩
    · rw [hrun]
      exact Or.inl ⟨f, t, rfl, rfl, hext.trans hext' fun l hl => Or.inr (hown.mem l hl)⟩
    · rw [hrun]
      cases place with
      | none => exact absurd rfl hplace
      | some l =>
        obtain ⟨hlabel, hvalue, hparts⟩ := hcontents l (xs.map (after t.changes) ++ ys)
        refine Or.inr ⟨build zs, _, t, rfl, ⟨hlabel, ?_, ?_⟩,
          hext.trans hext' fun l hl => Or.inr (hown.mem l hl), rfl⟩
        · rw [hvalue]
          exact congrArg build hvalues'
        · rw [hparts]
          have hle := hown.le
          have hle' : n ≤ t.next := hext'.le
          refine ⟨by omega, hnodup, fun k hk => ?_⟩
          rcases hmem k hk with hk | hk
          · have := hown.mem k hk
            omega
          · have hk : n ≤ k ∧ k < t.next := hk
            omega

theorem RenewsEach.map {α β : Type} {more : α → List (Object C)} {f : α → β}
    {more' : β → List (Object C)} {xs : List (Object C)} {r : Except Fault (List (Diff C))}
    {m : UpdateM C α} (h : RenewsEach more xs r m s) (hmore : ∀ a, more' (f a) = more a) :
    RenewsEach more' xs r (m >>= fun a => pure (f a)) s := by
  unfold RenewsEach
  rw [run_bind]
  rcases h with ⟨f, t, rfl, hrun, hext⟩ | ⟨zs, a, t, rfl, hrun, hext, hresult⟩
  · rw [hrun]
    exact Or.inl ⟨f, t, rfl, rfl, hext⟩
  · rw [hrun]
    refine Or.inr ⟨zs, f a, t, rfl, rfl, hext, ?_⟩
    rw [hmore]
    exact hresult

theorem nodesAll_parts_subset (x : Object C) : nodesAll x.parts ⊆ x.nodes := by
  rw [nodes_eq]
  exact List.subset_cons_self _ _

private theorem valueAll_append (xs ys : List (Object C)) :
    valueAll (xs ++ ys) = valueAll xs ++ valueAll ys := by
  simp [valueAll_eq_map]

theorem parts_value (x : Object C) : x.value.parts = valueAll x.parts := by
  cases x <;> rfl

@[simp] theorem length_valueAll (xs : List (Object C)) : (valueAll xs).length = xs.length := by
  rw [valueAll_eq_map, List.length_map]

private theorem valueAll_drop (n : Nat) (xs : List (Object C)) :
    valueAll (xs.drop n) = (valueAll xs).drop n := by
  rw [valueAll_eq_map, valueAll_eq_map, List.map_drop]

theorem label?_eq_none_iff (x : Object C) : x.label? = none ↔ x.value = .present := by
  cases x <;> simp [label?, value]

theorem nodesAll_subset_of_subset {xs ys : List (Object C)} (h : xs ⊆ ys) :
    nodesAll xs ⊆ nodesAll ys := by
  intro z hz
  obtain ⟨x, hx, hz⟩ := mem_nodesAll.mp hz
  exact mem_nodesAll.mpr ⟨x, h hx, hz⟩

theorem RenewsEach.clones {xs ys : List (Object C)} {r : Except Fault (List (Diff C))}
    {m : UpdateM C Unit} (h : RenewsEach (fun _ => []) xs r m s) (hys : s.Settled (nodesAll ys))
    (hapart : Apart (labelsAll xs) (nodesAll ys)) (hxs : ∀ l ∈ labelsAll xs, l < s.next) :
    RenewsEach id xs (do let zs ← r; let rest ← Diff.cloneAll (valueAll ys); .ok (zs ++ rest))
      (m >>= fun _ => readAll ys >>= fun rest => Object.clones (valueAll rest)) s := by
  unfold RenewsEach
  rw [run_bind]
  rcases h with ⟨f, t, rfl, hrun, hext⟩ | ⟨zs, a, t, rfl, hrun, hext, hvalues, hnodup, hmem⟩
  · rw [hrun]
    exact Or.inl ⟨f, t, rfl, rfl, hext⟩
  rw [hrun]
  have hread : (readAll ys >>= fun rest => Object.clones (valueAll rest)).run t =
      (Object.clones (valueAll ys)).run t := by
    change (Object.clones (valueAll (ys.map (after t.changes)))).run t = _
    rw [map_after_eq_self (hys.extends hext hapart)]
  simp only [hread, run_clones]
  cases hclones : Diff.cloneAll (valueAll ys) with
  | error f => exact Or.inl ⟨f, t, rfl, rfl, hext⟩
  | ok ds =>
    obtain ⟨-, rfl⟩ := Diff.cloneAll_eq_ok.mp hclones
    have hown := ownLabels_ofDiffs (valueAll ys) t.next
    refine Or.inr ⟨_, _, _, rfl, rfl, hext.trans (.handOut [] hown.le) (by simp), ?_, ?_, ?_⟩
    · simp only [id, valueAll_append, valueAll_ofDiffs]
      simpa using hvalues
    · simp only [List.append_nil] at hnodup hmem
      simp only [id, labelsAll_append]
      refine List.nodup_append.mpr ⟨hnodup, hown.nodup, fun l hl k hk => ?_⟩
      have hk := hown.mem k hk
      have hle := hext.le
      rcases hmem l hl with hl | hl
      · have := hxs l hl
        omega
      · omega
    · simp only [List.append_nil] at hmem
      simp only [id, labelsAll_append]
      intro l hl
      have hle := hown.le
      have hle' := hext.le
      rcases List.mem_append.mp hl with hl | hl
      · refine (hmem l hl).imp_right fun hl => ?_
        omega
      · have := hown.mem l hl
        omega

/-- What an operand is coerced to is used from then on. -/
theorem renews_operand {t : DiffType C} {v : Value C} {r : Diff C → Except Fault (Diff C)}
    {m : Object C → UpdateM C Unit} (hs : s.Valid) (hv : s.Settled v.nodes)
    (h : ∀ y u, Extends [] s u → u.Valid → u.Settled y.nodes →
      Renews place (r y.value) (m y) u) :
    Renews place (Diff.coerce t v.values >>= r) (operand t v >>= m) s := by
  unfold Renews
  rw [run_bind]
  rcases operand_cases (t := t) hs hv with ⟨f, hf, hrun⟩ | ⟨y, n, hy, hle, hrun, hsettled⟩
  · rw [hrun, hf]
    exact Or.inl ⟨f, s, rfl, rfl, .refl _ _⟩
  · rw [hrun, hy]
    have hext : Extends [] s { s with next := n } := .handOut _ hle
    rcases h y _ hext (hs.extends hext (by simp)) hsettled with
      ⟨f, u, hf, hrun', hext'⟩ | ⟨z, new, u, hz, hnew, hext', hrun'⟩
    · exact Or.inl ⟨f, u, hf, hrun', hext.trans hext' (by simp)⟩
    · exact Or.inr ⟨z, new, u, hz, ⟨hnew.label_eq, hnew.value_eq, hnew.own.mono hle⟩,
        hext.trans hext' (by simp), hrun'⟩

mutual

/-- Adding to an object in place comes to the sum of the values. -/
theorem renews_addAt : (d : Diff C) → {place : Option Nat} → {y : Object C} → {s : Progress C} →
    s.Valid → (place = none ↔ d = .present) → s.Settled y.nodes →
    Renews place (d.add y.value) (addAt d place y) s
  | .int k m, place, y, s, hs, hplace, hy => by
    have hsome : place ≠ none := fun h => nomatch hplace.mp h
    cases hv : y.value with
    | int l n =>
      simp only [addAt, hv, Diff.add]
      refine renews_change _ ?_ hsome fun a l => ⟨rfl, rfl, rfl⟩
      cases k.add m n <;> rfl
    | _ =>
      simp only [addAt, hv, Diff.add]
      exact Or.inl ⟨_, s, rfl, rfl, .refl _ _⟩
  | .present, place, y, s, hs, hplace, hy => by
    obtain rfl := hplace.mpr rfl
    exact Or.inr ⟨.present, present, s, rfl, ⟨rfl, rfl, .nil _⟩, .refl _ _, by
      simp [addAt]; rfl⟩
  | .custom n c, place, y, s, hs, hplace, hy => by
    have hsome : place ≠ none := fun h => nomatch hplace.mp h
    cases hv : y.value with
    | custom l e =>
      simp only [addAt, hv, Diff.add]
      refine renews_change _ ?_ hsome fun a l => ⟨rfl, rfl, rfl⟩
      cases C.add n c e <;> rfl
    | _ =>
      simp only [addAt, hv, Diff.add]
      exact Or.inl ⟨_, s, rfl, rfl, .refl _ _⟩
  | .tuple ts ds, place, y, s, hs, hplace, hy => by
    have hsome : place ≠ none := fun h => nomatch hplace.mp h
    have hparts := hy.mono (nodesAll_parts_subset y)
    let sums : Except Fault (List (Diff C)) := do
      let zs ← Diff.addAll ds (valueAll y.parts)
      .ok (zs ++ ds.drop y.parts.length)
    have h : Renews place (do
          let _ ← Diff.cloneAll ds
          let zs ← sums
          .ok (.tuple ts zs))
        (takeOver place (fun l xs => tuple l ts xs) ds fun xs => do
          addEach ds xs y.parts
          return []) s := by
      refine renews_takeOver hs hsome (fun l xs => ⟨rfl, rfl, rfl⟩) ?_
      intro xs u hext hu hxs hnodup hnew hvalues
      exact (renewsEach_addEach ds hu hxs hnodup hvalues
        (hparts.extends hext (Progress.apart_nil _)) (hparts.apart hnew)).map fun _ => rfl
    simpa [addAt, Diff.add, parts_value, sums, bind_assoc] using h
  | .vec t ds, place, y, s, hs, hplace, hy => by
    have hsome : place ≠ none := fun h => nomatch hplace.mp h
    have hparts := hy.mono (nodesAll_parts_subset y)
    have hrest := hparts.mono (nodesAll_subset_of_subset (List.drop_subset ds.length y.parts))
    let sums : Except Fault (List (Diff C)) := do
      let zs ← Diff.addAll ds (valueAll y.parts)
      .ok (zs ++ ds.drop y.parts.length)
    let all : Except Fault (List (Diff C)) := do
      let zs ← sums
      let rest ← Diff.cloneAll (valueAll (y.parts.drop ds.length))
      .ok (zs ++ rest)
    have h : Renews place (do
          let _ ← Diff.cloneAll ds
          let zs ← all
          .ok (.vec t zs))
        (takeOver place (fun l xs => vec l t xs) ds fun xs => do
          addEach ds xs y.parts
          let rest ← readAll (y.parts.drop ds.length)
          Object.clones (valueAll rest)) s := by
      refine renews_takeOver hs hsome (fun l xs => ⟨rfl, rfl, rfl⟩) ?_
      intro xs u hext hu hxs hnodup hnew hvalues
      have hsums := renewsEach_addEach ds hu hxs hnodup hvalues
        (hparts.extends hext (Progress.apart_nil _)) (hparts.apart hnew)
      exact hsums.clones (hrest.extends hext (Progress.apart_nil _)) (hrest.apart hnew)
        fun l hl => hxs.lt_of_mem_labelsAll hl
    simpa [addAt, Diff.add, parts_value, sums, all, bind_assoc, valueAll_drop] using h

theorem renewsEach_addEach : (ds : List (Diff C)) → {xs ys : List (Object C)} →
    {s : Progress C} → s.Valid → s.Settled (nodesAll xs) → (labelsAll xs).Nodup →
    valueAll xs = ds → s.Settled (nodesAll ys) → Apart (labelsAll xs) (nodesAll ys) →
    RenewsEach (fun _ => []) xs
      (do let zs ← Diff.addAll ds (valueAll ys); .ok (zs ++ ds.drop ys.length))
      (addEach ds xs ys) s
  | [], xs, ys, s, hs, hxs, hnodup, hvalues, hys, hapart => by
    have h := renewsEach_pure hxs hnodup
    rw [hvalues] at h
    simpa [addEach, Diff.addAll] using h
  | d :: ds, [], ys, s, hs, hxs, hnodup, hvalues, hys, hapart => nomatch hvalues
  | d :: ds, x :: xs, [], s, hs, hxs, hnodup, hvalues, hys, hapart => by
    have h := renewsEach_pure hxs hnodup
    rw [hvalues] at h
    exact h
  | d :: ds, x :: xs, y :: ys, s, hs, hxs, hnodup, hvalues, hys, hapart => by
    obtain ⟨hd, hvalues'⟩ := List.cons.inj hvalues
    have hlabel : x.label? = none ↔ d = .present := hd ▸ label?_eq_none_iff x
    have hx : Renews x.label? (Diff.coerce d.typeOf (.diff y.value) >>= d.add)
        (operand d.typeOf (.diff y) >>= addAt d x.label?) s :=
      renews_operand (v := .diff y) hs (hys.mono (List.subset_append_left _ _)) fun z u _ hu hz =>
        renews_addAt d hu hlabel hz
    have hself : x.label?.toList ⊆ labelsAll (x :: xs) := by
      rw [labelsAll, labels_eq, List.append_assoc]
      exact List.subset_append_left _ _
    have hrest : nodesAll ys ⊆ nodesAll (y :: ys) := List.subset_append_right _ _
    have h := renewsEach_cons hs hxs hnodup hx fun u hext hu hxs' =>
      renewsEach_addEach ds hu hxs' (List.nodup_append.mp hnodup).2.1 hvalues'
        ((hys.mono hrest).extends hext (hapart.mono hself hrest))
        (hapart.mono (List.subset_append_right _ _) hrest)
    simpa [addEach, Diff.addAll, valueAll, bind_assoc] using h

end

/-- Adding to an object in place comes to the sum of what it is by now and the operand. -/
theorem renews_plusEquals (x : Object C) {v : Value C} (hs : s.Valid)
    (hv : s.Settled v.nodes) :
    Renews x.label? ((x.after s.changes).value.plus v.values) (plusEquals x v) s := by
  have hlabel := label?_after s.changes x
  change Renews x.label? _ (operand (x.after s.changes).typeOf v >>= fun y =>
    addAt (x.after s.changes).value (x.after s.changes).label? y) s
  rw [hlabel]
  refine renews_operand hs hv fun y u _ hu hy => renews_addAt _ hu ?_ hy
  rw [← hlabel]
  exact label?_eq_none_iff _

mutual

theorem renews_negateAt : (d : Diff C) → {place : Option Nat} → {s : Progress C} → s.Valid →
    (place = none ↔ d = .present) → Renews place d.negate (negateAt d place) s
  | .int k n, place, s, hs, hplace => by
    have hsome : place ≠ none := fun h => nomatch hplace.mp h
    simp only [negateAt, Diff.negate]
    refine renews_change _ ?_ hsome fun a l => ⟨rfl, rfl, rfl⟩
    cases k.neg n <;> rfl
  | .present, place, s, hs, hplace => Or.inl ⟨_, s, rfl, rfl, .refl _ _⟩
  | .custom n c, place, s, hs, hplace => by
    have hsome : place ≠ none := fun h => nomatch hplace.mp h
    simp only [negateAt, Diff.negate]
    split
    · refine renews_change _ ?_ hsome fun a l => ⟨rfl, rfl, rfl⟩
      cases C.negate n c <;> rfl
    · exact Or.inl ⟨_, s, rfl, rfl, .refl _ _⟩
  | .tuple ts ds, place, s, hs, hplace => by
    have hsome : place ≠ none := fun h => nomatch hplace.mp h
    simp only [negateAt, Diff.negate]
    split
    · exact renews_takeOver hs hsome (fun l xs => ⟨rfl, rfl, rfl⟩)
        fun xs u _ hu hxs hnodup _ hvalues =>
          (renewsEach_negateEach ds hu hxs hnodup hvalues).map fun _ => rfl
    · exact Or.inl ⟨_, s, rfl, rfl, .refl _ _⟩
  | .vec t ds, place, s, hs, hplace => by
    have hsome : place ≠ none := fun h => nomatch hplace.mp h
    simp only [negateAt, Diff.negate]
    split
    · exact renews_takeOver hs hsome (fun l xs => ⟨rfl, rfl, rfl⟩)
        fun xs u _ hu hxs hnodup _ hvalues =>
          (renewsEach_negateEach ds hu hxs hnodup hvalues).map fun _ => rfl
    · exact Or.inl ⟨_, s, rfl, rfl, .refl _ _⟩

theorem renewsEach_negateEach : (ds : List (Diff C)) → {xs : List (Object C)} →
    {s : Progress C} → s.Valid → s.Settled (nodesAll xs) → (labelsAll xs).Nodup →
    valueAll xs = ds → RenewsEach (fun _ => []) xs (Diff.negateAll ds) (negateEach ds xs) s
  | [], xs, s, hs, hxs, hnodup, hvalues => by
    have h := renewsEach_pure hxs hnodup
    rw [hvalues] at h
    exact h
  | d :: ds, [], s, hs, hxs, hnodup, hvalues => nomatch hvalues
  | d :: ds, x :: xs, s, hs, hxs, hnodup, hvalues => by
    obtain ⟨hd, hvalues'⟩ := List.cons.inj hvalues
    have hlabel : x.label? = none ↔ d = .present := hd ▸ label?_eq_none_iff x
    exact renewsEach_cons hs hxs hnodup (renews_negateAt d hs hlabel) fun u _ hu hxs' =>
      renewsEach_negateEach ds hu hxs' (List.nodup_append.mp hnodup).2.1 hvalues'

end

theorem renews_negate (x : Object C) (hs : s.Valid) :
    Renews x.label? (x.after s.changes).value.negate (negate x) s := by
  have hlabel := label?_after s.changes x
  change Renews x.label? _ (negateAt (x.after s.changes).value (x.after s.changes).label?) s
  rw [hlabel]
  refine renews_negateAt _ hs ?_
  rw [← hlabel]
  exact label?_eq_none_iff _

theorem mem_labels_of_own {base : Nat} {x : Object C}
    (hx : OwnLabels base s.next (x.after s.changes).labels) {l : Nat} (hl : l ∈ x.label?.toList) :
    base ≤ l ∧ l < s.next := by
  refine hx.mem l ?_
  rw [labels_eq, label?_after]
  exact List.mem_append_left _ hl

/-- What operations in place make of an object of its own: they fail as `r` does, or they give it
the value that `r` gives, and it remains an object of its own. Nothing else that was there is
changed. -/
def Reworks (base : Nat) (x : Object C) (r : Except Fault (Diff C)) (m : UpdateM C Unit)
    (s : Progress C) : Prop :=
  ∃ t, Extends x.label?.toList s t ∧
    ((∃ f, r = .error f ∧ m.run s = (.error f, t)) ∨
    (r = .ok (x.after t.changes).value ∧ m.run s = (.ok (), t) ∧
      OwnLabels base t.next (x.after t.changes).labels))

theorem Renews.reworks {base : Nat} {x : Object C} {r : Except Fault (Diff C)} {m : UpdateM C Unit}
    (h : Renews x.label? r m s) (hx : OwnLabels base s.next (x.after s.changes).labels) :
    Reworks base x r m s := by
  rcases h with ⟨f, t, hf, hrun, hext⟩ | ⟨z, new, t, hz, hnew, hext, hrun⟩
  · exact ⟨t, hext.mono (List.nil_subset _), Or.inl ⟨f, hf, hrun⟩⟩
  · refine ⟨_, extends_commit hext hnew.label_eq, Or.inr ⟨?_, hrun, ?_⟩⟩
    all_goals rw [after_commit t.changes hnew.label_eq]
    · rw [hz, hnew.value_eq]
    · have hle := hx.le
      have hle' := hext.le
      have hlabel {l : Nat} (hl : l ∈ x.label?.toList) := mem_labels_of_own hx hl
      refine ⟨hle.trans hle', hnew.nodup_labels fun l hl => (hlabel hl).2, fun l hl => ?_⟩
      rcases hnew.mem_labels hl with hl | hl
      · exact ⟨(hlabel hl).1, (hlabel hl).2.trans_le hle'⟩
      · exact ⟨hle.trans hl.1, hl.2⟩

theorem Reworks.bind {base : Nat} {x : Object C} {r : Except Fault (Diff C)}
    {k : Diff C → Except Fault (Diff C)} {m m' : UpdateM C Unit} (h : Reworks base x r m s)
    (h' : ∀ t, Extends x.label?.toList s t → OwnLabels base t.next (x.after t.changes).labels →
      Reworks base x (k (x.after t.changes).value) m' t) :
    Reworks base x (r >>= k) (m >>= fun _ => m') s := by
  unfold Reworks
  rw [run_bind]
  obtain ⟨t, hext, ⟨f, rfl, hrun⟩ | ⟨rfl, hrun, hown⟩⟩ := h
  · rw [hrun]
    exact ⟨t, hext, Or.inl ⟨f, rfl, rfl⟩⟩
  · rw [hrun]
    obtain ⟨u, hext', hresult⟩ := h' t hext hown
    exact ⟨u, hext.trans hext' fun l hl => Or.inl hl, hresult⟩

private theorem reworks_plusEqualsEach {base : Nat} (x : Object C) (vs : List (Value C))
    (hs : s.Valid)
    (hx : OwnLabels base s.next (x.after s.changes).labels)
    (hvs : s.Settled (Datum.nodesAll vs)) (hapart : Apart x.label?.toList (Datum.nodesAll vs)) :
    Reworks base x ((x.after s.changes).value.plusAll (vs.map Datum.values))
      (plusEqualsEach x vs) s := by
  induction vs generalizing s with
  | nil => exact ⟨s, .refl _ _, Or.inr ⟨rfl, rfl, hx⟩⟩
  | cons v vs ih =>
    have hv := hvs.mono (List.subset_append_left _ _)
    have hrest : Datum.nodesAll vs ⊆ Datum.nodesAll (v :: vs) := List.subset_append_right _ _
    refine ((renews_plusEquals x hs hv).reworks hx).bind fun t hext hown => ?_
    have hvalid := hs.extends hext fun l hl => (mem_labels_of_own hx hl).2
    exact ih hvalid hown
      ((hvs.mono hrest).extends hext (hapart.mono (List.Subset.refl _) hrest))
      (hapart.mono (List.Subset.refl _) hrest)

/-- A sum comes to the sum of the values. It is a new object, and the data that are added are left
as they are. -/
theorem run_accumulate (vs : List (Value C)) (hs : s.Valid)
    (hvs : s.Settled (Datum.nodesAll vs)) :
    ∃ t, Extends [] s t ∧
      ((∃ f, Diff.accumulate (vs.map Datum.values) = .error f ∧
        (accumulate vs).run s = (.error f, t)) ∨
      ∃ x, Diff.accumulate (vs.map Datum.values) = .ok x.value ∧
        (accumulate vs).run s = (.ok x, t) ∧ x.after t.changes = x ∧
        OwnLabels s.next t.next x.labels) := by
  cases vs with
  | nil => exact ⟨s, .refl _ _, Or.inl ⟨_, rfl, rfl⟩⟩
  | cons v vs =>
    cases v with
    | diff x =>
      have hx : x.after s.changes = x := Settled.after_eq (hvs.mono (List.subset_append_left _ _))
      have hrest := hvs.mono (List.subset_append_right _ _)
      have hrun : (accumulate (.diff x :: vs)).run s = match x.value.clone with
          | .ok d =>
            (plusEqualsEach (ofDiff d s.next).1 vs >>= fun _ => read (ofDiff d s.next).1).run
              { s with next := (ofDiff d s.next).2 }
          | .error f => (.error f, s) := by
        change (attempt ((x.after s.changes).value.clone) >>= _).run s = _
        rw [hx, run_attempt_bind]
        cases x.value.clone <;> rfl
      rw [hrun]
      have hsum : Diff.accumulate (List.map Datum.values (.diff x :: vs)) =
          x.value.clone >>= fun d => d.plusAll (vs.map Datum.values) := rfl
      rw [hsum]
      cases hclone : x.value.clone with
      | error f => exact ⟨s, .refl _ _, Or.inl ⟨f, rfl, rfl⟩⟩
      | ok d =>
        have hown := ownLabels_ofDiff d s.next
        have hvalue := value_ofDiff d s.next
        simp only [ok_bind]
        generalize (ofDiff d s.next).1 = total at hown hvalue ⊢
        generalize (ofDiff d s.next).2 = n at hown ⊢
        have hext : Extends [] s { s with next := n } := .handOut _ hown.le
        have htotal : total.after s.changes = total := by
          have hsettled : Settled { s with next := n } total.nodes :=
            hs.settled fun y hy l hl => hown.mem l (mem_labels_iff.mpr ⟨y, hy, hl⟩)
          exact hsettled.after_eq
        have hapart : Apart total.label?.toList (Datum.nodesAll vs) := by
          refine hrest.apart fun l hl => (hown.mem l ?_).1
          rw [labels_eq]
          exact List.mem_append_left _ hl
        obtain ⟨t, hext', hresult⟩ := reworks_plusEqualsEach (s := { s with next := n }) total vs
          (hs.extends hext (by simp)) (by rwa [htotal]) (hrest.extends hext (Progress.apart_nil _))
          hapart
        simp only [htotal, hvalue] at hresult
        refine ⟨t, hext.trans hext' fun l hl => Or.inr (hown.mem l ?_), ?_⟩
        · rw [labels_eq]
          exact List.mem_append_left _ hl
        · rw [run_bind]
          rcases hresult with ⟨f, hf, hrun⟩ | ⟨hz, hrun, hown'⟩
          · rw [hrun]
            exact Or.inl ⟨f, hf, rfl⟩
          · rw [hrun]
            exact Or.inr ⟨_, hz, rfl, after_after _ _, hown'⟩
    | type c => cases c <;> exact ⟨s, .refl _ _, Or.inl ⟨_, rfl, rfl⟩⟩
    | _ => exact ⟨s, .refl _ _, Or.inl ⟨_, rfl, rfl⟩⟩

end DiffAlgebra.Object
