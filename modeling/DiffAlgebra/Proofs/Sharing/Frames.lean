import DiffAlgebra.Proofs.Sharing.InPlace

/-!
# Runs of operations in place

An operation in place changes what reaches its receiver and nothing else, and what it changes gets
new labels only. So objects without common labels never notice operations in place on each other,
nor on what the others consist of by then.
-/

namespace DiffAlgebra

variable {C : Catalog}

open Datum (nodesAll mem_nodesAll)

theorem Datum.writes_diff (ws : List (Write C)) (x : Object C) :
    (Datum.diff x).writes ws = .diff (x.writes ws) := by
  induction ws generalizing x with
  | nil => rfl
  | cons w ws ih =>
    have hw : (Datum.diff x).write w = .diff (w.onObject x) := by cases w <;> rfl
    change ((Datum.diff x).write w).writes ws = _
    rw [hw, ih]
    rfl

theorem Object.writes_append (ws us : List (Write C)) (x : Object C) :
    x.writes (ws ++ us) = (x.writes ws).writes us :=
  List.foldl_append

namespace Outcome.Renews

variable {pool args : List (Value C)} {next : Nat} {o : Outcome C} {x y : Object C}

theorem writes_eq_self (h : o.Renews args next) (hpool : Coherent next (nodesAll pool))
    (hy : y.nodes ⊆ nodesAll pool)
    (hapart : ∀ x rest, args = .diff x :: rest → ∀ l, x.label? = some l → l ∉ y.labels) :
    y.writes o.writes = y := by
  obtain ⟨t, hext, -, -, hresult⟩ := h
  obtain ⟨cs, hcs, hnew⟩ := hext.changes
  have hchanges (c : Object C) (hc : c ∈ t.changes) (l : Nat) (hl : c.label? = some l) :
      l ∉ y.labels := by
    intro hly
    rw [hcs] at hc
    have hle := (hnew c hc l hl).resolve_left List.not_mem_nil
    exact absurd (hpool.lt_of_mem_labels hy hly) (Nat.not_lt.mpr hle.1)
  rcases hresult with ⟨f, -, hwrites⟩ | ⟨x, rest, z, new, rfl, hrenewed, -, hwrites⟩
  · rw [hwrites, Object.writes_object]
    exact Object.after_eq_self hchanges
  · rw [hwrites, Object.writes_object]
    refine Object.after_eq_self fun c hc l hl => ?_
    rcases List.mem_append.mp hc with hc | hc
    · exact hchanges c hc l hl
    · cases hx : x.label? with
      | none => simp [hx] at hc
      | some k =>
        simp only [hx, Option.map_some, Option.toList_some, List.mem_singleton] at hc
        rw [hc, hrenewed.label_eq] at hl
        exact hapart x rest rfl l hl

private theorem label_writes (h : o.Renews args next) (hpool : Coherent next (nodesAll pool))
    (hy : y.nodes ⊆ nodesAll pool) {l : Nat} (hl : l ∈ (y.writes o.writes).labels) :
    l ∈ y.labels ∨ next ≤ l := by
  by_cases hreached : ∀ x rest, args = .diff x :: rest → ∀ l, x.label? = some l → l ∉ y.labels
  · rw [h.writes_eq_self hpool hy hreached] at hl
    exact Or.inl hl
  · push Not at hreached
    obtain ⟨x, rest, hargs, k, hx, hk⟩ := hreached
    obtain ⟨t, hext, -, -, ⟨f, -, hwrites⟩ | ⟨_, _, z, new, hargs', hrenewed, -, hwrites⟩⟩ := h
    all_goals
      have hsettled := (hpool.settled.extends hext (Progress.apart_nil _)).mono hy
      rw [hwrites, Object.writes_object] at hl
    · rw [hsettled.after_eq] at hl
      exact Or.inl hl
    · cases hargs.symm.trans hargs'
      rw [Object.after_append, hsettled.after_eq, hx] at hl
      obtain ⟨w, hw, hwl⟩ := Object.mem_labels_iff.mp hl
      rcases Object.mem_nodes_write hw with hw | ⟨v, hv, rfl⟩
      · rcases hrenewed.mem_labels (Object.mem_labels_iff.mpr ⟨w, hw, hwl⟩) with hlx | hfresh
        · rw [hx, Option.toList_some, List.mem_singleton] at hlx
          exact Or.inl (hlx ▸ hk)
        · exact Or.inr hfresh.1
      · rw [Object.label?_write] at hwl
        exact Or.inl (Object.mem_labels_iff.mpr ⟨v, hv, hwl⟩)

end Outcome.Renews

theorem Outcome.Renews.settle {args : List (Value C)} {next : Nat} {o : Outcome C}
    (h : o.Renews args next) : o.settle.Renews args next := by
  obtain ⟨t, hext, hnext, hschema, hresult⟩ := h
  rcases hresult with ⟨f, hf, hwrites⟩ | ⟨x, rest, z, new, hargs, hnew, hr, hwrites⟩
  · have hsettle : o.settle = o := by simp [Outcome.settle, hf]
    rw [hsettle]
    exact ⟨t, hext, hnext, hschema, Or.inl ⟨f, hf, hwrites⟩⟩
  · have hsettle : o.settle = o := by
      cases o
      cases hr
      rfl
    rw [hsettle]
    exact ⟨t, hext, hnext, hschema, Or.inr ⟨x, rest, z, new, hargs, hnew, hr, hwrites⟩⟩

namespace Session

theorem attempt_renews {s : Session C} {held args : List (Value C)} {c : Command C}
    {out : Outcome C} (hs : Coherent s.next (nodesAll (s.data ++ held)))
    (hc : c.operation.InPlace) (hout : s.attempt c = .ok (args, out)) :
    ∃ next, Coherent next (nodesAll (s.data ++ held ++ args)) ∧ out.Renews args next := by
  obtain ⟨next, -, rfl, hpool⟩ := attempt_beside hs hout
  have hargs := hpool.of_append_right
  rw [Command.call_of_ne_same rfl hc.ne_same]
  exact ⟨next, hpool, (hc.renews hargs s.schemas).settle⟩

/-- Operations in place lead from a session to another and make the given changes on the way. Each
is called on an object that `admits` admits after the changes so far. Between them there may be
commands that change nothing. -/
inductive Updates (s : Session C) (admits : List (Write C) → Object C → Prop) :
    List (Write C) → Session C → Prop where
  | start : Updates s admits [] s
  | refused {ws : List (Write C)} {t : Session C} {c : Command C} {f : Fault}
      (before : Updates s admits ws t) (fault : t.attempt c = .error f) :
      Updates s admits ws (t.step c).1
  | idle {ws : List (Write C)} {t : Session C} {c : Command C} {args : List (Value C)}
      {out : Outcome C} (before : Updates s admits ws t) (attempt : t.attempt c = .ok (args, out))
      (quiet : out.writes = []) : Updates s admits ws (t.step c).1
  | called {ws : List (Write C)} {t : Session C} {c : Command C} {args : List (Value C)}
      {out : Outcome C} (before : Updates s admits ws t) (inPlace : c.operation.InPlace)
      (attempt : t.attempt c = .ok (args, out))
      (receiver : ∀ x rest, args = .diff x :: rest → admits ws x) :
      Updates s admits (ws ++ out.writes) (t.step c).1

/-- Operations in place on some objects, and on what these consist of by then, leave an object as it
is that has no label in common with them. -/
theorem Updates.frame {s t : Session C} {admits : List (Write C) → Object C → Prop}
    {ws : List (Write C)} (h : s.Updates admits ws t) {held : List (Object C)}
    (hheld : Coherent s.next (nodesAll (s.data ++ held.map .diff))) {x : Object C}
    (hx : x ∈ held) {zs : Object C → Prop} (hzs : ∀ z, zs z → z ∈ held)
    (hapart : ∀ z, zs z → ∀ l ∈ z.labels, l ∉ x.labels)
    (hadmits : ∀ ws y, admits ws y → ∃ z, zs z ∧ y ∈ (z.writes ws).nodes) :
    x.writes ws = x := by
  suffices hinv : Coherent t.next (nodesAll (t.data ++ (held.map .diff).map (Datum.writes ws))) ∧
      x.writes ws = x ∧ ∀ z, zs z → ∀ l ∈ (z.writes ws).labels, l ∉ x.labels from hinv.2.1
  induction h with
  | start =>
    rw [Outcome.map_writes_nil]
    exact ⟨hheld, rfl, hapart⟩
  | refused _ fault ih =>
    rw [step_eq, fault]
    exact ih
  | idle _ attempt quiet ih =>
    have hnext := step_beside ih.1 attempt
    rw [quiet, Outcome.map_writes_nil] at hnext
    exact ⟨hnext, ih.2⟩
  | @called ws t c args out _ inPlace attempt receiver ih =>
    obtain ⟨hcoherent, hxs, hlabels⟩ := ih
    have hnext := step_beside hcoherent attempt
    obtain ⟨next, hpool, hrenews⟩ := attempt_renews hcoherent inPlace attempt
    have hnodes {z : Object C} (hz : z ∈ held) : (z.writes ws).nodes ⊆
        nodesAll (t.data ++ (held.map .diff).map (Datum.writes ws) ++ args) := by
      have hmem : Datum.diff (z.writes ws) ∈ (held.map .diff).map (Datum.writes ws) := by
        rw [← Datum.writes_diff]
        exact List.mem_map_of_mem (List.mem_map_of_mem hz)
      exact Datum.nodes_subset_nodesAll
        (List.mem_append_left _ (List.mem_append_right _ hmem))
    have hxnodes := hnodes hx
    rw [hxs] at hxnodes
    refine ⟨?_, ?_, fun z hz l hl hlx => ?_⟩
    · rwa [← Datum.map_writes_append] at hnext
    · rw [Object.writes_append, hxs]
      refine hrenews.writes_eq_self hpool hxnodes fun y rest hargs l hl => ?_
      obtain ⟨z, hz, hyz⟩ := hadmits ws y (receiver y rest hargs)
      exact hlabels z hz l (Object.mem_labels_iff.mpr ⟨y, hyz, hl⟩)
    · rw [Object.writes_append] at hl
      rcases hrenews.label_writes hpool (hnodes (hzs z hz)) hl with hl | hle
      · exact hlabels z hz l hl hlx
      · exact absurd (hpool.lt_of_mem_labels hxnodes hlx) (Nat.not_lt.mpr hle)

/-- Operations in place on some objects never change `r`, and those on `r` never change them. That
includes operations on what the objects consist of by then. -/
def Independent (s : Session C) (r : Object C) (zs : Object C → Prop) : Prop :=
  (∀ ws t, s.Updates (fun ws y => ∃ z, zs z ∧ y ∈ (z.writes ws).nodes) ws t → r.writes ws = r) ∧
  ∀ ws t, s.Updates (fun ws y => y ∈ (r.writes ws).nodes) ws t → ∀ z, zs z → z.writes ws = z

/-- Objects without common labels are independent. -/
theorem independent_of_apart {s : Session C} {held : List (Object C)}
    (hheld : Coherent s.next (nodesAll (s.data ++ held.map .diff))) {r : Object C} (hr : r ∈ held)
    {zs : Object C → Prop} (hzs : ∀ z, zs z → z ∈ held)
    (hapart : ∀ z, zs z → ∀ l ∈ z.labels, l ∉ r.labels) : s.Independent r zs := by
  constructor
  · intro ws t h
    exact h.frame hheld hr hzs hapart fun _ _ hy => hy
  · intro ws t h z hz
    have hmem : ∀ y, y = r → y ∈ held := fun y hy => hy ▸ hr
    refine h.frame hheld (hzs z hz) hmem ?_ fun _ y hy => ⟨r, rfl, hy⟩
    rintro _ rfl l hl hlz
    exact hapart z hz l hlz hl

end Session

end DiffAlgebra
