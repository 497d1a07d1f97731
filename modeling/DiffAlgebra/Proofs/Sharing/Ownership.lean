import DiffAlgebra.Proofs.Sharing.Frames
import DiffAlgebra.Proofs.Typing.Objects

/-!
# Ownership

Clones, ranges of sequences, sums and what is read from bytes or JSON are new objects at every
place, and so are the components that an operation in place gives its receiver. Nothing else reaches
them, so later operations in place on other objects do not change them, and those on them change
nothing else.
-/

namespace DiffAlgebra

variable {C : Catalog}

open Datum (nodesAll mem_nodesAll)

/-- The operations that give a new object: clones, ranges of sequences, sums, and what is read from
bytes or JSON. -/
def Operation.MakesNew (op : Operation) : Prop :=
  op ∈ [Operation.clone, .slice, .accumulate, .decode, .load]

/-- An outcome that has changed new objects only, and whose result consists of new objects if it is
one. -/
def Outcome.Makes (next : Nat) (o : Outcome C) : Prop :=
  ∃ t : Progress C, Progress.Extends [] ⟨[], next⟩ t ∧ o.writes = t.changes.map .object ∧
    o.schema = none ∧ ∀ x, o.result = .ok (.diff x) → Object.OwnLabels next t.next x.labels

namespace Outcome

theorem makes_shown (next : Nat) {r : Except Fault (Value C)}
    (h : ∀ x, r ≠ .ok (.diff x)) : (shown next r).Makes next :=
  ⟨_, .refl _ _, rfl, rfl, fun x hx => absurd hx (h x)⟩

theorem makes_failed (next : Nat) (f : Fault) : (failed next f : Outcome C).Makes next :=
  makes_shown next fun _ h => nomatch h

theorem Makes.settle {next : Nat} {o : Outcome C} (h : o.Makes next) : o.settle.Makes next := by
  obtain ⟨t, hext, hwrites, hschema, hown⟩ := h
  cases hr : o.result with
  | error f =>
    have hsettle : o.settle = o := by simp [Outcome.settle, hr]
    rw [hsettle]
    exact ⟨t, hext, hwrites, hschema, hown⟩
  | ok v =>
    refine ⟨t, hext, o.writes_settle.trans hwrites, ?_, fun x hx => hown x ?_⟩
    · simpa [Outcome.settle, hr] using hschema
    · rw [Outcome.result_settle_of_ok hr] at hx
      have hv : (v.settle o.next).1 = .diff x := Except.ok.inj hx
      cases v with
      | diff y =>
        cases hv
        exact hr
      | _ => cases hv

theorem makes_listed (next : Nat) (r : Except Fault (List (Value C))) :
    (listed next r).Makes next := by
  refine makes_shown next fun x hx => ?_
  obtain ⟨vs, -, hvs⟩ := map_eq_ok.mp hx
  cases hvs

theorem makes_built (next : Nat) (r : Except Fault (Diff C)) : (built next r).Makes next := by
  cases r with
  | error f => exact makes_failed next f
  | ok d =>
    have hown := Object.ownLabels_ofDiff d next
    refine ⟨_, .handOut [] hown.le, rfl, rfl, fun x hx => ?_⟩
    cases hx
    exact hown

end Outcome

namespace Session

variable {next : Nat}

theorem makes_clone (x : Value C) (next : Nat) : (clone x next).Makes next := by
  have hclone : clone x next = .built next (x.receiver Class.isDiff >>= fun o => o.value.clone) := by
    unfold clone Outcome.built Object.clone
    cases x.receiver Class.isDiff with
    | error f => rfl
    | ok o =>
      simp only [ok_bind]
      cases o.value.clone <;> rfl
  rw [hclone]
  exact Outcome.makes_built _ _

private theorem makes_slice (x : Value C) (bounds : List (Value C)) (next : Nat) :
    (slice x bounds next).Makes next := by
  unfold slice
  split
  · exact Outcome.makes_built _ _
  · exact Outcome.makes_listed _ _
  · exact Outcome.makes_listed _ _
  all_goals
    first
    | exact Outcome.makes_failed _ _
    | refine Outcome.makes_shown _ fun o ho => ?_
      obtain ⟨s, -, ho⟩ := bind_eq_ok.mp ho
      cases ho

theorem makes_decode (l data : Value C) (limit : Option (Value C)) (next : Nat) :
    (decode l data limit next).Makes next := by
  unfold decode
  dsimp only
  split
  · exact Outcome.makes_built _ _
  · exact ⟨_, .refl _ _, rfl, rfl, fun _ h => nomatch h⟩

theorem makes_accumulate {x : Value C} (hx : Coherent next x.nodes) :
    (accumulate x next).Makes next := by
  unfold accumulate
  split
  · exact Outcome.makes_failed _ _
  next vs hvs =>
    have hsettled := hx.settled.mono (Datum.nodesAll_items hvs)
    obtain ⟨t, hext, ⟨f, -, hrun⟩ | ⟨y, -, hrun, -, hown⟩⟩ :=
      Object.run_accumulate vs (Progress.valid_start next) hsettled
    · refine ⟨t, hext, ?_, rfl, fun z hz => ?_⟩
      all_goals simp_all [inPlace]
    · refine ⟨t, hext, ?_, rfl, fun z hz => ?_⟩
      · simp [inPlace, hrun]
      · simp only [inPlace, hrun, ok_map] at hz
        cases hz
        exact hown

end Session

/-- An operation that gives a new object does so on coherent operands. -/
theorem Operation.MakesNew.makes {op : Operation} (hop : op.MakesNew) {args : List (Value C)}
    {next : Nat} (hargs : Coherent next (nodesAll args)) (known : Schemas C) :
    (op.call args known next).Makes next := by
  have hfailed : (Outcome.failed next .badArguments : Outcome C).Makes next :=
    Outcome.makes_failed next _
  simp only [MakesNew, List.mem_cons, List.not_mem_nil, or_false] at hop
  rcases hop with rfl | rfl | rfl | rfl | rfl
  · rcases args with _ | ⟨x, _ | ⟨y, rest⟩⟩
    case cons.nil => exact Session.makes_clone x next
    all_goals exact hfailed
  · cases args with
    | nil => exact hfailed
    | cons x bounds => exact Session.makes_slice x bounds next
  · rcases args with _ | ⟨x, _ | ⟨y, rest⟩⟩
    case cons.nil => exact Session.makes_accumulate (by simpa using hargs)
    all_goals exact hfailed
  · rcases args with _ | ⟨l, _ | ⟨data, _ | ⟨limit, _ | ⟨y, rest⟩⟩⟩⟩
    case cons.cons.nil => exact Session.makes_decode l data none next
    case cons.cons.cons.nil => exact Session.makes_decode l data (some limit) next
    all_goals exact hfailed
  · rcases args with _ | ⟨l, _ | ⟨data, _ | ⟨y, rest⟩⟩⟩
    case cons.cons.nil => exact Outcome.makes_built next _
    all_goals exact hfailed

namespace Object

/-- The second object is reached from the first one without passing through `r`. -/
inductive ReachedBeside (r : Object C) : Object C → Object C → Prop where
  | self {x : Object C} (ne : x ≠ r) : ReachedBeside r x x
  | part {x y p : Object C} (reached : ReachedBeside r x y) (mem : p ∈ y.parts) (ne : p ≠ r) :
      ReachedBeside r x p

variable {r x y : Object C}

private theorem ReachedBeside.mem_nodes (h : ReachedBeside r x y) : y ∈ x.nodes := by
  induction h with
  | self => exact mem_nodes_self _
  | part _ mem _ ih => exact mem_nodes_trans ih (mem_nodes_of_mem_parts mem (mem_nodes_self _))

private theorem ReachedBeside.start_ne (h : ReachedBeside r x y) : x ≠ r := by
  induction h with
  | self ne => exact ne
  | part _ _ _ ih => exact ih

private theorem ReachedBeside.end_ne (h : ReachedBeside r x y) : y ≠ r := by
  cases h with
  | self ne => exact ne
  | part _ _ ne => exact ne

end Object

/-- The objects with the given labels belong to `r` alone: there were none of them before, they are
all different, and of what there is afterwards nothing reaches them but through `r`. -/
structure Owned (before after : List (Value C)) (r : Object C) (ls : List Nat) : Prop where
  fresh : ∀ y ∈ nodesAll before, ∀ l ∈ ls, y.label? ≠ some l
  distinct : ls.Nodup
  only : ∀ v ∈ after, ∀ x ∈ v.diffs, ∀ y, Object.ReachedBeside r x y → ∀ l ∈ ls, y.label? ≠ some l

namespace Session

variable {s : Session C} {c : Command C} {args : List (Value C)} {out : Outcome C}

/-- All objects that there were before a command remain coherent with those there are after it, also
those that nothing reaches any more. -/
theorem IsCoherent.coherent_after (hs : s.IsCoherent) (hout : s.attempt c = .ok (args, out)) :
    Coherent (s.step c).1.next (nodesAll ((s.step c).1.data ++
      (((nodesAll (s.data ++ args)).map (Object.writes out.writes)).map .diff ++ out.data))) := by
  have hstep : (s.step c).1 = s.after c out := by rw [step_of_attempt hout]
  have hheld : Coherent s.next (nodesAll (s.data ++ [])) := by rwa [List.append_nil]
  let all : List (Value C) := (nodesAll (s.data ++ args)).map .diff
  have hall : nodesAll all ⊆ nodesAll (s.data ++ args) := by
    intro y hy
    obtain ⟨v, hv, hyv⟩ := mem_nodesAll.mp hy
    obtain ⟨x, hx, rfl⟩ := List.mem_map.mp hv
    obtain ⟨u, hu, hxu⟩ := mem_nodesAll.mp hx
    exact mem_nodesAll.mpr ⟨u, hu, Datum.mem_nodes_trans hxu hyv⟩
  have hsub : s.data ++ [] ++ args ⊆ s.data ++ args ++ all := by simp
  have hafter := step_coherent hheld hout hsub (by simpa using hall)
  have hwrites : ((nodesAll (s.data ++ args)).map (Object.writes out.writes)).map Datum.diff =
      all.map (Datum.writes out.writes) := by
    simp only [all, List.map_map]
    exact List.map_congr_left fun y _ => (Datum.writes_diff _ y).symm
  refine hafter.mono (Datum.nodesAll_mono ?_) (Nat.le_refl _)
  rw [hstep, hwrites, List.map_append, List.append_assoc]
  refine List.append_subset.mpr ⟨List.Subset.trans (data_after_subset_args s c out args) ?_,
    List.subset_append_right _ _⟩
  exact List.append_subset.mpr ⟨List.subset_append_left _ _,
    List.subset_append_of_subset_right _ (List.subset_append_right _ _)⟩

/-- What there is after a command: what there was before, as it has been changed, and what the
command hands out. -/
theorem mem_after (hout : s.attempt c = .ok (args, out)) {v : Value C}
    (hv : v ∈ (s.step c).1.data ++ args.map (Datum.writes out.writes)) :
    (∃ u ∈ s.data ++ args, v = u.writes out.writes) ∨ v ∈ out.data := by
  have hstep : (s.step c).1 = s.after c out := by rw [step_of_attempt hout]
  rw [hstep] at hv
  rcases List.mem_append.mp hv with hv | hv
  · rcases List.mem_append.mp (data_after_subset_args s c out args hv) with hv | hv
    · obtain ⟨u, hu, rfl⟩ := List.mem_map.mp hv
      exact Or.inl ⟨u, hu, rfl⟩
    · exact Or.inr hv
  · obtain ⟨u, hu, rfl⟩ := List.mem_map.mp hv
    exact Or.inl ⟨u, List.mem_append_right _ hu, rfl⟩

private theorem IsCoherent.attempt_makes (hs : s.IsCoherent) (hc : c.operation.MakesNew)
    (hout : s.attempt c = .ok (args, out)) :
    ∃ next, Coherent next (nodesAll (s.data ++ args)) ∧ out.Makes next := by
  obtain ⟨next, -, rfl, hpool⟩ := hs.attempt hout
  have hargs := hpool.of_append_right
  have hsame : c.operation ≠ .same := by
    intro h
    simp [Operation.MakesNew, h] at hc
  rw [Command.call_of_ne_same rfl hsame]
  exact ⟨next, hpool, (hc.makes hargs s.schemas).settle⟩

/-- What an operation gives as a new object belongs to nothing else, and is independent of all
objects that there were. -/
theorem IsCoherent.owns_result (hs : s.IsCoherent) (hc : c.operation.MakesNew)
    (hout : s.attempt c = .ok (args, out)) {r : Object C} (hr : out.result = .ok (.diff r)) :
    Owned (s.data ++ args) ((s.step c).1.data ++ args.map (Datum.writes out.writes)) r r.labels ∧
    (s.step c).1.Independent r fun z =>
      ∃ y ∈ nodesAll (s.data ++ args), z = y.writes out.writes := by
  obtain ⟨next, hpool, t, hext, hwrites, hschema, hown⟩ := hs.attempt_makes hc hout
  have hown := hown r hr
  have hdata : out.data = [.diff r] := by simp [Outcome.data, hr, hschema, yields]
  have hfresh := hown.fresh hpool
  have hsettled := hpool.settled.extends hext (Progress.apart_nil _)
  refine ⟨⟨hfresh, hown.nodup, ?_⟩, ?_⟩
  · intro v hv x hx y hy l hl
    rcases mem_after hout hv with ⟨u, hu, rfl⟩ | hv
    · rw [hwrites, writes_eq_self hpool hext hu] at hx
      refine hfresh y (mem_nodesAll.mpr ⟨u, hu, ?_⟩) l hl
      exact Datum.mem_nodes_trans
        (Datum.nodes_subset_of_mem_diffs hx (Object.mem_nodes_self x)) hy.mem_nodes
    · rw [hdata, List.mem_singleton] at hv
      rw [hv] at hx
      exact absurd (List.mem_singleton.mp hx) hy.start_ne
  · have hheld : Coherent (s.step c).1.next (nodesAll ((s.step c).1.data ++
        ((nodesAll (s.data ++ args)).map (Object.writes out.writes) ++ [r]).map .diff)) := by
      simpa [hdata] using hs.coherent_after hout
    refine independent_of_apart hheld (by simp) ?_ ?_
    · rintro _ ⟨y, hy, rfl⟩
      exact List.mem_append_left _ (List.mem_map_of_mem hy)
    · rintro _ ⟨y, hy, rfl⟩ l hl hlr
      have hbelow := Datum.nodes_subset_of_mem_nodesAll hy
      rw [hwrites, Object.writes_object, (hsettled.mono hbelow).after_eq] at hl
      obtain ⟨w, hw, hwl⟩ := Object.mem_labels_iff.mp hl
      exact hfresh w (hbelow hw) l hlr hwl

section Commit

variable {pool : List (Value C)} {next : Nat} {t : Progress C} {x new q w y : Object C}

private theorem parts_after_commit (hpool : Coherent next (nodesAll pool)) (hx : x ∈ nodesAll pool)
    (hext : Progress.Extends [] ⟨[], next⟩ t) (hnew : new.label? = x.label?)
    (hq : q ∈ nodesAll pool) (hqx : q ≠ x) :
    (q.after (t.changes ++ (x.label?.map fun _ => new).toList)).parts =
      q.parts.map (Object.after (t.changes ++ (x.label?.map fun _ => new).toList)) := by
  have hsettled := hpool.settled.extends hext (Progress.apart_nil _)
  refine Object.parts_after fun d hd => ?_
  rintro ⟨l, hdl, hql⟩
  rcases List.mem_append.mp hd with hd | hd
  · exact hsettled.unchanged hq hql hd hdl
  · obtain ⟨k, -, rfl⟩ := Option.map_eq_some_iff.mp (Option.mem_toList.mp hd)
    exact hqx (hpool.eq_of_label hq hx hql (hnew.symm.trans hdl))

/-- What is reached beside the changed object was there before. -/
theorem exists_of_reachedBeside (hpool : Coherent next (nodesAll pool)) (hx : x ∈ nodesAll pool)
    (hext : Progress.Extends [] ⟨[], next⟩ t) (hnew : new.label? = x.label?)
    (hw : w ∈ nodesAll pool)
    (hy : Object.ReachedBeside new (w.after (t.changes ++ (x.label?.map fun _ => new).toList)) y) :
    ∃ q ∈ nodesAll pool, y = q.after (t.changes ++ (x.label?.map fun _ => new).toList) := by
  induction hy with
  | self => exact ⟨w, hw, rfl⟩
  | part reached mem _ ih =>
    obtain ⟨q, hq, rfl⟩ := ih
    have hqx : q ≠ x := by
      rintro rfl
      exact reached.end_ne (Object.after_commit _ hnew)
    rw [parts_after_commit hpool hx hext hnew hq hqx] at mem
    obtain ⟨p, hp, rfl⟩ := List.mem_map.mp mem
    refine ⟨p, Datum.nodes_subset_of_mem_nodesAll hq ?_, rfl⟩
    exact Object.mem_nodes_of_mem_parts hp (Object.mem_nodes_self p)

/-- An object that does not reach the changed one shares no label with it, neither before nor after
the change. -/
theorem labels_beside (hpool : Coherent next (nodesAll pool)) (hx : x ∈ nodesAll pool) {last : Nat}
    (hown : Object.OwnLabels next last (Object.labelsAll new.parts))
    (hnew : new.label? = x.label?) (hy : y ∈ nodesAll pool) (hxy : x ∉ y.nodes) :
    (∀ l ∈ y.labels, x.label? ≠ some l) ∧ ∀ l ∈ y.labels, l ∉ new.labels := by
  have hbelow := Datum.nodes_subset_of_mem_nodesAll hy
  have hlabel (l : Nat) (hl : l ∈ y.labels) : x.label? ≠ some l := by
    intro hxl
    obtain ⟨w, hw, hwl⟩ := Object.mem_labels_iff.mp hl
    exact hxy (hpool.eq_of_label (hbelow hw) hx hwl hxl ▸ hw)
  refine ⟨hlabel, fun l hl hlnew => ?_⟩
  rw [Object.labels_eq, hnew] at hlnew
  rcases List.mem_append.mp hlnew with hlx | hlparts
  · exact hlabel l hl (Option.mem_toList.mp hlx)
  · obtain ⟨w, hw, hwl⟩ := Object.mem_labels_iff.mp hl
    exact hown.fresh hpool w (hbelow hw) l hlparts hwl

end Commit

/-- The components that an operation in place gives its receiver belong to the receiver, which is
independent of all objects that do not reach it. -/
theorem IsCoherent.owns_receiver (hs : s.IsCoherent) (hc : c.operation.InPlace)
    {x : Object C} {rest : List (Value C)} (hout : s.attempt c = .ok (.diff x :: rest, out))
    {v : Value C} (hv : out.result = .ok v) :
    Owned (s.data ++ .diff x :: rest)
      ((s.step c).1.data ++ (Datum.diff x :: rest).map (Datum.writes out.writes))
      (x.writes out.writes) (Object.labelsAll (x.writes out.writes).parts) ∧
    (s.step c).1.Independent (x.writes out.writes) fun z =>
      ∃ y ∈ nodesAll (s.data ++ .diff x :: rest), x ∉ y.nodes ∧ z = y.writes out.writes := by
  have hheld : Coherent s.next (nodesAll (s.data ++ [])) := by rwa [List.append_nil]
  obtain ⟨next, hpool, hrenews⟩ := attempt_renews hheld hc hout
  rw [List.append_nil] at hpool
  have hunchanged {y : Object C} := hrenews.writes_eq_self (y := y) hpool
  obtain ⟨t, hext, -, hschema, ⟨f, hf, -⟩ | ⟨_, _, z, new, hargs, hnew, hr, hwrites⟩⟩ := hrenews
  · cases hf.symm.trans hv
  cases hargs
  have hdata : out.data = [.null] := by simp [Outcome.data, hr, hschema, yields]
  have hx : x ∈ nodesAll (s.data ++ .diff x :: rest) :=
    mem_nodesAll.mpr ⟨.diff x, by simp, Object.mem_nodes_self x⟩
  have hxs : x.writes out.writes = new := by
    rw [hwrites, Object.writes_object, Object.after_commit _ hnew.label_eq]
  have hfresh := hnew.own.fresh hpool
  rw [hxs]
  refine ⟨⟨hfresh, hnew.own.nodup, ?_⟩, ?_⟩
  · intro v hv y hy z hz l hl
    rcases mem_after hout hv with ⟨u, hu, rfl⟩ | hv
    · rw [hwrites, Datum.writes_object, Datum.diffs_map] at hy
      obtain ⟨w, hw, rfl⟩ := List.mem_map.mp hy
      have hmem := Datum.nodes_subset_of_mem_diffs hw (Object.mem_nodes_self w)
      obtain ⟨q, hq, rfl⟩ := exists_of_reachedBeside hpool hx hext hnew.label_eq
        (mem_nodesAll.mpr ⟨u, hu, hmem⟩) hz
      rw [Object.label?_after]
      exact hfresh q hq l hl
    · rw [hdata, List.mem_singleton] at hv
      rw [hv] at hy
      cases hy
  · have hafter : Coherent (s.step c).1.next (nodesAll ((s.step c).1.data ++
        ((nodesAll (s.data ++ .diff x :: rest)).map (Object.writes out.writes)).map .diff)) := by
      refine (hs.coherent_after hout).mono (Datum.nodesAll_mono ?_) (Nat.le_refl _)
      rw [← List.append_assoc]
      exact List.subset_append_left _ _
    refine independent_of_apart hafter (hxs ▸ List.mem_map_of_mem hx) ?_ ?_
    · rintro _ ⟨y, hy, -, rfl⟩
      exact List.mem_map_of_mem hy
    · rintro _ ⟨y, hy, hxy, rfl⟩ l hl hlnew
      obtain ⟨hlabel, hapart⟩ := labels_beside hpool hx hnew.own hnew.label_eq hy hxy
      have hsame : y.writes out.writes = y := by
        refine hunchanged (Datum.nodes_subset_of_mem_nodesAll hy) ?_
        intro _ _ hargs l hxl hly
        cases hargs
        exact hlabel l hly hxl
      exact hapart l (hsame ▸ hl) hlnew

/-- In a session that commands lead to, what a clone, a range of a sequence, a sum or a reading
gives, and the components that an operation in place gives its receiver, are new objects, all of
them different, and nothing reaches them but through that result or receiver. Operations in place on
the objects that there were before and that do not contain the receiver never change it, nor the
result, and operations on these and their components never change those objects. -/
theorem Reachable.ownership (hs : s.Reachable) (hout : s.attempt c = .ok (args, out)) :
    (c.operation.MakesNew → ∀ r, out.result = .ok (.diff r) →
      Owned (s.data ++ args) ((s.step c).1.data ++ args.map (Datum.writes out.writes))
        r r.labels ∧
      (s.step c).1.Independent r fun z =>
        ∃ y ∈ nodesAll (s.data ++ args), z = y.writes out.writes) ∧
    (c.operation.InPlace → ∀ x rest v, args = .diff x :: rest → out.result = .ok v →
      Owned (s.data ++ args) ((s.step c).1.data ++ args.map (Datum.writes out.writes))
        (x.writes out.writes) (Object.labelsAll (x.writes out.writes).parts) ∧
      (s.step c).1.Independent (x.writes out.writes) fun z =>
        ∃ y ∈ nodesAll (s.data ++ args), x ∉ y.nodes ∧ z = y.writes out.writes) := by
  refine ⟨fun hc r hr => hs.isCoherent.owns_result hc hout hr, ?_⟩
  rintro hc x rest v rfl hv
  exact hs.isCoherent.owns_receiver hc hout hv

/-- A pair is cloned, and it is added to itself; its components are one object. -/
theorem ownership_sharedPair :
    (∃ args out r, (sharedPair 100).attempt ⟨.clone, [.var "pair"], some "copy"⟩ = .ok (args, out) ∧
      out.result = .ok (.diff r) ∧ r.labels.Nodup) ∧
    ∃ args out x rest,
      (sharedPair 100).attempt ⟨.plusEquals, [.var "pair", .var "pair"], none⟩ = .ok (args, out) ∧
      args = .diff x :: rest ∧ out.result = .ok .null ∧
      (Object.labelsAll (x.writes out.writes).parts).Nodup := by
  have hs := reachable_sharedPair 100
  let copy : Command specimens := ⟨.clone, [.var "pair"], some "copy"⟩
  let add : Command specimens := ⟨.plusEquals, [.var "pair", .var "pair"], none⟩
  refine ⟨⟨_, _, _, rfl, rfl, ?_⟩, ⟨_, _, _, _, rfl, rfl, rfl, ?_⟩⟩
  · exact ((hs.ownership (c := copy) rfl).1 (by simp [copy, Operation.MakesNew]) _ rfl).1.distinct
  · exact ((hs.ownership (c := add) rfl).2 (Or.inl rfl) _ _ _ rfl rfl).1.distinct

end Session

end DiffAlgebra
