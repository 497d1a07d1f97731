import DiffAlgebra.Proofs.Laws.Checks
import DiffAlgebra.Proofs.Sharing.Bare

/-!
# Law checks keep a pool coherent

The checks of additive laws change clones only. The check that multiplication changes nothing may
change something that was there, if a custom multiplication does. A run of checks makes such changes
one after the other. Its samples and multiplicands are among the data that it starts from, as they
are after the changes so far.
-/

namespace DiffAlgebra

variable {C : Catalog}

open Datum (nodesAll mem_nodesAll)

/-- Checking that a multiplication changes nothing leaves a coherent pool. The copies that it
compares with are dropped. -/
theorem Law.coherent_checkMultiplyPurity {pool : List (Value C)} {next : Nat}
    (hpool : Coherent next (nodesAll pool)) {x operand : Value C} (hx : x.nodes ⊆ nodesAll pool)
    (hop : operand.nodes ⊆ nodesAll pool) :
    next ≤ (checkMultiplyPurity x operand next).next ∧
      Coherent (checkMultiplyPurity x operand next).next
        (nodesAll (pool.map (Datum.writes (checkMultiplyPurity x operand next).writes))) := by
  have hkeep {last : Nat} (hle : next ≤ last) :
      next ≤ last ∧ Coherent last (nodesAll (pool.map (Datum.writes []))) := by
    rw [Outcome.map_writes_nil]
    exact ⟨hle, hpool.mono (List.Subset.refl _) hle⟩
  unfold checkMultiplyPurity
  split
  · exact hkeep (Nat.le_refl _)
  next before last hbefore =>
    have hle := (Datum.joins_deepCopy hbefore hx hpool).le
    have hpool' := hpool.mono (List.Subset.refl _) hle
    split
    · exact hkeep hle
    next operandBefore last' hoperand =>
      have hle' := (Datum.joins_deepCopy hoperand hop hpool').le
      have hpool'' := hpool'.mono (List.Subset.refl _) hle'
      split
      · exact hkeep (hle.trans hle')
      next d hd =>
        have hdx : d.nodes ⊆ nodesAll pool := by
          rw [Datum.eq_diff_of_receiver hd] at hx
          exact hx
        obtain ⟨hnext, hcoherent⟩ := Session.coherent_multiply hpool'' hdx hop
        refine ⟨(hle.trans hle').trans hnext, hcoherent.mono ?_ (Nat.le_refl _)⟩
        rw [Datum.nodesAll_append]
        exact List.subset_append_left _ _

namespace LawRun

inductive Reached (samples multiplicands : List (Value C)) (next : Nat) : LawRun C → Prop where
  | start : Reached samples multiplicands next (start samples multiplicands next)
  | check {r} (h : Reached samples multiplicands next r) (c : LawCheck) :
      Reached samples multiplicands next (r.check c).2
  | record {r} (h : Reached samples multiplicands next r) (v : Option LawViolation) :
      Reached samples multiplicands next (r.record v)
  | note {r} (h : Reached samples multiplicands next r) (log : List LogLine) :
      Reached samples multiplicands next { r with log := log }

theorem Reached.checkAll {samples multiplicands : List (Value C)} {next : Nat} {r : LawRun C}
    (h : Reached samples multiplicands next r) (cs : List LawCheck) :
    Reached samples multiplicands next (r.checkAll cs).2 := by
  induction cs generalizing r with
  | nil => exact h
  | cons c cs ih =>
    have hc := h.check c
    unfold LawRun.checkAll
    split
    next v r' hv =>
      rw [hv] at hc
      exact ih (hc.record v)
    next f r' hf =>
      rw [hf] at hc
      exact hc

/-- What holds of a run of checks on data of `base`. -/
structure Sound (base : List (Value C)) (next : Nat) (r : LawRun C) : Prop where
  le : next ≤ r.next
  samples_mem : r.samples ⊆ base.map (Datum.writes r.writes)
  multiplicands_mem : r.multiplicands ⊆ base.map (Datum.writes r.writes)
  coherent : Coherent r.next (nodesAll (base.map (Datum.writes r.writes)))

namespace Sound

variable {base : List (Value C)} {next : Nat} {r : LawRun C}

theorem start {samples multiplicands : List (Value C)} (hbase : Coherent next (nodesAll base))
    (hs : samples ⊆ base) (hm : multiplicands ⊆ base) :
    Sound base next (start samples multiplicands next) := by
  refine ⟨Nat.le_refl _, ?_, ?_, ?_⟩
  all_goals simp only [LawRun.start, Outcome.map_writes_nil]
  · exact hs
  · exact hm
  · exact hbase

theorem nodes_getD_subset {vs ws : List (Value C)} (h : vs ⊆ ws) (i : Nat) :
    (vs.getD i .null).nodes ⊆ nodesAll ws := by
  rw [List.getD_eq_getElem?_getD]
  cases hi : vs[i]? with
  | none => exact List.nil_subset _
  | some v => exact Datum.nodes_subset_nodesAll (h (List.mem_of_getElem? hi))

theorem change (h : Sound base next r) {ws : List (Write C)} {last : Nat} (hle : r.next ≤ last)
    (hcoherent : Coherent last
      (nodesAll ((base.map (Datum.writes r.writes)).map (Datum.writes ws)))) :
    Sound base next (r.change ws last) where
  le := h.le.trans hle
  samples_mem := by
    simp only [LawRun.change, Datum.map_writes_append]
    exact List.map_subset _ h.samples_mem
  multiplicands_mem := by
    simp only [LawRun.change, Datum.map_writes_append]
    exact List.map_subset _ h.multiplicands_mem
  coherent := by
    simp only [LawRun.change, Datum.map_writes_append]
    exact hcoherent

/-- The samples of a run are settled for each of its checks. -/
theorem settled_sample (h : Sound base next r) (i : Nat) :
    Progress.Settled ⟨[], r.next⟩ (r.sample i).nodes :=
  h.coherent.settled.mono (nodes_getD_subset h.samples_mem i)

/-- A check changes clones only, or it makes a multiplication. -/
theorem check_cases (h : Sound base next r) (c : LawCheck) :
    (r.check c).2 = r ∨
    (∃ t, Progress.Extends [] ⟨[], r.next⟩ t ∧
      (r.check c).2 = r.change (t.changes.map .object) t.next) ∨
    ∃ i m, (r.check c).2 = r.change
      (Law.checkMultiplyPurity (r.sample i) (r.multiplicand m) r.next).writes
      (Law.checkMultiplyPurity (r.sample i) (r.multiplicand m) r.next).next := by
  have hvalid := Progress.valid_start (C := C) r.next
  have hsettled (i : Nat) := h.settled_sample i
  have hsample (i : Nat) := (hsettled i).upToDate
  cases c with
  | zeroIdentity i =>
    have hm := Law.mirrors_checkZeroIdentity hvalid (hsample i)
    exact Or.inr (Or.inl ⟨_, hm.extends_run, rfl⟩)
  | negationInverse i =>
    have hm := Law.mirrors_checkNegationInverse hvalid (hsettled i)
    exact Or.inr (Or.inl ⟨_, hm.extends_run, rfl⟩)
  | commutativity i j =>
    have hm := Law.mirrors_checkCommutativity hvalid (hsample i) (hsample j)
    exact Or.inr (Or.inl ⟨_, hm.extends_run, rfl⟩)
  | associativity i j k =>
    have hm := Law.mirrors_checkAssociativity hvalid (hsample i) (hsample j) (hsample k)
    exact Or.inr (Or.inl ⟨_, hm.extends_run, rfl⟩)
  | undeclared => exact Or.inl rfl
  | multiplyPurity i m => exact Or.inr (Or.inr ⟨i, m, rfl⟩)

theorem check (h : Sound base next r) (c : LawCheck) : Sound base next (r.check c).2 := by
  rcases h.check_cases c with hr | ⟨t, hext, hr⟩ | ⟨i, m, hr⟩
  all_goals rw [hr]
  · exact h
  · exact h.change hext.le (Session.coherent_writes h.coherent hext)
  · obtain ⟨hle, hcoherent⟩ := Law.coherent_checkMultiplyPurity h.coherent
      (nodes_getD_subset h.samples_mem i) (nodes_getD_subset h.multiplicands_mem m)
    exact h.change hle hcoherent

theorem record (h : Sound base next r) (v : Option LawViolation) :
    Sound base next (r.record v) := by
  cases v <;> exact ⟨h.le, h.samples_mem, h.multiplicands_mem, h.coherent⟩

end Sound

theorem Reached.sound {base samples multiplicands : List (Value C)} {next : Nat} {r : LawRun C}
    (h : Reached samples multiplicands next r) (hbase : Coherent next (nodesAll base))
    (hs : samples ⊆ base) (hm : multiplicands ⊆ base) : Sound base next r := by
  induction h with
  | start => exact .start hbase hs hm
  | check _ c ih => exact ih.check c
  | record _ v ih => exact ih.record v
  | note _ _ ih => exact ⟨ih.le, ih.samples_mem, ih.multiplicands_mem, ih.coherent⟩

end LawRun

namespace Law

private theorem reached_verify (samples : List (Value C)) (config : LawConfig C (Object C))
    (next : Nat) :
    LawRun.Reached samples config.multiplicands next (verify samples config next).2 := by
  unfold verify
  split
  · exact .start
  next first rest =>
    have hstart : LawRun.Reached (first :: rest) config.multiplicands next
        (.start (first :: rest) config.multiplicands next) := .start
    have hall := hstart.checkAll (LawCheck.plan config ((first :: rest).map Datum.values))
    dsimp only
    split
    next f r hr =>
      rw [hr] at hall
      exact hall
    next r hr =>
      rw [hr] at hall
      exact hall.note _

private theorem reached_verifyUnconfigured (samples : List (Value C)) (next : Nat) :
    LawRun.Reached samples [] next (verifyUnconfigured samples next).2 :=
  LawRun.Reached.start.checkAll _

end Law

namespace Session

open Outcome (Sound Looks)

variable {pool : List (Value C)} {next : Nat}

private theorem sound_changes {r : Except Fault (Value C)} {ws : List (Write C)}
    {log : List LogLine}
    {last : Nat} (hr : Outcome.Plain r) (hle : next ≤ last)
    (hcoherent : Coherent last (nodesAll (pool.map (Datum.writes ws)))) :
    Sound pool next { result := r, writes := ws, log := log, next := last } := by
  refine ⟨hle, hcoherent.mono ?_ (Nat.le_refl _)⟩
  rw [Datum.nodesAll_append]
  refine List.append_subset.mpr ⟨List.Subset.refl _, ?_⟩
  cases r with
  | error f => exact List.nil_subset _
  | ok v => simp [Outcome.data, yields, hr v rfl]

theorem plain_lawValue (r : Except Fault (Option LawViolation)) :
    Outcome.Plain (r.map lawValue : Except Fault (Value C)) :=
  (Returns.map bare_lawValue r).plain

theorem sound_checkLaw (hpool : Coherent next (nodesAll pool)) {α : Type}
    {rel : Option LawViolation → α → Progress C → Prop} {a : Except Fault α}
    {m : UpdateM C (Option LawViolation)} (hm : Mirrors rel a m ⟨[], next⟩) :
    Sound pool next (checkLaw m next) :=
  sound_changes (plain_lawValue _) hm.extends_run.le (coherent_writes hpool hm.extends_run)

theorem sound_checkMultiplyPurity (hpool : Coherent next (nodesAll pool)) {x operand : Value C}
    (hx : x.nodes ⊆ nodesAll pool) (hop : operand.nodes ⊆ nodesAll pool) :
    Sound pool next (checkMultiplyPurity x operand next) := by
  obtain ⟨hle, hcoherent⟩ := Law.coherent_checkMultiplyPurity hpool hx hop
  exact sound_changes (plain_lawValue _) hle hcoherent

/-- Samples are what a sequence holds, unless it counts as none. -/
theorem samplesOf_cases {x : Value C} {xs : List (Value C)} (h : samplesOf x = .ok xs) :
    xs = [] ∨ x.sequence = .ok xs := by
  unfold samplesOf at h
  split at h
  · cases h
    exact .inl rfl
  · split at h
    · cases h
    · split at h
      next hxs =>
        cases h
        exact .inr hxs
      · cases h

/-- Multiplicands are what a configuration holds, unless there is none. -/
theorem multiplicands_cases {x : Value C} {c : LawConfig C (Object C)}
    (h : LawConfig.ofDatum x = .ok c) :
    c.multiplicands = [] ∨ x.members = c.multiplicands := by
  unfold LawConfig.ofDatum at h
  split at h
  · cases h
    exact .inr rfl
  · split at h
    · cases h
    · cases h
      exact .inl rfl

theorem nodesAll_samplesOf {x : Value C} {xs : List (Value C)} (h : samplesOf x = .ok xs) :
    nodesAll xs ⊆ x.nodes := by
  rcases samplesOf_cases h with rfl | hxs
  · exact List.nil_subset _
  · exact Datum.nodesAll_sequence hxs

theorem nodesAll_multiplicands {x : Value C} {c : LawConfig C (Object C)}
    (h : LawConfig.ofDatum x = .ok c) : nodesAll c.multiplicands ⊆ x.nodes := by
  rcases multiplicands_cases h with hc | hc
  · rw [hc]
    exact List.nil_subset _
  · exact Datum.nodesAll_subset fun v hv => Datum.nodes_subset_of_mem_members (hc ▸ hv)

theorem labelled_samplesOf {P : Nat → Prop} {x : Value C} {xs : List (Value C)}
    (hx : x.Labelled P) (h : samplesOf x = .ok xs) : ∀ v ∈ xs, v.Labelled P := by
  rcases samplesOf_cases h with rfl | hxs
  · simp
  · exact hx.sequence hxs

theorem labelled_multiplicands {P : Nat → Prop} {x : Value C} {c : LawConfig C (Object C)}
    (hx : x.Labelled P) (h : LawConfig.ofDatum x = .ok c) :
    ∀ v ∈ c.multiplicands, v.Labelled P := by
  rcases multiplicands_cases h with hc | hc
  · simp [hc]
  · exact fun v hv => hx.of_mem_members (hc ▸ hv)

/-- Verification of laws only shows something bare, or it comes down to a run of checks on data that
its operands hold. -/
theorem verifyLaws_cases (samples config : Value C) (next : Nat) :
    (∃ r, Returns Datum.Bare r ∧ verifyLaws samples config next = .shown next r) ∨
    ∃ xs ms r result log, nodesAll (xs ++ ms) ⊆ samples.nodes ++ config.nodes ∧
      (∀ P, samples.Labelled P → config.Labelled P → ∀ v ∈ xs ++ ms, v.Labelled P) ∧
      Returns Datum.Bare result ∧ LawRun.Reached xs ms next r ∧
      verifyLaws samples config next =
        { result := result, writes := r.writes, log := log, next := r.next } := by
  unfold verifyLaws
  split
  · exact .inl ⟨_, .error _, rfl⟩
  · exact .inl ⟨_, .ok (Datum.bare_report.mpr rfl), rfl⟩
  next xs _ hxs =>
    have hnodes := nodesAll_samplesOf hxs
    split
    next f hf =>
      refine .inr ⟨xs, [], _, _, _, ?_, fun P hs _ => ?_, .bind (fun _ => .error f) _,
        Law.reached_verifyUnconfigured xs next, rfl⟩
      · rw [List.append_nil]
        exact List.subset_append_of_subset_left _ hnodes
      · rw [List.append_nil]
        exact labelled_samplesOf hs hxs
    next c hc =>
      refine .inr ⟨xs, c.multiplicands, _, _, _, ?_, fun P hs hconfig => ?_,
        .map (fun _ => Datum.bare_report.mpr rfl) _, Law.reached_verify xs c next, rfl⟩
      · rw [Datum.nodesAll_append]
        exact List.append_subset.mpr ⟨List.subset_append_of_subset_left _ hnodes,
          List.subset_append_of_subset_right _ (nodesAll_multiplicands hc)⟩
      · exact List.forall_mem_append.mpr ⟨labelled_samplesOf hs hxs,
          labelled_multiplicands hconfig hc⟩

theorem sound_verifyLaws (hpool : Coherent next (nodesAll pool)) {samples config : Value C}
    (hs : samples.nodes ⊆ nodesAll pool) (hc : config.nodes ⊆ nodesAll pool) :
    Sound pool next (verifyLaws samples config next) := by
  rcases verifyLaws_cases samples config next with
    ⟨r, hbare, h⟩ | ⟨xs, ms, r, result, log, hsub, -, hbare, hr, h⟩
  · rw [h]
    exact (Outcome.looks_plain hbare.plain).sound hpool
  · have hsub := List.Subset.trans hsub (List.append_subset.mpr ⟨hs, hc⟩)
    have hbase : Coherent next (nodesAll (pool ++ (xs ++ ms))) := by
      refine hpool.mono ?_ (Nat.le_refl _)
      rw [Datum.nodesAll_append]
      exact List.append_subset.mpr ⟨List.Subset.refl _, hsub⟩
    have hsound := hr.sound hbase
      (List.subset_append_of_subset_right _ (List.subset_append_left _ _))
      (List.subset_append_of_subset_right _ (List.subset_append_right _ _))
    rw [h]
    refine sound_changes hbare.plain hsound.le (hsound.coherent.mono ?_ (Nat.le_refl _))
    rw [List.map_append, Datum.nodesAll_append]
    exact List.subset_append_left _ _

end Session

end DiffAlgebra
