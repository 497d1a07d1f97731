import DiffAlgebra.Proofs.Sharing.InPlace

/-!
# Law checks leave what they check alone

Checks of additive laws work on clones, whatever the laws that a type breaks. The check that
multiplication changes nothing carries out the multiplication on the operands themselves: it leaves
them alone if the multiplication does, and a multiplication that does not is seen by everything that
comes after, the report of the violation included.
-/

namespace DiffAlgebra

variable {C : Catalog}

open Datum (nodesAll mem_nodesAll)

namespace Datum

def violations : Value C → List LawViolation
  | violation _ v => [v]
  | report _ r => r.violations
  | _ => []

private theorem violations_settle (x : Value C) (next : Nat) :
    (x.settle next).1.violations = x.violations := by
  cases x <;> simp [settle, violations]

end Datum

structure LawSubject (C : Catalog) where
  law : Law
  operands : List (Value C)

namespace LawSubject

/-- A violation names the law and has the operands as they are written. -/
def ReportedBy (s : LawSubject C) (v : LawViolation) : Prop :=
  v.law = s.law ∧ v.operands = s.operands.map Datum.render

/-- If it is multiplication that is checked, it changes nothing. -/
def IsPure (s : LawSubject C) : Prop :=
  ∀ o v next, s = ⟨.multiplyPurity, [.diff o, v]⟩ → (o.multiply v next).2.writes = []

theorem isPure_of_ne {s : LawSubject C} (h : s.law ≠ .multiplyPurity) : s.IsPure := by
  rintro o v next rfl
  exact absurd rfl h

end LawSubject

namespace Law

theorem reportedBy_violatedBy (law : Law) (xs : List (Value C)) (details : String) :
    LawSubject.ReportedBy ⟨law, xs⟩ (law.violatedBy (xs.map Datum.values) details) := by
  refine ⟨rfl, ?_⟩
  rw [violatedBy, List.map_map]
  exact List.map_congr_left fun x _ => x.render_values

theorem reportedBy_found {law : Law} (xs : List (Value C)) {holds : Bool} {details : String}
    {v : LawViolation} (h : law.found (xs.map Datum.values) holds details = some v) :
    LawSubject.ReportedBy ⟨law, xs⟩ v := by
  unfold found at h
  split at h
  · cases h
  · cases h
    exact law.reportedBy_violatedBy xs details

variable {x y z : Value C} {v : LawViolation}

theorem reportedBy_checkZeroIdentity (h : OfValues.checkZeroIdentity x.values = .ok (some v)) :
    LawSubject.ReportedBy ⟨.zeroIdentity, [x]⟩ v := by
  obtain ⟨d, -, h⟩ := bind_eq_ok.mp h
  split at h
  · exact reportedBy_found [x] (Except.ok.inj h)
  · obtain ⟨r, -, h⟩ := bind_eq_ok.mp h
    exact reportedBy_found [x] (Except.ok.inj h)

theorem reportedBy_checkNegationInverse
    (h : OfValues.checkNegationInverse x.values = .ok (some v)) :
    LawSubject.ReportedBy ⟨.negationInverse, [x]⟩ v := by
  obtain ⟨r, -, h⟩ := bind_eq_ok.mp h
  exact reportedBy_found [x] (Except.ok.inj h)

theorem reportedBy_checkCommutativity
    (h : OfValues.checkCommutativity x.values y.values = .ok (some v)) :
    LawSubject.ReportedBy ⟨.commutativity, [x, y]⟩ v := by
  obtain ⟨l, -, h⟩ := bind_eq_ok.mp h
  obtain ⟨r, -, h⟩ := bind_eq_ok.mp h
  exact reportedBy_found [x, y] (Except.ok.inj h)

theorem reportedBy_checkAssociativity
    (h : OfValues.checkAssociativity x.values y.values z.values = .ok (some v)) :
    LawSubject.ReportedBy ⟨.associativity, [x, y, z]⟩ v := by
  obtain ⟨l, -, h⟩ := bind_eq_ok.mp h
  obtain ⟨i, -, h⟩ := bind_eq_ok.mp h
  obtain ⟨r, -, h⟩ := bind_eq_ok.mp h
  exact reportedBy_found [x, y, z] (Except.ok.inj h)

theorem checkMultiplyPurity_of_isPure
    (hpure : LawSubject.IsPure ⟨.multiplyPurity, [x, y]⟩) (next : Nat) :
    (checkMultiplyPurity x y next).writes = [] ∧
      ∀ v, (checkMultiplyPurity x y next).result = .ok (some v) →
        LawSubject.ReportedBy ⟨.multiplyPurity, [x, y]⟩ v := by
  unfold checkMultiplyPurity
  split
  · simp
  next before mid _ =>
    split
    · simp
    next operandBefore last _ =>
      split
      · simp
      next d hd =>
        obtain rfl := Datum.eq_diff_of_receiver hd
        have hwrites := hpure d y last rfl
        rcases hproduct : d.multiply y last with ⟨product, s⟩
        rw [hproduct] at hwrites
        refine ⟨hwrites, fun v hv => ?_⟩
        have hreport := reportedBy_violatedBy .multiplyPurity [.diff d, y]
        obtain ⟨_, -, hv⟩ := bind_eq_ok.mp hv
        rw [hwrites] at hv
        split at hv
        · cases hv
          exact hreport _
        · split at hv
          · cases hv
            exact hreport _
          · cases hv

end Law

def LawCheck.subject? (samples multiplicands : List (Value C)) : LawCheck → Option (LawSubject C)
  | zeroIdentity i => some ⟨.zeroIdentity, [samples.getD i .null]⟩
  | negationInverse i => some ⟨.negationInverse, [samples.getD i .null]⟩
  | multiplyPurity i m =>
    some ⟨.multiplyPurity, [samples.getD i .null, multiplicands.getD m .null]⟩
  | commutativity i j => some ⟨.commutativity, [samples.getD i .null, samples.getD j .null]⟩
  | associativity i j k =>
    some ⟨.associativity, [samples.getD i .null, samples.getD j .null, samples.getD k .null]⟩
  | undeclared => none

private theorem LawCheck.multiplyPurity_not_mem_ofSample (n i j m : Nat) (x : Datum C (Diff C)) :
    multiplyPurity j m ∉ ofSample false n x i := by
  unfold ofSample
  split
  · simp only [Bool.and_false, Bool.false_eq_true, if_false, List.append_nil, List.mem_append]
    split_ifs <;> simp
  · exact List.not_mem_nil

namespace LawRun

/-- What holds of a run of checks on data of `base` that changes none of them. -/
structure Undisturbed (base samples multiplicands : List (Value C)) (r : LawRun C) : Prop where
  samples_eq : r.samples = samples
  multiplicands_eq : r.multiplicands = multiplicands
  writes_eq : ∀ v ∈ base, v.writes r.writes = v
  coherent : Coherent r.next (nodesAll base)

theorem found_check (r : LawRun C) (c : LawCheck) : (r.check c).2.found = r.found := by
  cases c <;> rfl

namespace Undisturbed

variable {base samples multiplicands : List (Value C)} {next : Nat} {r : LawRun C}

theorem start (hbase : Coherent next (nodesAll base)) :
    Undisturbed base samples multiplicands (LawRun.start samples multiplicands next) :=
  ⟨rfl, rfl, fun _ _ => rfl, hbase⟩

/-- Changes that the data do not notice leave a run undisturbed. -/
theorem change (h : Undisturbed base samples multiplicands r) (hs : samples ⊆ base)
    (hm : multiplicands ⊆ base) {ws : List (Write C)} {last : Nat} (hle : r.next ≤ last)
    (hws : ∀ v ∈ base, v.writes ws = v) :
    Undisturbed base samples multiplicands (r.change ws last) := by
  have hmap {vs : List (Value C)} (hvs : vs ⊆ base) : vs.map (Datum.writes ws) = vs :=
    (List.map_congr_left fun v hv => hws v (hvs hv)).trans (List.map_id vs)
  refine ⟨?_, ?_, fun v hv => ?_, h.coherent.mono (List.Subset.refl _) hle⟩
  · simp only [LawRun.change, h.samples_eq, hmap hs]
  · simp only [LawRun.change, h.multiplicands_eq, hmap hm]
  · simp only [LawRun.change, Datum.writes_append, h.writes_eq v hv, hws v hv]

theorem make (h : Undisturbed base samples multiplicands r) (hs : samples ⊆ base)
    (hm : multiplicands ⊆ base) {a : Except Fault (Option LawViolation)}
    {m : UpdateM C (Option LawViolation)} (hmirror : Mirrors (fun a b _ => a = b) a m ⟨[], r.next⟩)
    {s : LawSubject C} (hreport : ∀ {v}, a = .ok (some v) → s.ReportedBy v) :
    Undisturbed base samples multiplicands (r.make m).2 ∧
      ∀ v, (r.make m).1 = .ok (some v) → s.ReportedBy v := by
  refine ⟨h.change hs hm hmirror.extends_run.le fun _ hv =>
    Session.writes_eq_self h.coherent hmirror.extends_run hv, fun v hv => ?_⟩
  exact hreport (hmirror.run_eq.symm.trans hv)

theorem settled_sample (h : Undisturbed base samples multiplicands r) (hs : samples ⊆ base)
    (i : Nat) : Progress.Settled ⟨[], r.next⟩ (r.sample i).nodes := by
  rw [← h.samples_eq] at hs
  exact h.coherent.settled.mono (Sound.nodes_getD_subset hs i)

/-- A check changes nothing, if the multiplication it may make is pure, and what it reports is what
it is about. -/
theorem check (h : Undisturbed base samples multiplicands r) (hs : samples ⊆ base)
    (hm : multiplicands ⊆ base) (c : LawCheck)
    (hpure : ∀ s, c.subject? samples multiplicands = some s → s.IsPure) :
    Undisturbed base samples multiplicands (r.check c).2 ∧
      ∀ v, (r.check c).1 = .ok (some v) →
        ∃ s, c.subject? samples multiplicands = some s ∧ s.ReportedBy v := by
  obtain rfl := h.samples_eq
  obtain rfl := h.multiplicands_eq
  have hvalid := Progress.valid_start (C := C) r.next
  have hsettled := h.settled_sample hs
  have hsample (i : Nat) := (hsettled i).upToDate
  cases c with
  | zeroIdentity i =>
    have hmake := h.make hs hm (Law.mirrors_checkZeroIdentity hvalid (hsample i))
      Law.reportedBy_checkZeroIdentity
    exact ⟨hmake.1, fun v hv => ⟨_, rfl, hmake.2 v hv⟩⟩
  | negationInverse i =>
    have hmake := h.make hs hm (Law.mirrors_checkNegationInverse hvalid (hsettled i))
      Law.reportedBy_checkNegationInverse
    exact ⟨hmake.1, fun v hv => ⟨_, rfl, hmake.2 v hv⟩⟩
  | commutativity i j =>
    have hmake := h.make hs hm (Law.mirrors_checkCommutativity hvalid (hsample i) (hsample j))
      Law.reportedBy_checkCommutativity
    exact ⟨hmake.1, fun v hv => ⟨_, rfl, hmake.2 v hv⟩⟩
  | associativity i j k =>
    have hmake := h.make hs hm
      (Law.mirrors_checkAssociativity hvalid (hsample i) (hsample j) (hsample k))
      Law.reportedBy_checkAssociativity
    exact ⟨hmake.1, fun v hv => ⟨_, rfl, hmake.2 v hv⟩⟩
  | undeclared => exact ⟨h, fun v hv => nomatch hv⟩
  | multiplyPurity i m =>
    obtain ⟨hle, -⟩ := Law.coherent_checkMultiplyPurity h.coherent
      (Sound.nodes_getD_subset hs i) (Sound.nodes_getD_subset hm m)
    obtain ⟨hwrites, hreport⟩ := Law.checkMultiplyPurity_of_isPure (hpure _ rfl) r.next
    refine ⟨h.change hs hm hle fun v _ => ?_, fun v hv => ⟨_, rfl, hreport v hv⟩⟩
    have hwrites :
        (Law.checkMultiplyPurity (r.sample i) (r.multiplicand m) r.next).writes = [] := hwrites
    rw [hwrites]
    rfl

theorem record (h : Undisturbed base samples multiplicands r) (v : Option LawViolation) :
    Undisturbed base samples multiplicands (r.record v) := by
  cases v <;> exact ⟨h.samples_eq, h.multiplicands_eq, h.writes_eq, h.coherent⟩

private theorem mem_found_record {v : Option LawViolation} {w : LawViolation}
    (hw : w ∈ (r.record v).found) : w ∈ r.found ∨ v = some w := by
  cases v with
  | none => exact Or.inl hw
  | some v =>
    rcases List.mem_append.mp hw with hw | hw
    · exact Or.inl hw
    · exact Or.inr (congrArg some (List.mem_singleton.mp hw).symm)

theorem checkAll (h : Undisturbed base samples multiplicands r) (hs : samples ⊆ base)
    (hm : multiplicands ⊆ base) (cs : List LawCheck)
    (hpure : ∀ s ∈ cs.filterMap (LawCheck.subject? samples multiplicands), s.IsPure) :
    Undisturbed base samples multiplicands (r.checkAll cs).2 ∧
      ∀ v ∈ (r.checkAll cs).2.found, v ∈ r.found ∨
        ∃ s ∈ cs.filterMap (LawCheck.subject? samples multiplicands), s.ReportedBy v := by
  induction cs generalizing r with
  | nil => exact ⟨h, fun v hv => Or.inl hv⟩
  | cons c cs ih =>
    have hmem {s : LawSubject C} (hc : c.subject? samples multiplicands = some s) :
        s ∈ (c :: cs).filterMap (LawCheck.subject? samples multiplicands) :=
      List.mem_filterMap.mpr ⟨c, List.mem_cons_self, hc⟩
    have hrest : cs.filterMap (LawCheck.subject? samples multiplicands) ⊆
        (c :: cs).filterMap (LawCheck.subject? samples multiplicands) :=
      List.filterMap_subset _ (List.subset_cons_self _ _)
    obtain ⟨hcheck, hreport⟩ := h.check hs hm c fun s hc => hpure s (hmem hc)
    have hkept := r.found_check c
    unfold LawRun.checkAll
    split
    next v r' hv =>
      rw [hv] at hcheck hreport hkept
      obtain ⟨hall, hfound⟩ := ih (hcheck.record v) fun s hc => hpure s (hrest hc)
      refine ⟨hall, fun w hw => ?_⟩
      rcases hfound w hw with hw | ⟨s, hs, hw⟩
      · rcases mem_found_record hw with hw | rfl
        · exact Or.inl (hkept ▸ hw)
        · obtain ⟨s, hc, hw⟩ := hreport w rfl
          exact Or.inr ⟨s, hmem hc, hw⟩
      · exact Or.inr ⟨s, hrest hs, hw⟩
    next f r' hf =>
      rw [hf] at hcheck hkept
      exact ⟨hcheck, fun v hv => Or.inl (hkept ▸ hv)⟩

end Undisturbed

end LawRun

namespace Law

open LawRun (Undisturbed)

variable {base samples : List (Value C)} {next : Nat}

/-- A verification changes nothing if the multiplications that it makes are pure, and the violations
of its report are those of its plan. -/
theorem undisturbed_verify {config : LawConfig C (Object C)} (hbase : Coherent next (nodesAll base))
    (hs : samples ⊆ base) (hm : config.multiplicands ⊆ base)
    (hpure : ∀ s ∈ (LawCheck.plan config (samples.map Datum.values)).filterMap
      (LawCheck.subject? samples config.multiplicands), s.IsPure) :
    Undisturbed base samples config.multiplicands (verify samples config next).2 ∧
      ∀ r, (verify samples config next).1 = .ok r → ∀ v ∈ r.violations,
        ∃ s ∈ (LawCheck.plan config (samples.map Datum.values)).filterMap
          (LawCheck.subject? samples config.multiplicands), s.ReportedBy v := by
  have hstart : Undisturbed base samples config.multiplicands _ := .start hbase
  cases samples with
  | nil =>
    refine ⟨hstart, fun r hr v hv => ?_⟩
    cases hr
    cases hv
  | cons first rest =>
    obtain ⟨hall, hfound⟩ := hstart.checkAll hs hm _ hpure
    unfold verify
    dsimp only
    split
    next f r hr =>
      rw [hr] at hall
      exact ⟨hall, fun _ h => nomatch h⟩
    next r hr =>
      rw [hr] at hall hfound
      refine ⟨⟨hall.samples_eq, hall.multiplicands_eq, hall.writes_eq, hall.coherent⟩, ?_⟩
      intro report hreport v hv
      cases hreport
      exact (hfound v hv).resolve_left List.not_mem_nil

private theorem undisturbed_verifyUnconfigured (hbase : Coherent next (nodesAll base))
    (hs : samples ⊆ base) : Undisturbed base samples [] (verifyUnconfigured samples next).2 := by
  refine (Undisturbed.checkAll (.start hbase) hs (List.nil_subset _) _ fun s hmem => ?_).1
  obtain ⟨c, hc, hsubject⟩ := List.mem_filterMap.mp hmem
  cases c with
  | multiplyPurity j m =>
    cases samples with
    | nil => cases hc
    | cons first rest => exact absurd hc (LawCheck.multiplyPurity_not_mem_ofSample _ _ _ _ _)
  | undeclared => cases hsubject
  | _ =>
    cases hsubject
    exact LawSubject.isPure_of_ne (by simp)

end Law

namespace Session

/-- What the verification of laws is about: the plan of checks, if there are samples and a
configuration. -/
def verified (samples config : Value C) : List (LawSubject C) :=
  match samplesOf samples, LawConfig.ofDatum config with
  | .ok xs, .ok c =>
    (LawCheck.plan c (xs.map Datum.values)).filterMap (LawCheck.subject? xs c.multiplicands)
  | _, _ => []

end Session

namespace Operation

def ChecksLaws (op : Operation) : Prop :=
  op ∈ [checkZeroIdentity, checkNegationInverse, checkAssociativity, checkCommutativity,
    checkMultiplyPurity, verifyLaws]

def lawSubjects (op : Operation) (args : List (Value C)) : List (LawSubject C) :=
  match op, args with
  | checkZeroIdentity, [x] => [⟨.zeroIdentity, [x]⟩]
  | checkNegationInverse, [x] => [⟨.negationInverse, [x]⟩]
  | checkAssociativity, [x, y, z] => [⟨.associativity, [x, y, z]⟩]
  | checkCommutativity, [x, y] => [⟨.commutativity, [x, y]⟩]
  | checkMultiplyPurity, [x, y] => [⟨.multiplyPurity, [x, y]⟩]
  | verifyLaws, [xs] => Session.verified xs .null
  | verifyLaws, [xs, c] => Session.verified xs c
  | _, _ => []

end Operation

/-- An outcome that leaves data as they are, and whose violations report subjects as they were. -/
structure Outcome.Undisturbing (pool : List (Value C)) (subjects : List (LawSubject C))
    (o : Outcome C) : Prop where
  writes_eq : ∀ v ∈ pool, v.writes o.writes = v
  reported : ∀ r, o.result = .ok r → ∀ v ∈ r.violations, ∃ s ∈ subjects, s.ReportedBy v

namespace Outcome.Undisturbing

variable {pool : List (Value C)} {subjects : List (LawSubject C)} {next : Nat}

theorem failed (f : Fault) : Undisturbing pool subjects (.failed next f) :=
  ⟨fun _ _ => rfl, fun _ hr => nomatch hr⟩

theorem settle {o : Outcome C} (h : Undisturbing pool subjects o) :
    Undisturbing pool subjects o.settle := by
  refine ⟨by rw [writes_settle]; exact h.writes_eq, fun r hr v hv => ?_⟩
  cases ho : o.result with
  | error f =>
    rw [result_settle_of_error ho] at hr
    cases hr
  | ok x =>
    rw [result_settle_of_ok ho] at hr
    cases hr
    rw [Datum.violations_settle] at hv
    exact h.reported x ho v hv

theorem of_found {r : Except Fault (Option LawViolation)} {s : LawSubject C} {ws : List (Write C)}
    {last : Nat} (hws : ∀ v ∈ pool, v.writes ws = v)
    (hreport : ∀ v, r = .ok (some v) → s.ReportedBy v) :
    Undisturbing pool [s] { result := r.map Session.lawValue, writes := ws, next := last } := by
  refine ⟨hws, fun x hx v hv => ⟨s, List.mem_singleton_self s, ?_⟩⟩
  obtain ⟨found, rfl, rfl⟩ := map_eq_ok.mp hx
  cases found with
  | none => cases hv
  | some w =>
    cases List.mem_singleton.mp hv
    exact hreport v rfl

theorem checkLaw (hpool : Coherent next (nodesAll pool)) {a : Except Fault (Option LawViolation)}
    {m : UpdateM C (Option LawViolation)} (hm : Mirrors (fun a b _ => a = b) a m ⟨[], next⟩)
    {s : LawSubject C} (hreport : ∀ {v}, a = .ok (some v) → s.ReportedBy v) :
    Undisturbing pool [s] (Session.checkLaw m next) :=
  of_found (fun _ hv => Session.writes_eq_self hpool hm.extends_run hv) fun _ hv =>
    hreport (hm.run_eq.symm.trans hv)

end Outcome.Undisturbing

namespace Session

open Outcome (Undisturbing)

variable {pool : List (Value C)} {next : Nat}

/-- Verifying laws on data of a pool whose multiplications are pure leaves the pool as it is. -/
theorem undisturbing_verifyLaws (hpool : Coherent next (nodesAll pool)) {samples config : Value C}
    (hs : samples.nodes ⊆ nodesAll pool) (hc : config.nodes ⊆ nodesAll pool)
    (hpure : ∀ s ∈ verified samples config, s.IsPure) :
    Undisturbing pool (verified samples config) (verifyLaws samples config next) := by
  unfold verifyLaws
  split
  · exact .failed _
  · refine ⟨fun _ _ => rfl, fun r hr v hv => ?_⟩
    cases hr
    cases hv
  next xs _ hxs =>
    have hxs' := List.Subset.trans (nodesAll_samplesOf hxs) hs
    split
    next f hf =>
      have hbase : Coherent next (nodesAll (pool ++ xs)) := by
        refine hpool.mono ?_ (Nat.le_refl _)
        rw [Datum.nodesAll_append]
        exact List.append_subset.mpr ⟨List.Subset.refl _, hxs'⟩
      have hrun := Law.undisturbed_verifyUnconfigured hbase (List.subset_append_right _ _)
      refine ⟨fun v hv => hrun.writes_eq v (List.mem_append_left _ hv), fun r hr => ?_⟩
      obtain ⟨_, -, hr⟩ := bind_eq_ok.mp hr
      cases hr
    next c hc' =>
      have hm := List.Subset.trans (nodesAll_multiplicands hc') hc
      have hbase : Coherent next (nodesAll (pool ++ (xs ++ c.multiplicands))) := by
        refine hpool.mono ?_ (Nat.le_refl _)
        rw [Datum.nodesAll_append, Datum.nodesAll_append]
        exact List.append_subset.mpr ⟨List.Subset.refl _, List.append_subset.mpr ⟨hxs', hm⟩⟩
      have hsubjects : verified samples config =
          (LawCheck.plan c (xs.map Datum.values)).filterMap
            (LawCheck.subject? xs c.multiplicands) := by
        rw [verified, hxs, hc']
      rw [hsubjects] at hpure ⊢
      obtain ⟨hrun, hreport⟩ := Law.undisturbed_verify hbase
        (List.subset_append_of_subset_right _ (List.subset_append_left _ _))
        (List.subset_append_of_subset_right _ (List.subset_append_right _ _)) hpure
      refine ⟨fun v hv => hrun.writes_eq v (List.mem_append_left _ hv), fun x hx v hv => ?_⟩
      obtain ⟨r, hr, rfl⟩ := map_eq_ok.mp hx
      exact hreport r hr v hv

end Session

/-- Every check of laws on data of a coherent pool leaves the pool as it is, if the multiplications
that it makes are pure. -/
theorem Operation.ChecksLaws.undisturbing {op : Operation} (hop : op.ChecksLaws)
    {pool args : List (Value C)} {next : Nat} (hpool : Coherent next (nodesAll pool))
    (hargs : args ⊆ pool) (hpure : ∀ s ∈ op.lawSubjects args, s.IsPure) (known : Schemas C) :
    Outcome.Undisturbing pool (op.lawSubjects args) (op.call args known next) := by
  have hvalid := Progress.valid_start (C := C) next
  have hnodes {v : Value C} (hv : v ∈ args) : v.nodes ⊆ nodesAll pool :=
    Datum.nodes_subset_nodesAll (hargs hv)
  have hsettled {v : Value C} (hv : v ∈ args) : Progress.Settled ⟨[], next⟩ v.nodes :=
    hpool.settled.mono (hnodes hv)
  have hother {subjects : List (LawSubject C)} {o : Outcome C} (ho : o = .failed next .badArguments) :
      Outcome.Undisturbing pool subjects o := by
    rw [ho]
    exact .failed _
  simp only [ChecksLaws, List.mem_cons, List.not_mem_nil, or_false] at hop
  unfold call lawSubjects
  rcases hop with rfl | rfl | rfl | rfl | rfl | rfl
  · rcases args with _ | ⟨x, _ | ⟨y, rest⟩⟩
    case cons.nil =>
      exact .checkLaw hpool (Law.mirrors_checkZeroIdentity hvalid (hsettled (by simp)).upToDate)
        Law.reportedBy_checkZeroIdentity
    all_goals exact hother rfl
  · rcases args with _ | ⟨x, _ | ⟨y, rest⟩⟩
    case cons.nil =>
      exact .checkLaw hpool (Law.mirrors_checkNegationInverse hvalid (hsettled (by simp)))
        Law.reportedBy_checkNegationInverse
    all_goals exact hother rfl
  · rcases args with _ | ⟨x, _ | ⟨y, _ | ⟨z, _ | ⟨u, rest⟩⟩⟩⟩
    case cons.cons.cons.nil =>
      exact .checkLaw hpool (Law.mirrors_checkAssociativity hvalid (hsettled (by simp)).upToDate
        (hsettled (by simp)).upToDate (hsettled (by simp)).upToDate)
        Law.reportedBy_checkAssociativity
    all_goals exact hother rfl
  · rcases args with _ | ⟨x, _ | ⟨y, _ | ⟨z, rest⟩⟩⟩
    case cons.cons.nil =>
      exact .checkLaw hpool (Law.mirrors_checkCommutativity hvalid (hsettled (by simp)).upToDate
        (hsettled (by simp)).upToDate) Law.reportedBy_checkCommutativity
    all_goals exact hother rfl
  · rcases args with _ | ⟨x, _ | ⟨y, _ | ⟨z, rest⟩⟩⟩
    case cons.cons.nil =>
      obtain ⟨hwrites, hreport⟩ :=
        Law.checkMultiplyPurity_of_isPure (hpure _ (List.mem_singleton_self _)) next
      refine Outcome.Undisturbing.of_found (fun v _ => ?_) hreport
      rw [hwrites]
      rfl
    all_goals exact hother rfl
  · rcases args with _ | ⟨x, _ | ⟨y, _ | ⟨z, rest⟩⟩⟩
    case cons.nil =>
      exact Session.undisturbing_verifyLaws hpool (hnodes (by simp)) (List.nil_subset _) hpure
    case cons.cons.nil =>
      exact Session.undisturbing_verifyLaws hpool (hnodes (by simp)) (hnodes (by simp)) hpure
    all_goals exact hother rfl

namespace Session

/-- In a session that commands lead to, a check of laws leaves all data as they are, the samples and
multiplicands among them, and reports operands as they were passed in, if the multiplications that
it checks change nothing. Other laws may be broken in any way, and the check may fail. -/
theorem Reachable.lawChecks_undisturbing {s : Session C} (hs : s.Reachable) {c : Command C}
    (hc : c.operation.ChecksLaws) {args : List (Value C)} {out : Outcome C}
    (hout : s.attempt c = .ok (args, out)) (hpure : ∀ u ∈ c.operation.lawSubjects args, u.IsPure) :
    (∀ v ∈ s.data ++ args, v.writes out.writes = v) ∧
      ∀ r, out.result = .ok r → ∀ v ∈ r.violations,
        ∃ u ∈ c.operation.lawSubjects args, u.ReportedBy v := by
  obtain ⟨next, _, rfl, hpool⟩ := hs.isCoherent.attempt hout
  have hsame : c.operation ≠ .same := by
    intro h
    simp [Operation.ChecksLaws, h] at hc
  rw [Command.call_of_ne_same rfl hsame]
  have h := (hc.undisturbing hpool (List.subset_append_right _ _) hpure s.schemas).settle
  exact ⟨h.writes_eq, h.reported⟩

def oneSpecimen (t : Specimen) (n : Int) : Session specimens :=
  (empty.step ⟨.evaluate, [.new (.type (.diff (.custom t))) [.int n]], some "x"⟩).1

private theorem reachable_oneSpecimen (t : Specimen) (n : Int) : (oneSpecimen t n).Reachable :=
  .step .empty _

/-- A type that takes every value for zero breaks a law, and a byte is multiplied: neither is
disturbed. -/
theorem lawChecks_undisturbing_specimens :
    (∃ args out,
      (oneSpecimen .falseZero 5).attempt ⟨.checkZeroIdentity, [.var "x"], none⟩ = .ok (args, out) ∧
      (∃ r, out.result = .ok r ∧ r.violations ≠ []) ∧
      ∀ v ∈ (oneSpecimen .falseZero 5).data ++ args, v.writes out.writes = v) ∧
    ∃ args out,
      (sharedPair 3).attempt ⟨.checkMultiplyPurity, [.var "byte", .int 4], none⟩ =
        .ok (args, out) ∧
      out.result = .ok .null ∧ ∀ v ∈ (sharedPair 3).data ++ args, v.writes out.writes = v := by
  constructor
  · let c : Command specimens := ⟨.checkZeroIdentity, [.var "x"], none⟩
    have hc : c.operation.ChecksLaws := by simp [c, Operation.ChecksLaws]
    refine ⟨_, _, rfl, ⟨_, rfl, List.cons_ne_nil _ _⟩, ?_⟩
    refine ((reachable_oneSpecimen .falseZero 5).lawChecks_undisturbing hc rfl fun u hu => ?_).1
    obtain rfl := List.mem_singleton.mp hu
    exact LawSubject.isPure_of_ne (by simp)
  · let c : Command specimens := ⟨.checkMultiplyPurity, [.var "byte", .int 4], none⟩
    have hc : c.operation.ChecksLaws := by simp [c, Operation.ChecksLaws]
    refine ⟨_, _, rfl, rfl, ?_⟩
    refine ((reachable_sharedPair 3).lawChecks_undisturbing hc rfl fun u hu => ?_).1
    obtain rfl := List.mem_singleton.mp hu
    intro o v next h
    cases h
    rfl

/-- A type whose multiplication changes the receiver: the check leaves a sample changed, and reports
the operands as the multiplication left them. -/
theorem checkMultiplyPurity_disturbs_eater :
    ∃ args out,
      (oneSpecimen .eater 1).attempt ⟨.checkMultiplyPurity, [.var "x", .int 3], none⟩ =
        .ok (args, out) ∧
      (∃ v ∈ (oneSpecimen .eater 1).data, v.writes out.writes ≠ v) ∧
      ∃ r, out.result = .ok r ∧ ∃ v ∈ r.violations,
        v.operands = ["Eater(2)", "3"] ∧ args.map Datum.render = ["Eater(1)", "3"] := by
  refine ⟨_, _, rfl, ⟨_, List.mem_singleton_self _, ?_⟩, _, rfl, _, List.mem_singleton_self _, rfl,
    rfl⟩
  intro h
  cases h

end Session

end DiffAlgebra
