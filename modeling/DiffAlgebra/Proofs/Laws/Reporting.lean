import DiffAlgebra.Proofs.Laws.Conformance
import DiffAlgebra.Proofs.Laws.Repetition
import DiffAlgebra.Proofs.Sharing.PlacedOutcomes
import Mathlib.Data.List.ProdSigma
import Mathlib.Tactic.Ring

/-!
# What a law report accounts for

Verification makes the checks of each sample, then those of all ordered pairs of samples, then those
of all ordered triples. If the multiplications among them change nothing, then each of these checks
comes to what it comes to when it is made by itself. So the report counts them and lists the
violations that they give, and the log has a line for each violation and one with the totals.
-/

namespace DiffAlgebra

variable {C : Catalog}

open Datum (nodesAll mem_nodesAll Below)

def Law.operation : Law → Operation
  | zeroIdentity => .checkZeroIdentity
  | negationInverse => .checkNegationInverse
  | associativity => .checkAssociativity
  | commutativity => .checkCommutativity
  | multiplyPurity => .checkMultiplyPurity

namespace LawSubject

def alone (u : LawSubject C) (next : Nat) : Except Fault (Value C) :=
  (u.law.operation.call u.operands [] next).result

def violation? (u : LawSubject C) (next : Nat) : Option LawViolation :=
  match u.alone next with
  | .ok (.violation _ v) => some v
  | _ => none

theorem violation?_eq {u : LawSubject C} {next : Nat} {v : Option LawViolation}
    (h : u.alone next = .ok (Session.lawValue v)) : u.violation? next = v := by
  unfold violation?
  rw [h]
  cases v <;> rfl

end LawSubject

namespace LawConfig

def ofSample (c : LawConfig C (Object C)) (t : DiffType C) (x : Value C) : List (LawSubject C) :=
  (if t.isMonoid then [⟨.zeroIdentity, [x]⟩] else [])
    ++ (if t.isAbelian then [⟨.negationInverse, [x]⟩] else [])
    ++ (if t.multiplies && c.purity then c.multiplicands.map fun v => ⟨.multiplyPurity, [x, v]⟩
        else [])

def subjects (c : LawConfig C (Object C)) (t : DiffType C) (xs : List (Value C)) :
    List (LawSubject C) :=
  xs.flatMap (c.ofSample t)
    ++ (if t.commutative && c.commutativity then
          (xs ×ˢ xs).map fun p => ⟨.commutativity, [p.1, p.2]⟩
        else [])
    ++ (xs ×ˢ xs ×ˢ xs).map fun p => ⟨.associativity, [p.1, p.2.1, p.2.2]⟩

private theorem length_ofSample (c : LawConfig C (Object C)) (t : DiffType C) (x : Value C) :
    (c.ofSample t x).length = (if t.isMonoid then 1 else 0) + (if t.isAbelian then 1 else 0) +
      if t.multiplies && c.purity then c.multiplicands.length else 0 := by
  simp only [ofSample, List.length_append]
  split_ifs <;> simp

private theorem length_subjects (c : LawConfig C (Object C)) (t : DiffType C)
    (xs : List (Value C)) :
    let n := xs.length
    let m := c.multiplicands.length
    (c.subjects t xs).length = (if t.isMonoid then n else 0) + (if t.isAbelian then n else 0) +
      (if t.multiplies && c.purity then n * m else 0) +
      (if t.commutative && c.commutativity then n * n else 0) + n * n * n := by
  intro n m
  have hsamples : (xs.flatMap (c.ofSample t)).length =
      n * ((if t.isMonoid then 1 else 0) + (if t.isAbelian then 1 else 0) +
        if t.multiplies && c.purity then m else 0) := by
    rw [List.length_flatMap, List.map_congr_left fun x _ => c.length_ofSample t x]
    simp [n, m]
  simp only [subjects, List.length_append, hsamples, apply_ite List.length, List.length_map,
    List.length_product, List.length_nil]
  split_ifs <;> ring

end LawConfig

theorem map_range_getD {α β : Type} (xs : List α) (d : α) (f : α → β) :
    (List.range xs.length).map (fun i => f (xs.getD i d)) = xs.map f := by
  refine List.ext_getElem (by simp) fun i hi _ => ?_
  rw [List.length_map, List.length_range] at hi
  simp [List.getD_eq_getElem?_getD, hi]

theorem flatMap_range_getD {α β : Type} (xs : List α) (d : α) (f : α → List β) :
    (List.range xs.length).flatMap (fun i => f (xs.getD i d)) = xs.flatMap f := by
  rw [List.flatMap_def, map_range_getD, ← List.flatMap_def]

theorem pairs_range_getD {α β : Type} (xs : List α) (d : α) (f : α → α → β) :
    ((List.range xs.length).flatMap fun i =>
      (List.range xs.length).map fun j => f (xs.getD i d) (xs.getD j d)) =
      (xs ×ˢ xs).map fun p => f p.1 p.2 := by
  simp only [map_range_getD xs d (f _)]
  rw [flatMap_range_getD xs d fun x => xs.map (f x)]
  simp [SProd.sprod, List.product, List.map_flatMap, Function.comp_def]

private theorem triples_range_getD {α β : Type} (xs : List α) (d : α) (f : α → α → α → β) :
    ((List.range xs.length).flatMap fun i => (List.range xs.length).flatMap fun j =>
      (List.range xs.length).map fun k => f (xs.getD i d) (xs.getD j d) (xs.getD k d)) =
      (xs ×ˢ xs ×ˢ xs).map fun p => f p.1 p.2.1 p.2.2 := by
  simp only [pairs_range_getD xs d (f _)]
  rw [flatMap_range_getD xs d fun x => (xs ×ˢ xs).map fun p => f x p.1 p.2]
  simp [SProd.sprod, List.product, List.map_flatMap, Function.comp_def]

namespace LawCheck

variable {t : DiffType C} {xs ms : List (Value C)}

private theorem map_subject?_pairs : (pairs xs.length).map (subject? xs ms) =
    ((xs ×ˢ xs).map fun p => ⟨.commutativity, [p.1, p.2]⟩).map some := by
  rw [pairs, List.map_flatMap, List.map_map]
  simp only [List.map_map]
  exact pairs_range_getD xs .null fun x y => some (LawSubject.mk .commutativity [x, y])

private theorem map_subject?_triples : (triples xs.length).map (subject? xs ms) =
    ((xs ×ˢ xs ×ˢ xs).map fun p => ⟨.associativity, [p.1, p.2.1, p.2.2]⟩).map some := by
  rw [triples, List.map_flatMap, List.map_map]
  simp only [List.map_flatMap, List.map_map]
  exact triples_range_getD xs .null fun x y z => some (LawSubject.mk .associativity [x, y, z])

private theorem map_subject?_ofSample {c : LawConfig C (Object C)} {x : Object C} {i : Nat}
    (hx : xs.getD i .null = .diff x) (hxt : x.typeOf = t) :
    (ofSample c.purity c.multiplicands.length (.diff x.value) i).map (subject? xs c.multiplicands) =
      (c.ofSample t (.diff x)).map some := by
  have hms : ((List.range c.multiplicands.length).map (multiplyPurity i)).map
      (subject? xs c.multiplicands) =
        c.multiplicands.map fun v => some ⟨.multiplyPurity, [.diff x, v]⟩ := by
    rw [List.map_map, ← hx]
    exact map_range_getD c.multiplicands .null fun v =>
      some (LawSubject.mk .multiplyPurity [xs.getD i .null, v])
  have htype : x.value.typeOf = t := hxt
  simp only [ofSample, LawConfig.ofSample, List.map_append, apply_ite (List.map _), hms, htype,
    List.map_cons, List.map_nil, List.map_map, subject?, hx, Function.comp_def]

private theorem map_subject?_samples {xs : List (Object C)} (hxs : ∀ x ∈ xs, x.typeOf = t)
    (c : LawConfig C (Object C)) :
    ((((xs.map .diff).map Datum.values).zipIdx.flatMap fun p =>
        ofSample c.purity c.multiplicands.length p.1 p.2).map
      (subject? (xs.map .diff) c.multiplicands)) =
      ((xs.map .diff).flatMap (c.ofSample t)).map some := by
  have hvalues : (xs.map Datum.diff).map Datum.values = xs.map fun x => .diff x.value := by
    rw [List.map_map]
    rfl
  rw [hvalues, List.zipIdx_map, List.flatMap_map, List.map_flatMap, List.flatMap_map,
    List.map_flatMap]
  conv_rhs => rw [← List.zipIdx_map_fst 0 xs, List.flatMap_map]
  refine List.flatMap_congr fun p hp => ?_
  have hp : xs[p.2]? = some p.1 := List.mem_zipIdx_iff_getElem?.mp hp
  refine map_subject?_ofSample ?_ (hxs p.1 (List.mem_of_getElem? hp))
  rw [List.getD_eq_getElem?_getD, List.getElem?_map]
  exact congrArg (fun o : Option (Object C) => (o.map Datum.diff).getD .null) hp

/-- The plan for samples of one type, whichever comes first. -/
theorem plan_eq {xs : List (Object C)} (hxs : ∀ x ∈ xs, x.typeOf = t)
    (c : LawConfig C (Object C)) {ys : List (Value C)} (hys : ys = xs.map .diff) :
    plan c (ys.map Datum.values) =
      (ys.map Datum.values).zipIdx.flatMap (fun p =>
        ofSample c.purity c.multiplicands.length p.1 p.2)
      ++ (if t.commutative && c.commutativity then pairs ys.length else [])
      ++ triples ys.length := by
  cases xs with
  | nil =>
    subst hys
    simp [plan, pairs, triples]
  | cons x rest =>
    have htype : x.value.typeOf = t := hxs x List.mem_cons_self
    have hpairs (n : Nat) : (if c.commutativity then pairsFor (.diff x.value) n else []) =
        if t.commutative && c.commutativity then pairs n else [] := by
      rw [pairsFor, htype]
      cases t.commutative <;> cases c.commutativity <;> rfl
    have hlength : (ys.map Datum.values).length = ys.length := List.length_map _
    rw [← hpairs, ← hlength]
    subst hys
    rfl

/-- What is planned for samples of a type is what is asked for on them. -/
theorem map_subject?_plan {xs : List (Object C)} (hxs : ∀ x ∈ xs, x.typeOf = t)
    (c : LawConfig C (Object C)) :
    (plan c ((xs.map .diff).map Datum.values)).map (subject? (xs.map .diff) c.multiplicands) =
      (c.subjects t (xs.map .diff)).map some := by
  rw [plan_eq hxs c rfl, List.map_append, List.map_append, map_subject?_samples hxs,
    map_subject?_triples, apply_ite (List.map _), map_subject?_pairs, LawConfig.subjects,
    List.map_append, List.map_append, apply_ite (List.map some)]
  rfl

end LawCheck

namespace LawRun

/-- One run is another one after some checks: it has counted them, and the violations that they give
by themselves are found and logged in order. -/
structure Accounts (r : LawRun C) (us : List (LawSubject C)) (last : Nat) (r' : LawRun C) :
    Prop where
  made_eq : r'.made = r.made + us.length
  found_eq : r'.found = r.found ++ us.filterMap (·.violation? last)
  log_eq : r'.log = r.log ++ (us.filterMap (·.violation? last)).map warning

private theorem made_record (r : LawRun C) (v : Option LawViolation) :
    (r.record v).made = r.made + 1 := by
  cases v <;> rfl

private theorem found_record (r : LawRun C) (v : Option LawViolation) :
    (r.record v).found = r.found ++ v.toList := by
  cases v with
  | none => exact (List.append_nil _).symm
  | some v => rfl

private theorem log_record (r : LawRun C) (v : Option LawViolation) :
    (r.record v).log = r.log ++ v.toList.map warning := by
  cases v with
  | none => exact (List.append_nil _).symm
  | some v => rfl

namespace Accounts

variable {r r' : LawRun C} {us : List (LawSubject C)} {last : Nat}

theorem nil (r : LawRun C) (last : Nat) : Accounts r [] last r :=
  ⟨rfl, (List.append_nil _).symm, (List.append_nil _).symm⟩

theorem cons {c : LawCheck} {u : LawSubject C} {v : Option LawViolation}
    (hu : u.violation? last = v) (h : Accounts ((r.check c).2.record v) us last r') :
    Accounts r (u :: us) last r' := by
  have hmade : (r.check c).2.made = r.made := by cases c <;> rfl
  have hlog : (r.check c).2.log = r.log := by cases c <;> rfl
  have hviolations : (u :: us).filterMap (·.violation? last) =
      v.toList ++ us.filterMap (·.violation? last) := by
    rw [List.filterMap_cons, hu]
    cases v <;> rfl
  refine ⟨?_, ?_, ?_⟩
  · rw [h.made_eq, made_record, hmade, List.length_cons, Nat.add_right_comm, Nat.add_assoc]
  · rw [h.found_eq, found_record, r.found_check c, hviolations, List.append_assoc]
  · rw [h.log_eq, log_record, hlog, hviolations, List.map_append, List.append_assoc]

end Accounts

variable {base samples multiplicands : List (Value C)} {next last : Nat} {r : LawRun C}

/-- In a run that has disturbed nothing, a check comes to what it comes to by itself. -/
theorem Undisturbed.result_alone (h : Undisturbed base samples multiplicands r)
    (hsound : Sound base next r) (hbase : Coherent next (nodesAll base)) (hs : samples ⊆ base)
    (hm : multiplicands ⊆ base) (hbelow : ∀ v ∈ base, v.Below next) (hle : next ≤ last)
    {c : LawCheck} {u : LawSubject C} (hc : c.subject? samples multiplicands = some u)
    (hpure : u.IsPure) : (r.check c).1.map Session.lawValue = u.alone last := by
  obtain rfl := h.samples_eq
  obtain rfl := h.multiplicands_eq
  have hvalid := Progress.valid_start (C := C) r.next
  have hvalid' := Progress.valid_start (C := C) last
  have hsettled := h.settled_sample hs
  have hsettled' (i : Nat) : Progress.Settled ⟨[], last⟩ (r.sample i).nodes :=
    (hbase.mono (Sound.nodes_getD_subset hs i) hle).settled
  have hsample (i : Nat) := (hsettled i).upToDate
  have hsample' (i : Nat) := (hsettled' i).upToDate
  have hmap {a b : Except Fault (Option LawViolation)} (hab : a = b) :
      a.map (Session.lawValue (C := C)) = b.map Session.lawValue := congrArg _ hab
  cases c with
  | zeroIdentity i =>
    cases hc
    exact hmap ((Law.mirrors_checkZeroIdentity hvalid (hsample i)).run_eq.trans
      (Law.mirrors_checkZeroIdentity hvalid' (hsample' i)).run_eq.symm)
  | negationInverse i =>
    cases hc
    exact hmap ((Law.mirrors_checkNegationInverse hvalid (hsettled i)).run_eq.trans
      (Law.mirrors_checkNegationInverse hvalid' (hsettled' i)).run_eq.symm)
  | commutativity i j =>
    cases hc
    exact hmap ((Law.mirrors_checkCommutativity hvalid (hsample i) (hsample j)).run_eq.trans
      (Law.mirrors_checkCommutativity hvalid' (hsample' i) (hsample' j)).run_eq.symm)
  | associativity i j k =>
    cases hc
    exact hmap
      ((Law.mirrors_checkAssociativity hvalid (hsample i) (hsample j) (hsample k)).run_eq.trans
        (Law.mirrors_checkAssociativity hvalid' (hsample' i) (hsample' j) (hsample' k)).run_eq.symm)
  | multiplyPurity i m =>
    cases hc
    exact hmap (Law.result_checkMultiplyPurity hpure
      (Placed.below_getD (fun v hv => hbelow v (hs hv)) i)
      (Placed.below_getD (fun v hv => hbelow v (hm hv)) m) hsound.le hle)
  | undeclared => cases hc

/-- Checks that give a result by themselves are all made, and accounted for. -/
theorem Undisturbed.checkAll_accounts (h : Undisturbed base samples multiplicands r)
    (hsound : Sound base next r) (hbase : Coherent next (nodesAll base)) (hs : samples ⊆ base)
    (hm : multiplicands ⊆ base) (hbelow : ∀ v ∈ base, v.Below next) (hle : next ≤ last)
    {cs : List LawCheck} {us : List (LawSubject C)}
    (hcs : cs.map (LawCheck.subject? samples multiplicands) = us.map some)
    (hpure : ∀ u ∈ us, u.IsPure) (hreturn : ∀ u ∈ us, ∃ v, u.alone last = .ok v) :
    (r.checkAll cs).1 = .ok () ∧ Accounts r us last (r.checkAll cs).2 := by
  induction cs generalizing us r with
  | nil =>
    obtain rfl : us = [] := List.map_eq_nil_iff.mp hcs.symm
    exact ⟨rfl, .nil r last⟩
  | cons c cs ih =>
    obtain ⟨u, us, rfl⟩ : ∃ u us', us = u :: us' := by
      cases us with
      | nil => cases hcs
      | cons u us => exact ⟨u, us, rfl⟩
    obtain ⟨hc, hcs⟩ := List.cons.inj hcs
    obtain ⟨hpure, hpures⟩ := List.forall_mem_cons.mp hpure
    obtain ⟨⟨w, hw⟩, hreturn⟩ := List.forall_mem_cons.mp hreturn
    have hresult := h.result_alone hsound hbase hs hm hbelow hle hc hpure
    obtain ⟨v, hv, rfl⟩ := map_eq_ok.mp (hresult.trans hw)
    have hchecked := (h.check hs hm c fun u' hu' => by
      obtain rfl := Option.some.inj (hc.symm.trans hu')
      exact hpure).1
    have hcheck : r.check c = (.ok v, (r.check c).2) := Prod.ext hv rfl
    have hrest := ih (hchecked.record v) ((hsound.check c).record v) hcs hpures hreturn
    rw [LawRun.checkAll, hcheck]
    exact ⟨hrest.1, .cons (LawSubject.violation?_eq hw) hrest.2⟩

end LawRun

def LawReport.summary (r : LawReport) (t : DiffType C) : LogLine :=
  ⟨.debug, "Verified " ++ toString r.checksRun ++ " law checks for " ++ t.name ++ ": "
    ++ toString r.violations.length ++ " violations"⟩

def LawReport.of (us : List (LawSubject C)) (next : Nat) : LawReport :=
  ⟨us.length, us.filterMap (·.violation? next)⟩

private theorem LawReport.ok_of_iff {us : List (LawSubject C)} {next : Nat}
    (hreturn : ∀ u ∈ us, ∃ v, u.alone next = .ok (Session.lawValue v)) :
    (LawReport.of us next).ok = true ↔ ∀ u ∈ us, u.alone next = .ok .null := by
  rw [LawReport.ok, LawReport.of, List.isEmpty_iff, List.filterMap_eq_nil_iff]
  refine forall₂_congr fun u hu => ?_
  obtain ⟨v, hv⟩ := hreturn u hu
  rw [LawSubject.violation?_eq hv, hv]
  cases v <;> simp [Session.lawValue]

namespace Law

variable {base : List (Value C)} {next last : Nat}

/-- Verification makes the checks that are asked for, and comes to what they come to by
themselves. -/
theorem verify_accounts (hbase : Coherent next (nodesAll base)) (hbelow : ∀ v ∈ base, v.Below next)
    {xs : List (Object C)} (hs : xs.map .diff ⊆ base) {config : LawConfig C (Object C)}
    (hm : config.multiplicands ⊆ base) {t : DiffType C} (hxs : ∀ x ∈ xs, x.typeOf = t)
    (hle : next ≤ last) (hpure : ∀ u ∈ config.subjects t (xs.map .diff), u.IsPure)
    (hreturn : ∀ u ∈ config.subjects t (xs.map .diff), ∃ v, u.alone last = .ok v) :
    let report := LawReport.of (config.subjects t (xs.map .diff)) last
    (verify (xs.map .diff) config next).1 = .ok report ∧
      (verify (xs.map .diff) config next).2.log =
        if xs.isEmpty then []
        else report.violations.map LawRun.warning ++ [report.summary t] := by
  intro report
  cases xs with
  | nil =>
    have hnone : report = ⟨0, []⟩ := by simp [report, LawReport.of, LawConfig.subjects]
    exact ⟨congrArg _ hnone.symm, rfl⟩
  | cons x rest =>
    obtain ⟨hall, haccounts⟩ := LawRun.Undisturbed.checkAll_accounts (.start hbase)
      (.start hbase hs hm) hbase hs hm hbelow hle (LawCheck.map_subject?_plan hxs config) hpure
      hreturn
    obtain ⟨made_eq, found_eq, log_eq⟩ := haccounts
    rw [List.map_cons] at hall made_eq found_eq log_eq ⊢
    unfold verify
    dsimp only
    split
    next f r hr =>
      rw [hr] at hall
      cases hall
    next r hr =>
      rw [hr] at made_eq found_eq log_eq
      have hmade : r.made = report.checksRun := made_eq.trans (Nat.zero_add _)
      have hfound : r.found = report.violations := found_eq
      have hlog : r.log = report.violations.map LawRun.warning := log_eq
      have htype : ((Datum.diff x : Value C).typeOf : Class C) = .diff t :=
        congrArg Class.diff (hxs x List.mem_cons_self)
      refine ⟨by rw [hmade, hfound], ?_⟩
      rw [hlog, LawRun.summary, hmade, hfound, htype]
      rfl

end Law

namespace Session

variable {samples : Value C} {c : LawConfig C (Object C)}

private theorem nodesAll_verified {rest xs : List (Value C)} (hsamples : samplesOf samples = .ok xs)
    (hconfig : LawConfig.ofDatum (rest.headD .null) = .ok c) :
    nodesAll (xs ++ c.multiplicands) ⊆ nodesAll (samples :: rest) := by
  have hconfigs : (rest.headD .null).nodes ⊆ nodesAll (samples :: rest) := by
    cases rest with
    | nil => exact List.nil_subset _
    | cons config rest => exact Datum.nodes_subset_nodesAll (by simp)
  rw [Datum.nodesAll_append]
  exact List.append_subset.mpr ⟨List.Subset.trans (nodesAll_samplesOf hsamples)
      (List.subset_append_left samples.nodes (nodesAll rest)),
    List.Subset.trans (nodesAll_multiplicands hconfig) hconfigs⟩

private theorem below_verified {rest : List (Value C)} {xs : List (Object C)} {next : Nat}
    (hbelow : ∀ v ∈ samples :: rest, v.Below next)
    (hconfig : LawConfig.ofDatum (rest.headD .null) = .ok c) :
    ∀ v ∈ xs.map .diff ++ c.multiplicands, v.Below next := by
  have hconfigs : (rest.headD .null).Below next := by
    cases rest with
    | nil => exact Datum.labelled_null
    | cons config rest => exact hbelow config (by simp)
  exact List.forall_mem_append.mpr ⟨List.forall_mem_map.mpr fun x _ => Datum.labelled_diff x,
    labelled_multiplicands hconfigs hconfig⟩

private theorem exists_lawValue_of_alone {u : LawSubject C} {next : Nat} {v : Value C}
    (h : u.alone next = .ok v) : ∃ w, u.alone next = .ok (lawValue w) := by
  obtain ⟨law, operands⟩ := u
  have hmap {r : Except Fault (Option LawViolation)} (hr : r.map lawValue = .ok v) :
      ∃ w, r.map lawValue = .ok (lawValue w : Value C) := by
    obtain ⟨w, -, rfl⟩ := map_eq_ok.mp hr
    exact ⟨w, hr⟩
  rcases operands with _ | ⟨x, _ | ⟨y, _ | ⟨z, _ | ⟨u, rest⟩⟩⟩⟩ <;> cases law
  case cons.nil.zeroIdentity | cons.nil.negationInverse | cons.cons.nil.commutativity
    | cons.cons.nil.multiplyPurity | cons.cons.cons.nil.associativity => exact hmap h
  all_goals cases h

/-- A law report accounts for every check. Let samples of one type be verified in a session that
commands lead to, where the multiplications that are checked change nothing and every check that is
asked for gives a result by itself. Then the report counts these checks, as many as the samples, the
multiplicands, the type and the configuration ask for; its violations are those that the checks give
by themselves, in order; each of them has its warning in the log, in the same order, before one line
with both totals, and nothing is logged without samples; and the report is fine if and only if all
checks give nothing. -/
theorem Reachable.verifyLaws_accounts {s : Session C} (hs : s.Reachable) {command : Command C}
    (hcommand : command.operation = .verifyLaws) {rest : List (Value C)} {out : Outcome C}
    (hout : s.attempt command = .ok (samples :: rest, out)) (hrest : rest.length ≤ 1)
    {xs : List (Object C)} (hsamples : samplesOf samples = .ok (xs.map .diff)) {t : DiffType C}
    (hxs : ∀ x ∈ xs, x.typeOf = t) (hconfig : LawConfig.ofDatum (rest.headD .null) = .ok c)
    (hpure : ∀ u ∈ c.subjects t (xs.map .diff), u.IsPure)
    (hreturn : ∀ u ∈ c.subjects t (xs.map .diff), ∃ v, u.alone out.next = .ok v) :
    let n := xs.length
    let m := c.multiplicands.length
    let found := (c.subjects t (xs.map .diff)).filterMap (·.violation? out.next)
    let checks := (if t.isMonoid then n else 0) + (if t.isAbelian then n else 0) +
      (if t.multiplies && c.purity then n * m else 0) +
      (if t.commutative && c.commutativity then n * n else 0) + n * n * n
    (c.subjects t (xs.map .diff)).length = checks ∧
    (∃ l, out.result = .ok (.report l ⟨checks, found⟩)) ∧
    (xs = [] → out.log = []) ∧
    (xs ≠ [] → out.log =
      found.map LawRun.warning ++ [LawReport.summary ⟨checks, found⟩ t]) ∧
    (LawReport.ok ⟨checks, found⟩ = true ↔
      ∀ u ∈ c.subjects t (xs.map .diff), u.alone out.next = .ok .null) := by
  intro n m found checks
  have hcount : (c.subjects t (xs.map .diff)).length = checks := by
    have h := c.length_subjects t (xs.map .diff)
    rwa [List.length_map] at h
  obtain ⟨next, -, rfl, hpool, hbelow, -⟩ := hs.placed.attempt hs.isCoherent hout
  have hargs : nodesAll (samples :: rest) ⊆ nodesAll (s.data ++ samples :: rest) :=
    Datum.nodesAll_mono (List.subset_append_right _ _)
  have hlast := (command.sound_call hpool hargs (Datum.nodesAll_mono
    (List.subset_append_of_subset_left _ (List.subset_append_right _ _)))).settle.le
  have hbase : Coherent next (nodesAll (xs.map .diff ++ c.multiplicands)) :=
    hpool.mono (List.Subset.trans (nodesAll_verified hsamples hconfig) hargs) (Nat.le_refl _)
  have hbases : ∀ v ∈ xs.map .diff ++ c.multiplicands, v.Below next :=
    below_verified hbelow hconfig
  obtain ⟨hreport, hlog⟩ := Law.verify_accounts hbase hbases (List.subset_append_left _ _)
    (List.subset_append_right _ _) hxs hlast hpure hreturn
  obtain ⟨hresult, hlogged⟩ := verifyLaws_eq hsamples hconfig next
  rw [hreport, ← call_verifyLaws hcommand hrest] at hresult
  rw [hlog, ← call_verifyLaws hcommand hrest] at hlogged
  have hreturn : ∀ u ∈ c.subjects t (xs.map .diff), ∃ v, u.alone _ = .ok (lawValue v) :=
    fun u hu => exists_lawValue_of_alone (hreturn u hu).choose_spec
  have hok := LawReport.ok_of_iff hreturn
  rw [LawReport.of, hcount] at hok hresult hlogged
  refine ⟨hcount, ⟨_, Outcome.result_settle_of_ok hresult⟩, ?_, ?_, hok⟩
  · rintro rfl
    rw [Outcome.log_settle, hlogged]
    rfl
  · intro hne
    rw [Outcome.log_settle, hlogged, if_neg (by simpa using hne)]

/-- Two values of a type that wrongly claims to be commutative: the four checks of pairs and the
eight of triples find the two pairs that do not commute. An integer of one byte passes the checks of
zero and negation, those of multiplication by itself and by a Boolean, and one each of the others.
-/
theorem verifyLaws_accounts_pairs :
    let last (n : Int) : Expr specimens :=
      .new (.type (.diff (.custom .lastClaimingCommutative))) [.int n]
    let byte : Expr specimens := .new (.type (.diff (.int ⟨.signed, .w8⟩))) [.int 5]
    let claimed : Command specimens := ⟨.verifyLaws, [.list [last 1, last 2]], none⟩
    let multiplied : Command specimens :=
      ⟨.verifyLaws, [.list [byte], .config [("multiplicands", .list [.int 5, .bool true])]], none⟩
    (∃ args out l v w, empty.attempt claimed = .ok (args, out) ∧
      out.result = .ok (.report l ⟨12, [v, w]⟩) ∧
      out.log = [LawRun.warning v, LawRun.warning w,
        LawReport.summary ⟨12, [v, w]⟩ (.custom .lastClaimingCommutative : DiffType specimens)]) ∧
    ∃ args out l, empty.attempt multiplied = .ok (args, out) ∧
      out.result = .ok (.report l ⟨6, []⟩) := by
  intro last byte claimed multiplied
  have hreturn {us : List (LawSubject specimens)} {next : Nat}
      (h : us.all (fun u => (u.alone next).isOk) = true) :
      ∀ u ∈ us, ∃ v, u.alone next = .ok v := by
    intro u hu
    have hu := List.all_eq_true.mp h u hu
    cases hr : u.alone next with
    | error f =>
      rw [hr] at hu
      cases hu
    | ok v => exact ⟨v, rfl⟩
  constructor
  · let x (l : Nat) (n : Int) : Object specimens := .custom l .lastClaimingCommutative (.number n)
    let xs : List (Object specimens) := [x 1 1, x 2 2]
    let t : DiffType specimens := .custom .lastClaimingCommutative
    let out : Outcome specimens := (claimed.call [.list 3 (xs.map .diff)] [] 4).settle
    have hout : empty.attempt claimed = .ok ([.list 3 (xs.map .diff)], out) := rfl
    have hsamples : samplesOf (.list 3 (xs.map .diff)) = .ok (xs.map .diff) := rfl
    have hxs : ∀ y ∈ xs, y.typeOf = t := by decide
    have hlaws : ∀ u ∈ ({} : LawConfig specimens (Object specimens)).subjects t (xs.map .diff),
      u.law ≠ .multiplyPurity := by decide
    obtain ⟨-, ⟨l, hl⟩, -, hlog, -⟩ := Reachable.empty.verifyLaws_accounts rfl hout (by decide)
      hsamples hxs rfl (fun u hu => LawSubject.isPure_of_ne (hlaws u hu))
      (hreturn (by decide +kernel))
    have hlog := hlog (List.cons_ne_nil _ _)
    generalize hfound : List.filterMap _ _ = found at hl hlog
    have hlength : found.length = 2 := by
      rw [← hfound]
      decide +kernel
    obtain ⟨v, w, rfl⟩ := List.length_eq_two.mp hlength
    exact ⟨_, out, l, v, w, hout, hl, hlog⟩
  · let x : Object specimens := .int 1 ⟨.signed, .w8⟩ 5
    let ms : List (Value specimens) := [.int 5, .bool true]
    let out : Outcome specimens :=
      (multiplied.call [.list 2 [.diff x], .config 3 true true ms] [] 4).settle
    have hout : empty.attempt multiplied = .ok ([.list 2 [.diff x], .config 3 true true ms], out) :=
      rfl
    have hsamples : samplesOf (.list 2 [.diff x]) = .ok ([x].map .diff) := rfl
    have hheads : ((LawConfig.mk true true ms).subjects (.int ⟨.signed, .w8⟩) ([x].map .diff)).map
        (·.operands.head?) = List.replicate 6 (some (.diff x)) := rfl
    have hpure : ∀ u ∈ (LawConfig.mk true true ms).subjects (.int ⟨.signed, .w8⟩) ([x].map .diff),
        u.IsPure := by
      rintro u hu o v next rfl
      have hhead := List.eq_of_mem_replicate (hheads ▸ List.mem_map_of_mem hu)
      obtain rfl : o = x := Datum.diff.inj (Option.some.inj hhead)
      exact (Object.BuiltIn.int 1 ⟨.signed, .w8⟩ 5).writes_multiply v next
    obtain ⟨-, ⟨l, hl⟩, -, -, -⟩ := Reachable.empty.verifyLaws_accounts rfl hout (by decide)
      hsamples (by decide) rfl hpure (hreturn (by decide +kernel))
    generalize hfound : List.filterMap _ _ = found at hl
    have hlength : found.length = 0 := by
      rw [← hfound]
      decide +kernel
    obtain rfl := List.length_eq_zero_iff.mp hlength
    exact ⟨_, out, l, hout, hl⟩

end Session

end DiffAlgebra
