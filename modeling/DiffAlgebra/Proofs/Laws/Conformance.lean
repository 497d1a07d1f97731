import DiffAlgebra.Proofs.Laws.BuiltIn
import DiffAlgebra.Proofs.Laws.Purity
import DiffAlgebra.Proofs.Laws.Undisturbed
import Mathlib.Data.List.GetD

/-!
# Built-in types conform to the laws

What is planned for samples of one type depends on that type and on the number of samples and
multiplicands. No check disturbs samples of a built-in type, so that every check of a run comes to
what it comes to by itself. A run whose checks find nothing reports nothing.
-/

namespace DiffAlgebra

variable {C : Catalog}

open Datum (nodesAll mem_nodesAll)

namespace LawCheck

/-- The checks that `n` samples of a type and `m` multiplicands ask for. -/
inductive Suits (t : DiffType C) (n m : Nat) : LawCheck → Prop where
  | zeroIdentity {i : Nat} (lt : i < n) (monoid : t.isMonoid = true) : Suits t n m (.zeroIdentity i)
  | negationInverse {i : Nat} (lt : i < n) (abelian : t.isAbelian = true) :
      Suits t n m (.negationInverse i)
  | multiplyPurity {i j : Nat} (lt : i < n) (multiplicand : j < m) :
      Suits t n m (.multiplyPurity i j)
  | commutativity {i j : Nat} (left : i < n) (right : j < n) : Suits t n m (.commutativity i j)
  | associativity {i j k : Nat} (left : i < n) (middle : j < n) (right : k < n) :
      Suits t n m (.associativity i j k)

variable {t : DiffType C} {n m i : Nat} {c : LawCheck}

private theorem suits_of_mem_ofSample {purity : Bool} {d : Diff C} (hi : i < n)
    (hc : c ∈ ofSample purity m (.diff d) i) : c.Suits d.typeOf n m := by
  simp only [ofSample, List.mem_append] at hc
  rcases hc with (hc | hc) | hc
  · split at hc
    next hmonoid =>
      cases List.mem_singleton.mp hc
      exact .zeroIdentity hi hmonoid
    · cases hc
  · split at hc
    next habelian =>
      cases List.mem_singleton.mp hc
      exact .negationInverse hi habelian
    · cases hc
  · split at hc
    · obtain ⟨j, hj, rfl⟩ := List.mem_map.mp hc
      exact .multiplyPurity hi (List.mem_range.mp hj)
    · cases hc

private theorem suits_of_mem_pairs (hc : c ∈ pairs n) : c.Suits t n m := by
  obtain ⟨i, hi, hc⟩ := List.mem_flatMap.mp hc
  obtain ⟨j, hj, rfl⟩ := List.mem_map.mp hc
  exact .commutativity (List.mem_range.mp hi) (List.mem_range.mp hj)

private theorem suits_of_mem_triples (hc : c ∈ triples n) : c.Suits t n m := by
  obtain ⟨i, hi, hc⟩ := List.mem_flatMap.mp hc
  obtain ⟨j, hj, hc⟩ := List.mem_flatMap.mp hc
  obtain ⟨k, hk, rfl⟩ := List.mem_map.mp hc
  exact .associativity (List.mem_range.mp hi) (List.mem_range.mp hj) (List.mem_range.mp hk)

private theorem suits_of_mem_plan {δ : Type} {config : LawConfig C δ} {ds : List (Diff C)}
    (hds : ∀ d ∈ ds, d.typeOf = t) (hc : c ∈ plan config (ds.map .diff)) :
    c.Suits t ds.length config.multiplicands.length := by
  cases ds with
  | nil => cases hc
  | cons d rest =>
    simp only [plan, List.map_cons, List.mem_append, List.mem_flatMap] at hc
    rcases hc with (⟨⟨x, i⟩, hx, hc⟩ | hc) | hc
    · rw [List.mem_zipIdx_iff_getElem?, ← List.map_cons, List.getElem?_map] at hx
      obtain ⟨e, he, rfl⟩ := Option.map_eq_some_iff.mp hx
      rw [← hds e (List.mem_of_getElem? he)]
      exact suits_of_mem_ofSample (List.getElem?_eq_some_iff.mp he).1 hc
    · simp only [pairsFor, List.length_cons, List.length_map] at hc
      split at hc
      · split at hc
        · exact suits_of_mem_pairs hc
        · cases hc
      · cases hc
    · simp only [List.length_cons, List.length_map] at hc
      exact suits_of_mem_triples hc

end LawCheck

namespace LawCheck

def Gives (R : Except Fault (Option LawViolation) → Prop) (samples multiplicands : List (Value C)) :
    LawCheck → Prop
  | zeroIdentity i => R (Law.OfValues.checkZeroIdentity (samples.getD i .null).values)
  | negationInverse i => R (Law.OfValues.checkNegationInverse (samples.getD i .null).values)
  | multiplyPurity i j => ∀ next, R
    (Law.checkMultiplyPurity (samples.getD i .null) (multiplicands.getD j .null) next).result
  | commutativity i j => R
    (Law.OfValues.checkCommutativity (samples.getD i .null).values (samples.getD j .null).values)
  | associativity i j k => R
    (Law.OfValues.checkAssociativity (samples.getD i .null).values (samples.getD j .null).values
      (samples.getD k .null).values)
  | undeclared => R (.error .missingMember)

variable {t : DiffType C} {xs : List (Object C)} {multiplicands : List (Value C)} {c : LawCheck}

theorem exists_sample {p : Object C → Prop} (hxs : ∀ x ∈ xs, p x) {i : Nat} (hi : i < xs.length) :
    ∃ x, (xs.map .diff : List (Value C)).getD i .null = .diff x ∧ p x := by
  refine ⟨xs[i], ?_, hxs _ (List.getElem_mem hi)⟩
  simp [List.getD_eq_getElem?_getD, hi]

/-- No check of samples of a built-in type finds anything. -/
theorem Suits.findsNothing (ht : t.Concrete) (hxs : ∀ x ∈ xs, Diff.Exact t x.value)
    (hms : ∀ v ∈ multiplicands, v.Ordinary ∧ v.WellTyped)
    (hc : c.Suits t xs.length multiplicands.length) :
    c.Gives Law.FindsNothing (xs.map .diff) multiplicands := by
  cases hc with
  | zeroIdentity lt monoid =>
    obtain ⟨x, hx, hxt⟩ := exists_sample hxs lt
    rw [Gives, hx]
    have hpass := Law.OfValues.checkZeroIdentity_builtIn ht monoid (hxt.shaped_holds ht)
    exact hpass ▸ Law.findsNothing_ok_none
  | negationInverse lt abelian =>
    obtain ⟨x, hx, hxt⟩ := exists_sample hxs lt
    rw [Gives, hx]
    exact Law.OfValues.findsNothing_negationInverse (hxt.shaped (ht.over_isSigned abelian)) abelian
  | @multiplyPurity i j lt multiplicand =>
    obtain ⟨x, hx, hxt⟩ := exists_sample hxs lt
    obtain ⟨hv, hvw⟩ := hms _ (List.getElem_mem multiplicand)
    rw [Gives, hx, List.getD_eq_getElem _ _ multiplicand]
    have hxw := (hxt.shaped_holds ht).instanceOf.wellTyped
    have hxc : x.typeOf.Concrete := by rwa [Object.typeOf, hxt.typeOf_eq]
    exact Law.findsNothing_checkMultiplyPurity hxc hxw hv hvw
  | commutativity left right =>
    obtain ⟨x, hx, hxt⟩ := exists_sample hxs left
    obtain ⟨y, hy, hyt⟩ := exists_sample hxs right
    rw [Gives, hx, hy]
    exact Law.OfValues.findsNothing_commutativity (hxt.shaped_holds ht) (hyt.shaped_holds ht)
  | associativity left middle right =>
    obtain ⟨x, hx, hxt⟩ := exists_sample hxs left
    obtain ⟨y, hy, hyt⟩ := exists_sample hxs middle
    obtain ⟨z, hz, hzt⟩ := exists_sample hxs right
    rw [Gives, hx, hy, hz]
    exact Law.OfValues.findsNothing_associativity (hxt.shaped_holds ht) (hyt.shaped_holds ht)
      (hzt.shaped_holds ht)

/-- Every check of samples without integers that trap passes, except those of multiplication. -/
theorem Suits.passes (ht : t.Concrete) (hwrapping : t.Over (·.family = .wrapping))
    (hxs : ∀ x ∈ xs, Diff.Exact t x.value) (hc : c.Suits t xs.length 0) :
    c.Gives (· = .ok none) (xs.map .diff) multiplicands := by
  have hshaped : ∀ x ∈ xs, Diff.Shaped IntKind.HoldsWrapping t x.value :=
    fun x hx => (hxs x hx).shaped hwrapping
  cases hc with
  | zeroIdentity lt monoid =>
    obtain ⟨x, hx, hxt⟩ := exists_sample hshaped lt
    rw [Gives, hx]
    exact Law.OfValues.checkZeroIdentity_builtIn ht monoid (hxt.mono fun _ _ h => h.2)
  | negationInverse lt abelian =>
    obtain ⟨x, hx, hxt⟩ := exists_sample hshaped lt
    rw [Gives, hx]
    exact Law.OfValues.checkNegationInverse_wrapping hxt abelian
  | multiplyPurity _ multiplicand => exact absurd multiplicand (Nat.not_lt_zero _)
  | commutativity left right =>
    obtain ⟨x, hx, hxt⟩ := exists_sample hshaped left
    obtain ⟨y, hy, hyt⟩ := exists_sample hshaped right
    rw [Gives, hx, hy]
    exact Law.OfValues.checkCommutativity_wrapping hxt hyt
  | associativity left middle right =>
    obtain ⟨x, hx, hxt⟩ := exists_sample hshaped left
    obtain ⟨y, hy, hyt⟩ := exists_sample hshaped middle
    obtain ⟨z, hz, hzt⟩ := exists_sample hshaped right
    rw [Gives, hx, hy, hz]
    exact Law.OfValues.checkAssociativity_wrapping hxt hyt hzt

private theorem Suits.isPure (ht : t.Concrete) (hxs : ∀ x ∈ xs, Diff.Exact t x.value)
    (hc : c.Suits t xs.length multiplicands.length) {u : LawSubject C}
    (hu : c.subject? (xs.map .diff) multiplicands = some u) : u.IsPure := by
  cases hc with
  | multiplyPurity lt =>
    obtain ⟨x, hx, hxt⟩ := exists_sample hxs lt
    cases hu
    rw [hx]
    rintro o v next h
    cases h
    exact ((hxt.shaped_holds ht).instanceOf.builtIn ht).writes_multiply _ next
  | _ =>
    cases hu
    exact LawSubject.isPure_of_ne (by simp)

end LawCheck

namespace LawRun

structure Clean (r : LawRun C) : Prop where
  found_eq : r.found = []
  log_eq : r.log = []

theorem Clean.check {r : LawRun C} (h : r.Clean) (c : LawCheck) : (r.check c).2.Clean := by
  cases c <;> exact ⟨h.found_eq, h.log_eq⟩

theorem Clean.record {r : LawRun C} (h : r.Clean) : (r.record none).Clean :=
  ⟨h.found_eq, h.log_eq⟩

namespace Undisturbed

variable {base samples multiplicands : List (Value C)} {r : LawRun C}

/-- In a run that has disturbed nothing, a check comes to what it comes to by itself. -/
theorem result_check (h : Undisturbed base samples multiplicands r) (hs : samples ⊆ base)
    {R : Except Fault (Option LawViolation) → Prop} {c : LawCheck}
    (hc : c.Gives R samples multiplicands) : R (r.check c).1 := by
  obtain rfl := h.samples_eq
  obtain rfl := h.multiplicands_eq
  have hvalid := Progress.valid_start (C := C) r.next
  have hsettled := h.settled_sample hs
  have hsample (i : Nat) := (hsettled i).upToDate
  cases c with
  | zeroIdentity i => exact (Law.mirrors_checkZeroIdentity hvalid (hsample i)).run_eq ▸ hc
  | negationInverse i => exact (Law.mirrors_checkNegationInverse hvalid (hsettled i)).run_eq ▸ hc
  | commutativity i j =>
    exact (Law.mirrors_checkCommutativity hvalid (hsample i) (hsample j)).run_eq ▸ hc
  | associativity i j k =>
    exact (Law.mirrors_checkAssociativity hvalid (hsample i) (hsample j) (hsample k)).run_eq ▸ hc
  | multiplyPurity i j => exact hc r.next
  | undeclared => exact hc

/-- Checks that find nothing leave a run clean, and it goes through if they pass. -/
theorem checkAll_clean (h : Undisturbed base samples multiplicands r) (hs : samples ⊆ base)
    (hm : multiplicands ⊆ base) (hr : r.Clean) {cs : List LawCheck}
    (hpure : ∀ c ∈ cs, ∀ u, c.subject? samples multiplicands = some u → u.IsPure)
    (hcs : ∀ c ∈ cs, c.Gives Law.FindsNothing samples multiplicands) :
    (r.checkAll cs).2.Clean ∧
      ((∀ c ∈ cs, c.Gives (· = .ok none) samples multiplicands) → (r.checkAll cs).1 = .ok ()) := by
  -- by induction on the checks; the run stays undisturbed, so what a check comes to by itself is what
  -- it comes to after the others
  induction cs generalizing r with
  | nil => exact ⟨hr, fun _ => rfl⟩
  | cons c cs ih =>
    obtain ⟨hpure, hpures⟩ := List.forall_mem_cons.mp hpure
    obtain ⟨hc, hcs⟩ := List.forall_mem_cons.mp hcs
    have hcheck := (h.check hs hm c hpure).1
    have hfinds := h.result_check hs hc
    have hclean := hr.check c
    unfold LawRun.checkAll
    split
    next v r' hv =>
      rw [hv] at hcheck hfinds hclean
      cases hfinds v rfl
      obtain ⟨hall, hpass⟩ := ih (hcheck.record none) hclean.record hpures hcs
      exact ⟨hall, fun hpasses => hpass fun c hc => hpasses c (List.mem_cons_of_mem _ hc)⟩
    next f r' hf =>
      rw [hf] at hclean
      refine ⟨hclean, fun hpasses => ?_⟩
      have hpass : (r.check c).1 = .ok none := h.result_check hs (hpasses c List.mem_cons_self)
      rw [hf] at hpass
      cases hpass

end Undisturbed

end LawRun

/-- Verification finds nothing and logs no warning on samples of a built-in type with ordinary
multiplicands. It goes through if there are no multiplicands and no integers that trap. -/
theorem Law.verify_builtIn {base : List (Value C)} {next : Nat}
    (hbase : Coherent next (nodesAll base)) {t : DiffType C} (ht : t.Concrete)
    {xs : List (Object C)} (hs : xs.map .diff ⊆ base) (hxs : ∀ x ∈ xs, Diff.Exact t x.value)
    {config : LawConfig C (Object C)} (hm : config.multiplicands ⊆ base)
    (hms : ∀ v ∈ config.multiplicands, v.Ordinary ∧ v.WellTyped) :
    (∀ line ∈ (verify (xs.map .diff) config next).2.log, line.level ≠ .warning) ∧
    (∀ r, (verify (xs.map .diff) config next).1 = .ok r → r.violations = []) ∧
    (t.Over (·.family = .wrapping) → config.multiplicands = [] →
      ∃ r, (verify (xs.map .diff) config next).1 = .ok r) := by
  cases xs with
  | nil => exact ⟨fun _ h => (nomatch h), fun r hr => Except.ok.inj hr ▸ rfl, fun _ _ => ⟨_, rfl⟩⟩
  | cons x rest =>
    have hsuits {c : LawCheck}
        (hc : c ∈ LawCheck.plan config (((x :: rest).map Datum.diff).map Datum.values)) :
        c.Suits t (x :: rest).length config.multiplicands.length := by
      have hmap : ((x :: rest).map Datum.diff).map Datum.values =
          ((x :: rest).map Object.value).map Datum.diff := by
        rw [List.map_map, List.map_map]
        rfl
      rw [hmap] at hc
      have htypes : ∀ d ∈ (x :: rest).map Object.value, d.typeOf = t :=
        List.forall_mem_map.mpr fun x hx => (hxs x hx).typeOf_eq
      simpa using LawCheck.suits_of_mem_plan htypes hc
    have hstart : LawRun.Undisturbed base ((x :: rest).map .diff) config.multiplicands _ :=
      .start hbase
    obtain ⟨hclean, hpass⟩ := hstart.checkAll_clean hs hm ⟨rfl, rfl⟩
      (fun c hc u hu => (hsuits hc).isPure ht hxs hu)
      fun c hc => (hsuits hc).findsNothing ht hxs hms
    have hpass (hwrapping : t.Over (·.family = .wrapping)) (hnone : config.multiplicands = []) :=
      hpass fun c hc => by
        have hc := hsuits hc
        rw [hnone] at hc
        exact hc.passes ht hwrapping hxs
    rw [List.map_cons] at hclean hpass ⊢
    unfold verify
    dsimp only
    split
    next f r hr =>
      rw [hr] at hclean hpass
      refine ⟨fun line hline => ?_, fun _ h => (nomatch h), fun hwrapping hnone => ?_⟩
      · rw [hclean.log_eq] at hline
        cases hline
      · cases hpass hwrapping hnone
    next r hr =>
      rw [hr] at hclean
      refine ⟨fun line hline => ?_, fun report hreport => ?_, fun _ _ => ⟨_, rfl⟩⟩
      · rw [hclean.log_eq] at hline
        cases List.mem_singleton.mp hline
        simp [LawRun.summary]
      · cases hreport
        exact hclean.found_eq

namespace Session

variable {samples config : Value C} {c : LawConfig C (Object C)}

theorem call_verifyLaws {command : Command C} (hcommand : command.operation = .verifyLaws)
    {rest : List (Value C)} (hrest : rest.length ≤ 1) (known : Schemas C) (next : Nat) :
    command.call (samples :: rest) known next = verifyLaws samples (rest.headD .null) next := by
  rw [Command.call_of_ne_same hcommand (by decide)]
  rcases rest with _ | ⟨config, _ | ⟨other, rest⟩⟩
  · rfl
  · rfl
  · simp at hrest

theorem verifyLaws_eq {vs : List (Value C)} (hsamples : samplesOf samples = .ok vs)
    (hconfig : LawConfig.ofDatum config = .ok c) (next : Nat) :
    (verifyLaws samples config next).result =
        (Law.verify vs c next).1.map (.report 0) ∧
      (verifyLaws samples config next).log = (Law.verify vs c next).2.log := by
  unfold verifyLaws
  rw [hsamples]
  cases vs with
  | nil => exact ⟨rfl, rfl⟩
  | cons =>
    dsimp only
    rw [hconfig]
    exact ⟨rfl, rfl⟩

/-- Built-in types pass their own suite of checks. In every session that commands lead to, the
verification of laws on samples of a type over integers and presence markers, with the very kinds
that the type declares, finds no violation and logs no warning, whatever the samples share and
whatever ordinary multiplicands there are. It always gives its report if there are no multiplicands
and all integers wrap. -/
theorem Reachable.verifyLaws_conforms {s : Session C} (hs : s.Reachable) {t : DiffType C}
    (ht : t.Concrete) {command : Command C} (hcommand : command.operation = .verifyLaws)
    {rest : List (Value C)} {out : Outcome C}
    (hout : s.attempt command = .ok (samples :: rest, out)) (hrest : rest.length ≤ 1)
    {xs : List (Object C)} (hsamples : samplesOf samples = .ok (xs.map .diff))
    (hxs : ∀ x ∈ xs, Diff.Exact t x.value)
    (hconfig : LawConfig.ofDatum (rest.headD .null) = .ok c)
    (hms : ∀ v ∈ c.multiplicands, v.Ordinary) :
    (∀ line ∈ out.log, line.level ≠ .warning) ∧
    (∀ v, out.result = .ok v →
      ∃ l r, v = .report l r ∧ r.ok = true ∧ r.violations = []) ∧
    (t.Over (·.family = .wrapping) → c.multiplicands = [] → ∃ v, out.result = .ok v) := by
  have hfits := hs.isWellTyped.allFit_args hout
  obtain ⟨next, _, rfl, hpool⟩ := hs.isCoherent.attempt hout
  have hconfigs : (rest.headD .null).nodes ⊆ nodesAll (samples :: rest) := by
    cases rest with
    | nil => exact List.nil_subset _
    | cons config => exact fun y hy => mem_nodesAll.mpr ⟨config, by simp, hy⟩
  have hxsub := List.Subset.trans (nodesAll_samplesOf hsamples)
    (List.subset_append_left samples.nodes (nodesAll rest))
  have hmsub := List.Subset.trans (nodesAll_multiplicands hconfig) hconfigs
  have hbase : Coherent next (nodesAll (xs.map .diff ++ c.multiplicands)) := by
    refine hpool.mono ?_ (Nat.le_refl _)
    rw [Datum.nodesAll_append, Datum.nodesAll_append]
    exact List.append_subset.mpr ⟨List.subset_append_of_subset_right _ hxsub,
      List.subset_append_of_subset_right _ hmsub⟩
  have hmw : ∀ v ∈ c.multiplicands, v.Ordinary ∧ v.WellTyped := by
    refine fun v hv => ⟨hms v hv, Datum.wellTyped_of_allFit (hfits.mono fun y hy => hmsub ?_)⟩
    exact mem_nodesAll.mpr ⟨v, hv, hy⟩
  obtain ⟨hlog, hreport, hpass⟩ := Law.verify_builtIn hbase ht (List.subset_append_left _ _) hxs
    (List.subset_append_right _ _) hmw
  obtain ⟨hresult, hlogged⟩ := verifyLaws_eq hsamples hconfig next
  rw [call_verifyLaws hcommand hrest, Outcome.log_settle, hlogged]
  refine ⟨hlog, fun v hv => ?_, fun hwrapping hnone => ?_⟩
  · cases hr : (Law.verify (xs.map .diff) c next).1 with
    | error f =>
      rw [hr] at hresult
      rw [Outcome.result_settle_of_error hresult] at hv
      cases hv
    | ok r =>
      rw [hr] at hresult
      rw [Outcome.result_settle_of_ok hresult] at hv
      cases hv
      have hnone := hreport r hr
      exact ⟨_, r, rfl, by rw [LawReport.ok, hnone, List.isEmpty_nil], hnone⟩
  · obtain ⟨r, hr⟩ := hpass hwrapping hnone
    rw [hr] at hresult
    exact ⟨_, Outcome.result_settle_of_ok hresult⟩

set_option maxRecDepth 1000 in
/-- A presence marker is multiplied by a list with a byte in it, and wrapping integers are added
beyond the ends of their range. Both verifications give their reports. -/
theorem verifyLaws_conforms_edges :
    let byte : Expr specimens := .new (.type (.diff (.int ⟨.unsigned, .w8⟩))) [.int 5]
    let present : Expr specimens := .new (.type (.diff .present)) []
    let marked : Command specimens :=
      ⟨.verifyLaws, [.list [present],
        .config [("multiplicands", .list [.null, .list [.text "a", .tuple [.bool true, byte]]])]], none⟩
    let k : IntKind := ⟨.wrapping, .w8⟩
    let wrap (ns : List (Expr specimens)) : Expr specimens :=
      .new (.type (.diff (.vec (.int k)))) [.list ns]
    let wrapped : Command specimens :=
      ⟨.verifyLaws, [.tuple [wrap [.int 127, .int 1], wrap [.int (-128)]]], none⟩
    ∀ c ∈ [marked, wrapped], ∃ args out, empty.attempt c = .ok (args, out) ∧
      (∀ line ∈ out.log, line.level ≠ .warning) ∧
      ∃ l r, out.result = .ok (.report l r) ∧ r.ok = true ∧ r.violations = [] := by
  intro byte present marked k wrap wrapped
  simp only [List.forall_mem_cons, List.not_mem_nil, false_imp_iff, implies_true, and_true]
  constructor
  · let samples : Value specimens := .list 2 [.diff .present]
    let ms : List (Value specimens) :=
      [.null, .list 4 [.text "a", .tuple 5 [.bool true, .diff (.int 1 ⟨.unsigned, .w8⟩ 5)]]]
    have hms : ∀ v ∈ ms, v.Ordinary := by
      have hpair : (Datum.tuple 5 [.bool true, .diff (.int 1 ⟨.unsigned, .w8⟩ 5)] :
          Value specimens).Ordinary := by
        refine .tuple fun v hv => ?_
        simp only [List.mem_cons, List.not_mem_nil, or_false] at hv
        rcases hv with rfl | rfl
        · exact .bool true
        · exact .diff (.int _)
      intro v hv
      simp only [ms, List.mem_cons, List.not_mem_nil, or_false] at hv
      rcases hv with rfl | rfl
      · exact .null
      · refine .list fun v hv => ?_
        simp only [List.mem_cons, List.not_mem_nil, or_false] at hv
        rcases hv with rfl | rfl
        · exact .text "a"
        · exact hpair
    let out : Outcome specimens := (marked.call [samples, .config 3 true true ms] [] 6).settle
    have hout : empty.attempt marked = .ok ([samples, .config 3 true true ms], out) := rfl
    have hxs : ∀ x ∈ [(.present : Object specimens)], Diff.Exact .present x.value := by
      exact List.forall_mem_singleton.mpr .present
    obtain ⟨hlog, hreport, -⟩ :=
      Reachable.empty.verifyLaws_conforms .present rfl hout (by decide) rfl hxs rfl hms
    have hok : out.result.isOk = true := by decide +kernel
    refine ⟨_, out, hout, hlog, ?_⟩
    cases hresult : out.result with
    | error f =>
      rw [hresult] at hok
      cases hok
    | ok v =>
      obtain ⟨l, r, rfl, h⟩ := hreport v hresult
      exact ⟨l, r, rfl, h⟩
  · let x : Object specimens := .vec 1 (some (.int k)) [.int 2 k 127, .int 3 k 1]
    let y : Object specimens := .vec 4 (some (.int k)) [.int 5 k (-128)]
    let out : Outcome specimens := (wrapped.call [.tuple 6 [.diff x, .diff y]] [] 7).settle
    have hout : empty.attempt wrapped = .ok ([.tuple 6 [.diff x, .diff y]], out) := rfl
    have hxs : ∀ z ∈ [x, y], Diff.Exact (.vec (.int k)) z.value := by
      have hvec (ns : List Int) (hns : ∀ n ∈ ns, k.Holds n) :
          Diff.Exact (.vec (.int k) : DiffType specimens) (.vec (some (.int k)) (ns.map (.int k))) :=
        .vec (List.forall_mem_map.mpr fun n hn => .int (hns n hn))
      intro z hz
      simp only [List.mem_cons, List.not_mem_nil, or_false] at hz
      rcases hz with rfl | rfl
      · exact hvec [127, 1] (by decide)
      · exact hvec [-128] (by decide)
    obtain ⟨hlog, hreport, hpass⟩ := Reachable.empty.verifyLaws_conforms (.vec (.int k)) rfl hout
      (by decide) rfl hxs rfl (by simp)
    obtain ⟨v, hv⟩ := hpass (.vec (.int rfl)) rfl
    obtain ⟨l, r, rfl, h⟩ := hreport v hv
    exact ⟨_, out, hout, hlog, l, r, hv, h⟩

end Session

end DiffAlgebra
