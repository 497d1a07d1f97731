import DiffAlgebra.Proofs.Codec.Canonical
import DiffAlgebra.Proofs.Sharing.Operations
import DiffAlgebra.Proofs.Typing.Multiplication

/-!
# Operations keep objects well typed

On a coherent pool whose objects fit their types, every operation leaves objects that fit their
types and hands out such objects, also where it fails half-way.
-/

namespace DiffAlgebra

variable {C : Catalog}

open Datum (nodesAll mem_nodesAll)

namespace Outcome

variable {pool : List (Value C)} {next : Nat}

/-- After an outcome all objects fit their types: those of a pool, as they have been changed, and
those that are handed out. -/
def LeavesFit (pool : List (Value C)) (o : Outcome C) : Prop :=
  AllFit (nodesAll (pool.map (Datum.writes o.writes) ++ o.data))

theorem Looks.leavesFit {o : Outcome C} (h : Looks pool next o) (hpool : AllFit (nodesAll pool)) :
    LeavesFit pool o := by
  rw [LeavesFit, h.writes_eq, map_writes_nil, Datum.nodesAll_append]
  exact hpool.append (hpool.mono h.data_subset)

theorem leavesFit_failed (hpool : AllFit (nodesAll pool)) (f : Fault) :
    LeavesFit pool (failed next f) := by
  have hlooks : Looks pool next (failed next f) := looks_failed f
  exact hlooks.leavesFit hpool

theorem leavesFit_made (hpool : AllFit (nodesAll pool)) {r : Except Fault (Value C × Nat)}
    (h : ∀ {v last}, r = .ok (v, last) → AllFit v.nodes) : LeavesFit pool (made next r) := by
  cases r with
  | error f => exact leavesFit_failed hpool f
  | ok p =>
    change AllFit (nodesAll (pool.map (Datum.writes []) ++ [p.1]))
    rw [map_writes_nil, Datum.nodesAll_append, Datum.nodesAll_singleton]
    exact hpool.append (h rfl)

theorem leavesFit_built (hpool : AllFit (nodesAll pool)) {r : Except Fault (Diff C)}
    (h : ∀ {x}, r = .ok x → x.wellTyped = true) : LeavesFit pool (built next r) := by
  refine leavesFit_made hpool fun hv => ?_
  obtain ⟨x, hx, hv⟩ := map_eq_ok.mp hv
  cases hv
  refine Object.wellTyped_iff.mp ?_
  rw [Object.value_ofDiff]
  exact h hx

theorem leavesFit_changes {r : Except Fault (Value C)} {ws : List (Write C)} {log : List LogLine}
    (hr : Plain r) (h : AllFit (nodesAll (pool.map (Datum.writes ws)))) :
    LeavesFit pool { result := r, writes := ws, log := log, next := next } := by
  rw [LeavesFit, Datum.nodesAll_append]
  refine h.append ?_
  cases r with
  | error f => exact fun _ hy => nomatch hy
  | ok v => simp [data, yields, hr v rfl, AllFit]

theorem LeavesFit.settle {o : Outcome C} (h : LeavesFit pool o) : LeavesFit pool o.settle := by
  unfold Outcome.settle
  split
  next v hv =>
    refine AllFit.mono h ?_
    simp [data, yields, hv, nodesAll, Datum.nodes_settle]
  · exact h

end Outcome

theorem Object.Renewed.typedBy {x new : Object C} {z : Diff C} {l next last : Nat}
    (h : Renewed (some l) next last z new) (hx : x.label? = some l) (hl : l < next)
    (hz : Diff.StandsFor x.value z) : (Write.object new).TypedBy [x] := by
  have hfits : AllFit new.nodes := by
    refine wellTyped_iff.mp ?_
    rw [h.value_eq]
    exact hz.wellTyped
  have hlt : ∀ y ∈ [x], ∀ k, y.label? = some k → k < next := by
    intro y hy k hk
    obtain rfl := List.mem_singleton.mp hy
    exact Option.some.inj (hx.symm.trans hk) ▸ hl
  refine ⟨fun y hy => ?_, fun _ hw => ?_⟩
  · have hnodes := hy
    rw [Write.brought, nodes_eq] at hnodes
    rcases List.mem_cons.mp hnodes with rfl | hparts
    · refine ⟨hfits _ (mem_nodes_self _), fun w hw _ => ?_⟩
      obtain rfl := List.mem_singleton.mp hw
      exact (congrArg Diff.typeOf h.value_eq).trans hz.typeOf_eq
    · exact .of_fresh (hfits y hy) hlt (h.le_label y hparts)
  · cases hw
    exact ⟨x, by simp, l, hx, h.label_eq⟩

namespace Session

open Outcome (LeavesFit)

variable {pool : List (Value C)} {next : Nat}

/-- Changes of new objects leave the objects of a pool as they are. -/
theorem allFit_writes (hpool : Coherent next (nodesAll pool)) (hfits : AllFit (nodesAll pool))
    {t : Progress C} (hext : Progress.Extends [] ⟨[], next⟩ t) :
    AllFit (nodesAll (pool.map (Datum.writes (t.changes.map .object)))) := by
  rw [map_writes_eq_self hpool hext]
  exact hfits

/-- An operation in place that gives an object a value of its type. -/
theorem leavesFit_inPlace (hpool : Coherent next (nodesAll pool)) (hfits : AllFit (nodesAll pool))
    {x : Object C} (hx : x.nodes ⊆ nodesAll pool) {r : Except Fault (Diff C)} {m : UpdateM C Unit}
    (hm : Object.Renews x.label? r m ⟨[], next⟩)
    (hr : ∀ {z}, r = .ok z → Diff.StandsFor x.value z) :
    LeavesFit pool (inPlace m (fun _ => .null) next) := by
  refine Outcome.leavesFit_changes (Returns.map (fun _ => Datum.bare_null) _).plain ?_
  change AllFit (nodesAll (pool.map (Datum.writes ((m.run ⟨[], next⟩).2.changes.map .object))))
  rcases hm with ⟨f, t, -, hrun, hext⟩ | ⟨z, new, t, hz, hnew, hext, hrun⟩
  · rw [hrun]
    exact allFit_writes hpool hfits hext
  · rw [hrun, List.map_append, Datum.map_writes_append, map_writes_eq_self hpool hext]
    cases hl : x.label? with
    | none => exact (Outcome.map_writes_nil pool).symm ▸ hfits
    | some l =>
      rw [hl] at hnew
      have hself := hx (Object.mem_nodes_self x)
      have hwrite := hnew.typedBy hl (hpool.label_lt hself hl) (hr hz)
      intro y hy
      obtain ⟨u, hu, hyu⟩ := mem_nodesAll.mp hy
      obtain ⟨v, hv, rfl⟩ := List.mem_map.mp hu
      have htyped : v.TypedBy [x] := fun z hz =>
        hpool.typedBy hfits (by simpa using hself) z (mem_nodesAll.mpr ⟨v, hv, hz⟩)
      exact (htyped.write hwrite y hyu).fits

theorem wellTyped_values {v : Value C} (hfits : AllFit (nodesAll pool))
    (hv : v.nodes ⊆ nodesAll pool) : v.values.WellTyped :=
  Datum.wellTyped_values.mpr (Datum.wellTyped_of_allFit (hfits.mono hv))

private theorem leavesFit_plusEquals (hpool : Coherent next (nodesAll pool))
    (hfits : AllFit (nodesAll pool)) {x operand : Value C} (hx : x.nodes ⊆ nodesAll pool)
    (hop : operand.nodes ⊆ nodesAll pool) : LeavesFit pool (plusEquals x operand next) := by
  unfold plusEquals
  split
  · exact Outcome.leavesFit_failed hfits _
  next o ho =>
    rw [Datum.eq_diff_of_receiver ho] at hx
    have hm := o.renews_plusEquals (Progress.valid_start next) (hpool.settled.mono hop)
    exact leavesFit_inPlace hpool hfits hx hm fun hz =>
      Diff.standsFor_plus (Object.wellTyped_iff.mpr (hfits.mono hx)) (wellTyped_values hfits hop) hz

private theorem leavesFit_negate (hpool : Coherent next (nodesAll pool))
    (hfits : AllFit (nodesAll pool))
    {x : Value C} (hx : x.nodes ⊆ nodesAll pool) : LeavesFit pool (negate x next) := by
  unfold negate
  split
  · exact Outcome.leavesFit_failed hfits _
  next o ho =>
    rw [Datum.eq_diff_of_receiver ho] at hx
    have hm := o.renews_negate (Progress.valid_start next)
    exact leavesFit_inPlace hpool hfits hx hm fun hz =>
      Diff.standsFor_negate _ (Object.wellTyped_iff.mpr (hfits.mono hx)) hz

private theorem leavesFit_accumulate (hpool : Coherent next (nodesAll pool))
    (hfits : AllFit (nodesAll pool)) {x : Value C} (hx : x.nodes ⊆ nodesAll pool) :
    LeavesFit pool (accumulate x next) := by
  unfold accumulate
  split
  · exact Outcome.leavesFit_failed hfits _
  next vs hvs =>
    have hvs := List.Subset.trans (Datum.nodesAll_items hvs) hx
    obtain ⟨t, hext, hresult⟩ := Object.run_accumulate vs (Progress.valid_start next)
      (hpool.settled.mono hvs)
    have hpool' := allFit_writes hpool hfits hext
    rcases hresult with ⟨f, -, hrun⟩ | ⟨o, ho, hrun, -, -⟩
    · simp only [inPlace, hrun]
      exact Outcome.leavesFit_changes (Returns.error f).plain hpool'
    · simp only [inPlace, hrun, LeavesFit, Outcome.data, yields, ok_map]
      rw [Datum.nodesAll_append]
      refine hpool'.append ?_
      have hwell : o.value.wellTyped = true := by
        refine Diff.wellTyped_accumulate (fun u hu => ?_) ho
        obtain ⟨v, hv, rfl⟩ := List.mem_map.mp hu
        exact wellTyped_values hfits (List.Subset.trans (Datum.nodes_subset_nodesAll hv) hvs)
      simpa [nodesAll, Datum.nodes] using Object.wellTyped_iff.mp hwell

private theorem leavesFit_multiply (hpool : Coherent next (nodesAll pool))
    (hfits : AllFit (nodesAll pool))
    {x operand : Value C} (hx : x.nodes ⊆ nodesAll pool) (hop : operand.nodes ⊆ nodesAll pool) :
    LeavesFit pool (multiply x operand next) := by
  unfold multiply
  split
  · exact Outcome.leavesFit_failed hfits _
  next o ho =>
    rw [Datum.eq_diff_of_receiver ho] at hx
    simpa [LeavesFit, Outcome.data] using o.allFit_multiply hpool hfits hx hop

private theorem leavesFit_coerce (hfits : AllFit (nodesAll pool)) (t : Value C) {x : Value C}
    (hx : x.nodes ⊆ nodesAll pool) : LeavesFit pool (coerce t x next) := by
  refine Outcome.leavesFit_made hfits fun h => ?_
  obtain ⟨t, -, h⟩ := bind_eq_ok.mp h
  obtain ⟨d, hd, h⟩ := bind_eq_ok.mp h
  cases h
  refine Object.wellTyped_iff.mp ?_
  rw [Object.value_ofDraft]
  exact (Draft.instanceOf_coerce t (Datum.wellTyped_of_allFit (hfits.mono hx)) hd).wellTyped

private theorem leavesFit_zero (hfits : AllFit (nodesAll pool)) (t : Value C) :
    LeavesFit pool (zero t next) := by
  unfold zero
  split
  next z hz =>
    refine Outcome.leavesFit_built hfits fun h => ?_
    cases h
    obtain ⟨t, -, hz⟩ := bind_eq_ok.mp hz
    exact (Diff.instanceOf_zero? t hz).wellTyped
  · exact Outcome.leavesFit_changes (Returns.ok Datum.bare_null).plain
      ((Outcome.map_writes_nil pool).symm ▸ hfits)
  · exact Outcome.leavesFit_failed hfits _

private theorem leavesFit_clone (hfits : AllFit (nodesAll pool)) {x : Value C}
    (hx : x.nodes ⊆ nodesAll pool) : LeavesFit pool (clone x next) := by
  refine Outcome.leavesFit_made hfits fun h => ?_
  obtain ⟨o, ho, h⟩ := bind_eq_ok.mp h
  obtain ⟨y, hy, h⟩ := bind_eq_ok.mp h
  obtain ⟨z, hz, hy⟩ := bind_eq_ok.mp hy
  cases hy
  cases h
  rw [Datum.eq_diff_of_receiver ho] at hx
  refine Object.wellTyped_iff.mp ?_
  rw [Object.value_ofDiff, ← (Diff.clone_eq_ok.mp hz).2]
  exact Object.wellTyped_iff.mpr (hfits.mono hx)

private theorem leavesFit_sliceVec (hfits : AllFit (nodesAll pool)) {l : Nat}
    {t : Option (DiffType C)}
    {xs : List (Object C)} (hx : (Datum.diff (.vec l t xs)).nodes ⊆ nodesAll pool)
    (bounds : List (Value C)) : LeavesFit pool (slice (.diff (.vec l t xs)) bounds next) := by
  refine Outcome.leavesFit_built hfits fun {z} h => ?_
  obtain ⟨s, -, h⟩ := bind_eq_ok.mp h
  obtain ⟨ys, hys, h⟩ := bind_eq_ok.mp h
  split at h
  · cases h
  · cases h
    have hwell : (Object.vec l t xs).value.wellTyped = true :=
      Object.wellTyped_iff.mpr (hfits.mono hx)
    rw [Object.value, Object.valueAll_eq_map] at hwell
    refine Diff.wellTyped_vec_of_subset hwell ?_
    rw [← (Diff.cloneAll_eq_ok.mp hys).2]
    exact List.map_subset _ (s.select_subset xs)

private theorem wellTyped_decode {m : Int} {t : DiffType C} {bs : ByteData} {x : Diff C}
    (h : bs.decode m t = .ok x) : x.wellTyped = true := by
  cases bs with
  | spelled bs => exact (Diff.instanceOf_decode h).wellTyped
  | zeros n =>
    simp only [ByteData.decode, Diff.decodeZeros] at h
    split at h
    · cases h
    · exact (Diff.instanceOf_decode h).wellTyped

private theorem leavesFit_decode (hfits : AllFit (nodesAll pool)) (l data : Value C)
    (limit : Option (Value C)) : LeavesFit pool (decode l data limit next) := by
  unfold decode
  dsimp only
  split
  next x hx =>
    refine Outcome.leavesFit_built hfits fun h => ?_
    cases h
    obtain ⟨t, -, hx⟩ := bind_eq_ok.mp hx
    obtain ⟨bs, -, hx⟩ := bind_eq_ok.mp hx
    obtain ⟨m, hm⟩ := exists_decode_of_decodeWithin hx
    exact wellTyped_decode hm
  next f _ =>
    exact Outcome.leavesFit_changes (Returns.error f).plain
      ((Outcome.map_writes_nil pool).symm ▸ hfits)

private theorem leavesFit_load (hfits : AllFit (nodesAll pool)) (l data : Value C) :
    LeavesFit pool (load l data next) := by
  refine Outcome.leavesFit_built hfits fun h => ?_
  obtain ⟨t, -, h⟩ := bind_eq_ok.mp h
  exact (Diff.instanceOf_load h).wellTyped

end Session

theorem Law.allFit_checkMultiplyPurity {pool : List (Value C)} {next : Nat}
    (hpool : Coherent next (nodesAll pool)) (hfits : AllFit (nodesAll pool)) {x operand : Value C}
    (hx : x.nodes ⊆ nodesAll pool) (hop : operand.nodes ⊆ nodesAll pool) :
    AllFit (nodesAll (pool.map (Datum.writes (checkMultiplyPurity x operand next).writes))) := by
  have hkeep : AllFit (nodesAll (pool.map (Datum.writes []))) :=
    (Outcome.map_writes_nil pool).symm ▸ hfits
  unfold checkMultiplyPurity
  split
  · exact hkeep
  next before last hbefore =>
    have hpool' := (Datum.joins_deepCopy hbefore hx hpool).le
    split
    · exact hkeep
    next operandBefore last' hoperand =>
      have hle := hpool'.trans (Datum.joins_deepCopy hoperand hop
        (hpool.mono (List.Subset.refl _) hpool')).le
      split
      · exact hkeep
      next d hd =>
        rw [Datum.eq_diff_of_receiver hd] at hx
        have h := d.allFit_multiply (hpool.mono (List.Subset.refl _) hle) hfits hx hop
        refine h.mono ?_
        rw [Datum.nodesAll_append]
        exact List.subset_append_left _ _

private theorem LawRun.Reached.allFit {base samples multiplicands : List (Value C)} {next : Nat}
    {r : LawRun C} (h : Reached samples multiplicands next r) (hbase : Coherent next (nodesAll base))
    (hfits : AllFit (nodesAll base)) (hs : samples ⊆ base) (hm : multiplicands ⊆ base) :
    AllFit (nodesAll (base.map (Datum.writes r.writes))) := by
  induction h with
  | start => exact (Outcome.map_writes_nil base).symm ▸ hfits
  | @check r hr c ih =>
    have hsound := hr.sound hbase hs hm
    rcases hsound.check_cases c with h | ⟨t, hext, h⟩ | ⟨i, m, h⟩
    all_goals rw [h]
    · exact ih
    · rw [LawRun.change, Datum.map_writes_append]
      exact Session.allFit_writes hsound.coherent ih hext
    · rw [LawRun.change, Datum.map_writes_append]
      exact Law.allFit_checkMultiplyPurity hsound.coherent ih
        (Sound.nodes_getD_subset hsound.samples_mem i)
        (Sound.nodes_getD_subset hsound.multiplicands_mem m)
  | record _ v ih => cases v <;> exact ih
  | note _ _ ih => exact ih

namespace Session

open Outcome (LeavesFit)

variable {pool : List (Value C)} {next : Nat}

private theorem leavesFit_checkMultiplyPurity (hpool : Coherent next (nodesAll pool))
    (hfits : AllFit (nodesAll pool)) {x operand : Value C} (hx : x.nodes ⊆ nodesAll pool)
    (hop : operand.nodes ⊆ nodesAll pool) :
    LeavesFit pool (checkMultiplyPurity x operand next) :=
  Outcome.leavesFit_changes (plain_lawValue _)
    (Law.allFit_checkMultiplyPurity hpool hfits hx hop)

private theorem leavesFit_verifyLaws (hpool : Coherent next (nodesAll pool))
    (hfits : AllFit (nodesAll pool)) {samples config : Value C}
    (hs : samples.nodes ⊆ nodesAll pool) (hc : config.nodes ⊆ nodesAll pool) :
    LeavesFit pool (verifyLaws samples config next) := by
  rcases verifyLaws_cases samples config next with
    ⟨r, hbare, h⟩ | ⟨xs, ms, r, result, log, hsub, -, hbare, hr, h⟩
  · rw [h]
    exact (Outcome.looks_plain hbare.plain).leavesFit hfits
  · have hsub := List.Subset.trans hsub (List.append_subset.mpr ⟨hs, hc⟩)
    have hbase : nodesAll (pool ++ (xs ++ ms)) ⊆ nodesAll pool := by
      rw [Datum.nodesAll_append]
      exact List.append_subset.mpr ⟨List.Subset.refl _, hsub⟩
    have hall := hr.allFit (hpool.mono hbase (Nat.le_refl _)) (hfits.mono hbase)
      (List.subset_append_of_subset_right _ (List.subset_append_left _ _))
      (List.subset_append_of_subset_right _ (List.subset_append_right _ _))
    rw [h]
    refine Outcome.leavesFit_changes hbare.plain (hall.mono ?_)
    rw [List.map_append, Datum.nodesAll_append]
    exact List.subset_append_left _ _

end Session

/-- Every operation on a coherent pool whose objects fit their types leaves objects that do. -/
theorem Operation.Effect.leavesFit {pool : List (Value C)} {next : Nat} {o : Outcome C}
    (h : Effect pool next o) (hpool : Coherent next (nodesAll pool))
    (hfits : AllFit (nodesAll pool)) : Outcome.LeavesFit pool o := by
  cases h with
  | looks h => exact h.leavesFit hfits
  | coerce t hx => exact Session.leavesFit_coerce hfits t hx
  | zero t => exact Session.leavesFit_zero hfits t
  | plusEquals hx hy => exact Session.leavesFit_plusEquals hpool hfits hx hy
  | negate hx => exact Session.leavesFit_negate hpool hfits hx
  | multiply hx hy => exact Session.leavesFit_multiply hpool hfits hx hy
  | clone hx => exact Session.leavesFit_clone hfits hx
  | sliceVec hx bounds => exact Session.leavesFit_sliceVec hfits hx bounds
  | copy hx => exact Outcome.leavesFit_made hfits (Datum.fits_copy (hfits.mono hx))
  | deepCopy hx => exact Outcome.leavesFit_made hfits (Datum.fits_deepCopy (hfits.mono hx))
  | archive hx =>
    refine Outcome.leavesFit_made hfits fun h => ?_
    obtain ⟨_, -, h⟩ := bind_eq_ok.mp h
    exact Datum.fits_archive (hfits.mono hx) h
  | decode l data limit => exact Session.leavesFit_decode hfits l data limit
  | load l data => exact Session.leavesFit_load hfits l data
  | accumulate hx => exact Session.leavesFit_accumulate hpool hfits hx
  | checkLaw hm =>
    exact Outcome.leavesFit_changes (Session.plain_lawValue _)
      (Session.allFit_writes hpool hfits hm.extends_run)
  | checkMultiplyPurity hx hy => exact Session.leavesFit_checkMultiplyPurity hpool hfits hx hy
  | verifyLaws hs hc => exact Session.leavesFit_verifyLaws hpool hfits hs hc

end DiffAlgebra
