import DiffAlgebra.Proofs.Sharing.Placement

/-!
# Operations hand out labels before they are used

What an operation gives has not been placed yet, is taken from its operands, or is a copy of one of
them. So the labels of all data that a session holds have been handed out, and this remains so
whatever commands it carries out.
-/

namespace DiffAlgebra

variable {C : Catalog}

open Datum (Below Bare Unplaced nodesAll labelled_list labelled_tuple labelled_record)

namespace Outcome

/-- What an outcome hands out, and what it changes data to, has labels that have been handed out. -/
structure Placed (o : Outcome C) : Prop where
  data : ∀ v ∈ o.data, v.Below o.next
  writes : ∀ w ∈ o.writes, w.Labelled (· < o.next)

variable {next : Nat}

theorem placed_shown {r : Except Fault (Value C)} (h : Returns (Below next) r) :
    (shown next r).Placed where
  data := by
    cases r with
    | error f => simp [shown, Outcome.data, yields]
    | ok v => simpa [shown, Outcome.data, yields] using h v rfl
  writes := by simp [shown]

theorem placed_failed (f : Fault) : (failed (C := C) next f).Placed := placed_shown (.error f)

theorem placed_unplaced (hnext : 0 < next) {r : Except Fault (Value C)} (h : Returns Unplaced r) :
    (shown next r).Placed :=
  placed_shown (h.mono fun _ hv => hv.below hnext)

theorem placed_listed (hnext : 0 < next) {r : Except Fault (List (Value C))}
    (h : ∀ {vs}, r = .ok vs → ∀ v ∈ vs, v.Below next) : (listed next r).Placed := by
  refine placed_shown fun v hv => ?_
  obtain ⟨vs, hvs, rfl⟩ := map_eq_ok.mp hv
  exact labelled_list.mpr ⟨hnext, h hvs⟩

theorem placed_made {r : Except Fault (Value C × Nat)}
    (h : ∀ {v last}, r = .ok (v, last) → v.Below last) : (made next r).Placed := by
  cases r with
  | error f => exact placed_failed f
  | ok p => exact placed_shown (.ok (h rfl))

theorem placed_built (r : Except Fault (Diff C)) : (built next r).Placed := by
  refine placed_made fun hv => ?_
  obtain ⟨x, _, hx⟩ := map_eq_ok.mp hv
  cases hx
  exact Datum.labelled_diff _

theorem placed_changes (hnext : 0 < next) {r : Except Fault (Value C)} (hr : Returns Unplaced r)
    {ws : List (Write C)} (hws : ∀ w ∈ ws, w.Labelled (· < next)) (log : List LogLine) :
    Placed { result := r, writes := ws, log := log, next := next } where
  data := (placed_unplaced hnext hr).data
  writes := hws

theorem placed_inPlace {α : Type} {m : UpdateM C α} {result : α → Value C}
    (hresult : ∀ a, (result a).Unplaced) (hnext : 0 < (Session.inPlace m result next).next) :
    (Session.inPlace m result next).Placed := by
  refine placed_changes hnext (.map hresult _) (fun w hw => ?_) []
  obtain ⟨new, -, rfl⟩ := List.mem_map.mp hw
  trivial

theorem Placed.settle {o : Outcome C} (h : o.Placed) : o.settle.Placed := by
  unfold Outcome.settle
  split
  next v hv =>
    have hle := Datum.le_settle v o.next
    obtain ⟨hdata, hwrites⟩ := h
    simp only [Outcome.data, hv, yields, List.singleton_append, List.forall_mem_cons] at hdata
    refine ⟨?_, fun w hw => (hwrites w hw).mono fun _ hl => hl.trans_le hle⟩
    simp only [Outcome.data, yields, List.singleton_append, List.forall_mem_cons]
    exact ⟨hdata.1.settle, fun u hu => (hdata.2 u hu).mono hle⟩
  · exact h

end Outcome

namespace Law

/-- The copies that a multiplication is compared with are dropped, and their labels not used again.
-/
theorem placed_checkMultiplyPurity {x operand : Value C} {next : Nat} (hnext : 0 < next)
    (hx : x.Below next) (hop : operand.Below next) :
    next ≤ (checkMultiplyPurity x operand next).next ∧
      ∀ w ∈ (checkMultiplyPurity x operand next).writes,
        w.Labelled (· < (checkMultiplyPurity x operand next).next) := by
  unfold checkMultiplyPurity
  split
  · simp
  next before last hbefore =>
    have hle := (hx.deepCopy hbefore).1
    split
    · simp [hle]
    next operandBefore last' hoperand =>
      have hle' := ((hop.mono hle).deepCopy hoperand).1
      have hop' := (hop.mono hle).mono hle'
      split
      · simp [hle.trans hle']
      next d _ =>
        have hplaced : (MultiplyState.mk operand [] last').Placed :=
          ⟨hnext.trans_le (hle.trans hle'), hop', by simp⟩
        have hmultiply := Object.places_multiplyOperand d hplaced
        exact ⟨(hle.trans hle').trans hmultiply.le, hmultiply.placed.writes⟩

end Law

namespace LawRun

structure Placed (r : LawRun C) : Prop where
  pos : 0 < r.next
  samples : ∀ v ∈ r.samples, v.Below r.next
  multiplicands : ∀ v ∈ r.multiplicands, v.Below r.next
  writes : ∀ w ∈ r.writes, w.Labelled (· < r.next)

namespace Placed

variable {r : LawRun C}

theorem start {samples multiplicands : List (Value C)} {next : Nat} (hnext : 0 < next)
    (hs : ∀ v ∈ samples, v.Below next) (hm : ∀ v ∈ multiplicands, v.Below next) :
    (LawRun.start samples multiplicands next).Placed :=
  ⟨hnext, hs, hm, by simp [LawRun.start]⟩

theorem below_getD {vs : List (Value C)} {n : Nat} (h : ∀ v ∈ vs, v.Below n) (i : Nat) :
    (vs.getD i .null).Below n := by
  rw [List.getD_eq_getElem?_getD]
  cases hi : vs[i]? with
  | none => exact Datum.labelled_null
  | some v => exact h v (List.mem_of_getElem? hi)

theorem change (h : r.Placed) {ws : List (Write C)} {last : Nat} (hle : r.next ≤ last)
    (hws : ∀ w ∈ ws, w.Labelled (· < last)) : (r.change ws last).Placed where
  pos := h.pos.trans_le hle
  samples := List.forall_mem_map.mpr fun v hv => ((h.samples v hv).mono hle).writes hws
  multiplicands := List.forall_mem_map.mpr fun v hv =>
    ((h.multiplicands v hv).mono hle).writes hws
  writes := by
    intro w hw
    rcases List.mem_append.mp hw with hw | hw
    · exact (h.writes w hw).mono fun _ hl => hl.trans_le hle
    · exact hws w hw

theorem check (h : r.Placed) {base : List (Value C)} {next : Nat} (hsound : r.Sound base next)
    (c : LawCheck) : (r.check c).2.Placed := by
  rcases hsound.check_cases c with hr | ⟨t, hext, hr⟩ | ⟨i, m, hr⟩
  all_goals rw [hr]
  · exact h
  · exact h.change hext.le (List.forall_mem_map.mpr fun _ _ => trivial)
  · obtain ⟨hle, hws⟩ := Law.placed_checkMultiplyPurity h.pos (below_getD h.samples i)
      (below_getD h.multiplicands m)
    exact h.change hle hws

theorem record (h : r.Placed) (v : Option LawViolation) : (r.record v).Placed := by
  cases v <;> exact ⟨h.pos, h.samples, h.multiplicands, h.writes⟩

end Placed

theorem Reached.placed {base samples multiplicands : List (Value C)} {next : Nat} {r : LawRun C}
    (h : Reached samples multiplicands next r) (hbase : Coherent next (nodesAll base))
    (hs : samples ⊆ base) (hm : multiplicands ⊆ base) (hnext : 0 < next)
    (hbelow : ∀ v ∈ samples ++ multiplicands, v.Below next) : r.Placed := by
  induction h with
  | start =>
    obtain ⟨hs, hm⟩ := List.forall_mem_append.mp hbelow
    exact .start hnext hs hm
  | check h c ih => exact ih.check (h.sound hbase hs hm) c
  | record _ v ih => exact ih.record v
  | note _ _ ih => exact ⟨ih.pos, ih.samples, ih.multiplicands, ih.writes⟩

end LawRun

namespace Session

open Outcome (Placed)

variable {next : Nat} {pool : List (Value C)}

theorem placed_verifyLaws (hpool : Coherent next (nodesAll pool)) {samples config : Value C}
    (hnext : 0 < next) (hs : samples.nodes ⊆ nodesAll pool) (hc : config.nodes ⊆ nodesAll pool)
    (hs' : samples.Below next) (hc' : config.Below next) :
    (verifyLaws samples config next).Placed := by
  rcases verifyLaws_cases samples config next with
    ⟨r, hbare, h⟩ | ⟨xs, ms, r, result, log, hnodes, hlabels, hbare, hreached, h⟩
  · rw [h]
    exact Outcome.placed_unplaced hnext hbare.unplaced
  · have hnodes := List.Subset.trans hnodes (List.append_subset.mpr ⟨hs, hc⟩)
    have hr : r.Placed :=
      hreached.placed (hpool.mono hnodes (Nat.le_refl _)) (List.subset_append_left _ _)
        (List.subset_append_right _ _) hnext (hlabels _ hs' hc')
    rw [h]
    exact Outcome.placed_changes hr.pos hbare.unplaced hr.writes log

private theorem placed_multiply {x operand : Value C} (hnext : 0 < next)
    (hop : operand.Below next) :
    (multiply x operand next).Placed := by
  unfold multiply
  split
  · exact Outcome.placed_failed _
  next o _ =>
    have hmultiply := Object.places_multiplyOperand o
      (s := ⟨operand, [], next⟩) ⟨hnext, hop, by simp⟩
    refine ⟨fun v hv => hmultiply.below v ?_, hmultiply.placed.writes⟩
    rcases List.mem_append.mp hv with hv | hv
    · exact hv
    · cases hv

private theorem placed_slice {x : Value C} (hnext : 0 < next) (hx : x.Below next)
    (bounds : List (Value C)) : (slice x bounds next).Placed := by
  have hmembers (s : Slice) (xs : List (Value C)) (hxs : ∀ v ∈ xs, v.Below next) :
      ∀ v ∈ s.select xs, v.Below next := fun v hv => hxs v (s.select_subset xs hv)
  unfold slice
  split
  · exact Outcome.placed_built _
  · refine Outcome.placed_listed hnext fun h => ?_
    obtain ⟨s, _, h⟩ := bind_eq_ok.mp h
    cases h
    exact List.forall_mem_map.mpr fun _ _ => Datum.labelled_diff _
  · refine Outcome.placed_listed hnext fun h => ?_
    obtain ⟨s, _, h⟩ := bind_eq_ok.mp h
    cases h
    exact hmembers s _ (labelled_list.mp hx).2
  · refine Outcome.placed_shown fun v h => ?_
    obtain ⟨s, _, h⟩ := bind_eq_ok.mp h
    cases h
    have ⟨hl, hxs⟩ := labelled_tuple.mp hx
    refine labelled_tuple.mpr ⟨?_, hmembers s _ hxs⟩
    split
    · exact hl
    · exact hnext
  · exact Outcome.placed_unplaced hnext (.bind (fun _ => .ok (Datum.labelled_text _)) _)
  · exact Outcome.placed_unplaced hnext (.bind (fun _ => .ok (Datum.labelled_bytes _)) _)
  · exact Outcome.placed_failed _

private theorem below_givenSchema {known : Schemas C} {t : DiffType C} {d : Value C} {last : Nat}
    (hnext : 0 < next) (hknown : ∀ p ∈ known, p.2.Below next)
    (h : givenSchema known t next = .ok (d, last)) : d.Below last := by
  unfold givenSchema at h
  split at h
  next hfind =>
    cases h
    exact hknown _ (List.mem_of_find?_eq_some hfind)
  · obtain ⟨s, _, h⟩ := bind_eq_ok.mp h
    have hbare : Bare (s.document t.name).toDatum := Contract.Document.bare_toDatum (C := C) _
    have hsettled := (hbare.unplaced.below hnext).settle
    rwa [Except.ok.inj h] at hsettled

theorem placed_giveSchema {known : Schemas C} (hnext : 0 < next)
    (hknown : ∀ p ∈ known, p.2.Below next) {present : DiffType C → Value C → Value C}
    (hpresent : ∀ {t d n}, 0 < n → d.Below n → (present t d).Below n) (l : Value C) :
    (giveSchema present known l next).Placed := by
  unfold giveSchema
  dsimp only
  split
  next t d last h =>
    obtain ⟨u, _, h⟩ := bind_eq_ok.mp h
    obtain ⟨⟨e, last'⟩, he, h⟩ := bind_eq_ok.mp h
    cases h
    have hd := below_givenSchema hnext hknown he
    have hlast := hnext.trans_le (nodes_givenSchema he).1
    refine ⟨?_, by simp⟩
    simpa [Outcome.data, yields] using And.intro (hpresent hlast hd) hd
  · exact Outcome.placed_failed _

end Session

/-- Every operation hands out labels before they are used. -/
theorem Operation.placed_call (op : Operation) {args : List (Value C)} {known : Schemas C}
    {pool : List (Value C)} {next : Nat} (hpool : Coherent next (nodesAll pool))
    (hnodes : nodesAll args ⊆ nodesAll pool) (hnext : 0 < next)
    (hargs : ∀ a ∈ args, a.Below next) (hknown : ∀ p ∈ known, p.2.Below next)
    (hlast : 0 < (op.call args known next).next) : (op.call args known next).Placed := by
  have hbare {r : Except Fault (Value C)} (h : Returns Bare r) :
      (Outcome.shown next r).Placed := Outcome.placed_unplaced hnext h.unplaced
  have hlaw (v : Option LawViolation) : (Session.lawValue v : Value C).Unplaced :=
    (Session.bare_lawValue v).unplaced
  revert hlast
  unfold call
  split
  all_goals intro hlast
  case h_1 => exact Outcome.placed_shown (.ok (hargs _ (by simp)))
  case h_2 =>
    refine Outcome.placed_made fun h => ?_
    obtain ⟨t, _, h⟩ := bind_eq_ok.mp h
    obtain ⟨d, _, h⟩ := bind_eq_ok.mp h
    cases h
    exact Datum.labelled_diff _
  case h_3 =>
    unfold Session.zero
    split
    · exact Outcome.placed_built _
    · exact hbare (.ok Datum.bare_null)
    · exact Outcome.placed_failed _
  case h_4 =>
    revert hlast
    unfold Session.plusEquals
    split
    · exact fun _ => Outcome.placed_failed _
    · exact Outcome.placed_inPlace fun _ => Datum.labelled_null
  case h_5 =>
    revert hlast
    unfold Session.negate
    split
    · exact fun _ => Outcome.placed_failed _
    · exact Outcome.placed_inPlace fun _ => Datum.labelled_null
  case h_6 => exact Session.placed_multiply hnext (hargs _ (by simp))
  case h_7 => exact hbare (Session.bare_isZero _)
  case h_8 =>
    refine Outcome.placed_made fun h => ?_
    obtain ⟨o, _, h⟩ := bind_eq_ok.mp h
    obtain ⟨y, _, h⟩ := bind_eq_ok.mp h
    cases h
    exact Datum.labelled_diff _
  case h_11 =>
    exact Outcome.placed_listed hnext fun h => Datum.Labelled.items (hargs _ (by simp)) hnext h
  case h_13 => exact Session.placed_slice hnext (hargs _ (by simp)) _
  case h_14 =>
    exact Outcome.placed_listed hnext fun h => Datum.Labelled.reversed (hargs _ (by simp)) hnext h
  case h_17 => exact hbare (Session.bare_index _ _ _)
  case h_18 =>
    refine Outcome.placed_unplaced hnext (.bind (fun x => ?_) _)
    split
    · refine .ok (labelled_tuple.mpr ⟨rfl, ?_⟩)
      exact List.forall_mem_map.mpr fun _ _ => Datum.labelled_diff _
    · exact .error _
  case h_19 => exact hbare (.ok (Datum.Comparison.bare_toRecord _))
  case h_20 =>
    refine Outcome.placed_listed hnext fun h => ?_
    obtain ⟨vs, hvs, h⟩ := bind_eq_ok.mp h
    have hbelow := Datum.Labelled.items (hargs _ (by simp)) hnext hvs
    exact fun v hv => hbelow v (Datum.sort_subset h hv)
  case h_23 => exact Outcome.placed_made fun h => (Below.copy (hargs _ (by simp)) h).2
  case h_24 => exact Outcome.placed_made fun h => (Below.deepCopy (hargs _ (by simp)) h).2
  case h_25 =>
    refine Outcome.placed_made fun h => ?_
    obtain ⟨_, _, h⟩ := bind_eq_ok.mp h
    exact (Below.archive (hargs _ (by simp)) h).2
  case h_26 => exact hbare (Session.bare_typeInfo _)
  case h_28 =>
    refine hbare (.bind (fun c => .ok ?_) _)
    exact Datum.bare_tuple.mpr ⟨rfl, List.forall_mem_map.mpr fun _ _ => Datum.bare_type _⟩
  case h_29 => exact hbare (.bind (fun _ => Session.bare_typeReference _) _)
  case h_32 => exact hbare (Session.bare_encode _)
  case h_33 => exact hbare (Session.bare_encodedSize _)
  case h_34 | h_35 =>
    unfold Session.decode
    dsimp only
    split
    · exact Outcome.placed_built _
    · exact Outcome.placed_changes hnext (.error _) (by simp) _
  case h_36 => exact hbare (Session.bare_toForm _)
  case h_37 => exact Session.placed_giveSchema hnext hknown (fun _ hd => hd) _
  case h_38 =>
    refine Session.placed_giveSchema hnext hknown (fun hn hd => ?_) _
    exact labelled_record.mpr ⟨hn, by simpa [Below] using hd⟩
  case h_39 => exact Outcome.placed_built _
  case h_42 =>
    exact Outcome.placed_listed hnext fun h v hv =>
      (Session.bare_violations h v hv).unplaced.below hnext
  case h_43 =>
    revert hlast
    unfold Session.accumulate
    split
    · exact fun _ => Outcome.placed_failed _
    · exact Outcome.placed_inPlace Datum.labelled_diff
  case h_44 | h_45 | h_46 | h_47 => exact Outcome.placed_inPlace hlaw hlast
  case h_48 x y =>
    have hchecked := Law.placed_checkMultiplyPurity hnext (hargs x (by simp)) (hargs y (by simp))
    exact Outcome.placed_changes hlast (.map hlaw _) hchecked.2 []
  case h_49 =>
    refine Session.placed_verifyLaws hpool hnext ?_ (List.nil_subset _) (hargs _ (by simp))
      Datum.labelled_null
    exact List.Subset.trans (Datum.nodes_subset_nodesAll (by simp)) hnodes
  case h_50 =>
    refine Session.placed_verifyLaws hpool hnext ?_ ?_ (hargs _ (by simp)) (hargs _ (by simp))
    all_goals exact List.Subset.trans (Datum.nodes_subset_nodesAll (by simp)) hnodes
  case h_51 => exact hbare (.ok Session.bare_constants)
  case h_52 => exact Outcome.placed_failed _
  -- What is left shows an atom, if anything.
  all_goals first
    | exact hbare (.ok (Datum.bare_of_plain rfl rfl rfl))
    | exact hbare (.map (fun _ => Datum.bare_of_plain rfl rfl rfl) _)
    | exact hbare (.bind (fun _ => .bind (fun _ => .ok (Datum.bare_of_plain rfl rfl rfl)) _) _)

theorem Command.placed_call (c : Command C) {args : List (Value C)} {known : Schemas C}
    {pool : List (Value C)} {next : Nat} (hpool : Coherent next (nodesAll pool))
    (hnodes : nodesAll args ⊆ nodesAll pool)
    (hschemas : nodesAll (known.map (·.2)) ⊆ nodesAll pool) (hnext : 0 < next)
    (hargs : ∀ a ∈ args, a.Below next) (hknown : ∀ p ∈ known, p.2.Below next) :
    (c.call args known next).Placed := by
  have hlast := hnext.trans_le (c.sound_call hpool hnodes hschemas).le
  revert hlast
  unfold call
  split
  · exact fun _ => Outcome.placed_unplaced hnext (.ok (Datum.labelled_bool _))
  · exact c.operation.placed_call hpool hnodes hnext hargs hknown

namespace Session

structure Placed (s : Session C) : Prop where
  pos : 0 < s.next
  data : ∀ v ∈ s.data, v.Below s.next

theorem Placed.attempt {s : Session C} (h : s.Placed) (hs : s.IsCoherent) {c : Command C}
    {args : List (Value C)} {out : Outcome C} (hc : s.attempt c = .ok (args, out)) :
    ∃ next, s.next ≤ next ∧ out = (c.call args s.schemas next).settle ∧
      Coherent next (nodesAll (s.data ++ args)) ∧ (∀ a ∈ args, a.Below next) ∧
      ∀ a ∈ args, a.Labelled (0 < ·) := by
  obtain ⟨⟨vs, mid⟩, hvs, hc⟩ := bind_eq_ok.mp hc
  cases hc
  have hbindings : ∀ v ∈ s.bindings.data, v.Below s.next := fun v hv =>
    h.data v (List.mem_append_left _ hv)
  obtain ⟨hle, hbelow⟩ := Expr.below_evalAll c.operands h.pos hbindings hvs
  have hsub : nodesAll s.bindings.data ⊆ nodesAll s.data :=
    Datum.nodesAll_mono (List.subset_append_left _ _)
  have hjoin := Expr.joins_evalAll c.operands hsub hs hvs
  have hle' := Datum.le_settleAll vs mid
  refine ⟨_, hle.trans hle', rfl, ?_, Below.settleAll hbelow, ?_⟩
  · rw [Datum.nodesAll_append, Datum.nodesAll_settleAll]
    exact hjoin.coherent.mono (List.Subset.refl _) hle'
  · exact Datum.Labelled.settleAll vs hbelow (fun l _ hl => Nat.pos_of_ne_zero hl)
      fun l hl _ => h.pos.trans_le (hle.trans hl)

theorem Placed.step {s : Session C} (h : s.Placed) (hs : s.IsCoherent) (c : Command C) :
    (s.step c).1.Placed := by
  cases hc : s.attempt c with
  | error f =>
    rw [step_eq, hc]
    exact h
  | ok p =>
    obtain ⟨args, out⟩ := p
    rw [step_of_attempt hc]
    obtain ⟨next, hle, rfl, hpool, hargs, -⟩ := h.attempt hs hc
    have hargs' : nodesAll args ⊆ nodesAll (s.data ++ args) :=
      Datum.nodesAll_mono (List.subset_append_right _ _)
    have hschemas : nodesAll (s.schemas.map (·.2)) ⊆ nodesAll (s.data ++ args) :=
      Datum.nodesAll_mono (List.subset_append_of_subset_left _ (List.subset_append_right _ _))
    have hnext := h.pos.trans_le hle
    have hout := (c.placed_call hpool hargs' hschemas hnext hargs fun p hp =>
      (h.data p.2 (List.mem_append_right _ (List.mem_map_of_mem hp))).mono hle).settle
    have hle' := hle.trans (c.sound_call hpool hargs' hschemas).settle.le
    have hlast : (s.after c (c.call args s.schemas next).settle).next =
        (c.call args s.schemas next).settle.next := by
      rw [after, next_bind, next_keep]
      rfl
    refine ⟨hlast ▸ h.pos.trans_le hle', fun v hv => ?_⟩
    rw [hlast]
    rcases List.mem_append.mp (data_after_subset s c _ hv) with hv | hv
    · obtain ⟨u, hu, rfl⟩ := List.mem_map.mp hv
      exact ((h.data u hu).mono hle').writes hout.writes
    · exact hout.data v hv

/-- In every session that commands lead to, labels have been handed out before they are used. -/
theorem Reachable.placed {s : Session C} (h : s.Reachable) : s.Placed := by
  induction h with
  | empty => exact ⟨Nat.one_pos, fun _ hv => absurd hv List.not_mem_nil⟩
  | step h c ih => exact ih.step h.isCoherent c

end Session

end DiffAlgebra
