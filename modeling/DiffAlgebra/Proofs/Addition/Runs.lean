import DiffAlgebra.Proofs.Addition.Pool
import DiffAlgebra.Proofs.Sharing.Ownership
import DiffAlgebra.Proofs.Sharing.Results

/-!
# Runs of trapping arithmetic

A session that works with values of trapping types goes through what the same operations come to in
the integers, without any bounds. An operation overflows just if an integer that it is given or a
value that it computes is out of range, and then it leaves no trace.
-/

namespace DiffAlgebra

variable {C : Catalog}

open Datum (nodesAll mem_nodesAll)
open PoolOperand (exprs meanings)

namespace PoolOp

variable {op : PoolOp C} {ds : List (Diff C)}

/-- A step of a session agrees with what an operation computes. It succeeds if all is in range, and
then it does what the operation does in the integers. Otherwise it fails and leaves everything as it
is. -/
inductive Answers (op : PoolOp C) (s : Session C) : List (Diff C) → Prop where
  | carried {ds : List (Diff C)} {v : Value C} (ok : (s.step op.command).2.result = .ok v)
      (computed : ds ≠ []) (inRange : ∀ d ∈ ds, d.InRange)
      (carries : op.Carries s.bindings (s.step op.command).1.bindings)
      (exact : (s.step op.command).1.bindings.IsExact) : Answers op s ds
  | refused {ds : List (Diff C)} {f : Fault} (error : (s.step op.command).2.result = .error f)
      (same : (s.step op.command).1.bindings = s.bindings)
      (cause : ds ≠ [] ∧ ¬ (∀ d ∈ ds, d.InRange) ∧ f.kind = .overflow ∨
        ds = [] ∧ f.kind ≠ .overflow) : Answers op s ds

theorem Answers.of_gives {s : Session C} {r : Except Fault (Diff C)} (h : Diff.Gives ds r)
    (herror : ∀ f, r = .error f → (s.step op.command).2.result = .error f ∧
      (s.step op.command).1.bindings = s.bindings)
    (hok : ∀ z, r = .ok z → (∀ d ∈ ds, d.InRange) → ds.getLast? = some z →
      (∃ v, (s.step op.command).2.result = .ok v) ∧
      op.Carries s.bindings (s.step op.command).1.bindings ∧
      (s.step op.command).1.bindings.IsExact) : op.Answers s ds := by
  unfold Diff.Gives at h
  split at h
  next z hlast =>
    have hne : ds ≠ [] := by
      rintro rfl
      cases hlast
    rcases h with ⟨hrange, hr⟩ | ⟨hrange, f, hr, hf⟩
    · obtain ⟨⟨v, hv⟩, hcarries, hexact⟩ := hok z hr hrange hlast
      exact .carried hv hne hrange hcarries hexact
    · obtain ⟨hresult, hsame⟩ := herror f hr
      exact .refused hresult hsame (Or.inl ⟨hne, hrange, hf⟩)
  next hlast =>
    obtain ⟨f, hr, hf⟩ := h
    obtain ⟨hresult, hsame⟩ := herror f hr
    exact .refused hresult hsame (Or.inr ⟨List.getLast?_eq_none_iff.mp hlast, hf⟩)

end PoolOp

namespace Session

variable {s : Session C} {op : PoolOp C} {ds : List (Diff C)} {args pool : List (Value C)}
  {out : Outcome C} {n : String} {x : Object C} {next : Nat}

theorem unused_of_ownLabels (hpool : Coherent next (nodesAll (s.data ++ args))) {last : Nat}
    {ls : List Nat} (h : Object.OwnLabels next last ls) : s.bindings.Unused ls := by
  refine ⟨h.nodup, fun y hy => h.fresh hpool y (Datum.nodesAll_mono ?_ hy)⟩
  exact List.subset_append_of_subset_left _ (List.subset_append_left _ _)

/-- A command that fails and changes nothing that there is leaves the values as they are. -/
theorem step_of_error {c : Command C} {f : Fault} (h : s.attempt c = .ok (args, out))
    (hf : out.result = .error f) (hdata : ∀ v ∈ s.data, v.writes out.writes = v) :
    (s.step c).2.result = .error f ∧ (s.step c).1.bindings = s.bindings := by
  rw [step_of_attempt h]
  exact ⟨hf, bindings_after_of_error s c hf hdata⟩

/-- Changes of new objects and then of one object write that object wherever it is held. -/
theorem writes_commit (hpool : Coherent next (nodesAll pool)) {new : Object C} {t : Progress C}
    (hnew : new.label? = x.label?) (hext : Progress.Extends [] ⟨[], next⟩ t) {v : Value C}
    (hv : v ∈ pool) :
    v.writes ((t.changes ++ (x.label?.map fun _ => new).toList).map .object) =
      v.map (Object.write new) := by
  rw [List.map_append, Datum.writes_append, writes_eq_self hpool hext hv]
  cases hl : x.label? with
  | none =>
    refine (Datum.map_eq_self fun y _ => Object.write_eq_self fun z _ => ?_).symm
    rintro ⟨l, hl', -⟩
    rw [hnew, hl] at hl'
    cases hl'
  | some l => exact Datum.write_object_eq_map new v

/-- An operation in place does what it computes. -/
theorem IsCoherent.answers_inPlace (hs : s.IsCoherent) (hb : s.bindings.IsExact)
    (hcomputes : op.Computes s.bindings ds) (hreceiver : op.receiver? = some n)
    (hname : op.command.name = none) (hx : s.bindings.get? n = some (.diff x))
    (hattempt : s.attempt op.command = .ok (args, out))
    {r : Except Fault (Diff C)} {m : UpdateM C Unit}
    (hcall : ∀ next, op.command.call args s.schemas next = inPlace m (fun _ => .null) next)
    (hm : ∀ next, Coherent next (nodesAll args) → Object.Renews x.label? r m ⟨[], next⟩)
    (hgives : Diff.Gives ds r) : op.Answers s ds := by
  obtain ⟨next, -, rfl, hpool⟩ := hs.attempt hattempt
  rw [hcall] at hattempt
  rcases hm next hpool.of_append_right with
    ⟨f, t, rfl, hrun, hext⟩ | ⟨z, new, t, rfl, hnew, hext, hrun⟩
  · have hout : (inPlace m (fun _ => .null) next).settle =
        { result := .error f, writes := t.changes.map .object, next := t.next } := by
      simp [inPlace, hrun, Outcome.settle]
    rw [hout] at hattempt
    refine .of_gives hgives (fun g hg => ?_) fun z hz => by cases hz
    cases hg
    exact step_of_error hattempt rfl fun v hv =>
      writes_eq_self hpool hext (List.mem_append_left _ hv)
  · have hout : (inPlace m (fun _ => .null) next).settle =
        { result := .ok .null
          writes := (t.changes ++ (x.label?.map fun _ => new).toList).map .object
          next := t.next } := by
      simp [inPlace, hrun, Outcome.settle, Datum.settle]
    rw [hout] at hattempt
    have hstep := step_of_attempt hattempt
    refine .of_gives hgives (fun g hg => by cases hg) fun z' hz' hrange hlast => ?_
    cases hz'
    have hbound {v : Value C} (hv : v ∈ s.bindings.data) : v ∈ s.data ++ args :=
      List.mem_append_left _ (List.mem_append_left _ hv)
    have hbindings : (s.step op.command).1.bindings =
        s.bindings.map fun b => (b.1, b.2.map (Object.write new)) := by
      rw [hstep]
      simp only [after, hname, bind, keep, change]
      refine List.map_congr_left fun b hb => ?_
      exact congrArg _ (writes_commit hpool hnew.label_eq hext (hbound (List.mem_map_of_mem hb)))
    rw [hbindings]
    obtain ⟨t, -, hz, htype⟩ := hcomputes.exact_result hb hlast hrange
    refine ⟨⟨.null, by rw [hstep]⟩, .update hreceiver hx hcomputes (hnew.value_eq ▸ hlast)
      hnew.label_eq (unused_of_ownLabels hpool hnew.own), hb.write fun y hy hhits u hyu => ?_⟩
    -- what is written is the receiver, and the result is of its type
    have hyx : y = x := by
      obtain ⟨l, hl, hyl⟩ := hhits
      have hmem {z : Object C} (hz : z ∈ nodesAll s.bindings.data) :
          z ∈ nodesAll (s.data ++ args) := Datum.nodesAll_mono (fun _ hv => hbound hv) hz
      exact hpool.eq_of_label (hmem hy) (hmem (Datum.nodes_subset_nodesAll (Bindings.get?_mem hx)
        (Object.mem_nodes_self x))) hyl (hnew.label_eq.symm.trans hl)
    have hu : u = t := by rw [← htype n x hreceiver hx, ← hyx, hyu.typeOf_eq]
    rw [hu, hnew.value_eq]
    exact hz

/-- An operation that makes an object makes the one that it computes. -/
theorem IsCoherent.answers_make (hs : s.IsCoherent) (hb : s.bindings.IsExact)
    (hcomputes : op.Computes s.bindings ds) (hname : op.command.name = some n)
    (hattempt : s.attempt op.command = .ok (args, out))
    (hcall : ∀ next, Coherent next (nodesAll args) →
      (op.command.call args s.schemas next).Makes next ∧ ∃ r : Except Fault (Object C),
        (op.command.call args s.schemas next).result = r.map .diff ∧
        Diff.Gives ds (r.map Object.value)) : op.Answers s ds := by
  obtain ⟨next, -, rfl, hpool⟩ := hs.attempt hattempt
  obtain ⟨hmakes, r, hresult, hgives⟩ := hcall next hpool.of_append_right
  generalize op.command.call args s.schemas next = o at hattempt hmakes hresult
  obtain ⟨t, hext, hwrites, hschema, hown⟩ := hmakes.settle
  have hdata (v : Value C) (hv : v ∈ s.data) : v.writes o.settle.writes = v := by
    rw [hwrites]
    exact writes_eq_self hpool hext (List.mem_append_left _ hv)
  cases r with
  | error f =>
    have hsettled := Outcome.result_settle_of_error hresult
    refine .of_gives hgives (fun g hg => ?_) fun z hz => by cases hz
    cases hg
    exact step_of_error hattempt hsettled hdata
  | ok y =>
    have hsettled : o.settle.result = .ok (.diff y) := Outcome.result_settle_of_ok hresult
    refine .of_gives hgives (fun g hg => by cases hg) fun z hz hrange hlast => ?_
    cases hz
    have hbindings : (s.step op.command).1.bindings = s.bindings.set n (.diff y) := by
      have hkept : (s.bindings.map fun b => (b.1, b.2.writes o.settle.writes)) = s.bindings := by
        refine (List.map_congr_left fun b hb => ?_).trans (List.map_id s.bindings)
        exact congrArg _ (hdata b.2 (List.mem_append_left _ (List.mem_map_of_mem hb)))
      rw [step_of_attempt hattempt]
      simp only [after, hname, hsettled, hschema, bind, keep, change, hkept]
    rw [hbindings]
    obtain ⟨t, ht, hy, -⟩ := hcomputes.exact_result hb hlast hrange
    exact ⟨⟨.diff y, by rw [step_of_attempt hattempt, hsettled]⟩, .make hname hcomputes hlast
      (unused_of_ownLabels hpool (hown y hsettled)), hb.set ht hy⟩

section Operands

variable {c : Command C} {o : PoolOperand} {t : DiffType C} {e : Diff C}

theorem exists_attempt (vs : List (Value C)) (last : Nat)
    (h : Expr.evalAll s.bindings c.operands s.next = .ok (vs, last)) :
    ∃ out, s.attempt c = .ok ((Datum.settleAll vs last).1, out) := by
  rw [attempt, h]
  exact ⟨_, rfl⟩

theorem exists_attempt_receiver (hx : s.bindings.get? n = some (.diff x))
    (hc : c.operands = [.var n]) : ∃ out, s.attempt c = .ok ([.diff x], out) :=
  exists_attempt [.diff x] s.next (by simp [hc, Expr.evalAll, Expr.eval, hx])

theorem exists_attempt_operand (hb : s.bindings.IsExact) (hx : s.bindings.get? n = some (.diff x))
    (ho : o.meaning s.bindings t = some e) (hc : c.operands = [.var n, o.expr]) :
    ∃ w out, s.attempt c = .ok ([.diff x, w], out) ∧ StandFor [t] [w] [e] := by
  obtain ⟨v, hv, hstand⟩ := o.eval_expr hb ho s.next
  have heval : Expr.evalAll s.bindings c.operands s.next = .ok ([.diff x, v], s.next) := by
    simp [hc, Expr.evalAll, Expr.eval, hx, hv]
  obtain ⟨out, hout⟩ := exists_attempt _ _ heval
  exact ⟨(v.settle s.next).1, out, hout, hstand.settleAll s.next⟩

end Operands

private theorem makes_multiply_int (l : Nat) (k : IntKind) (i : Int) (w : Value C) (next : Nat) :
    (multiply (.diff (.int l k i)) w next).Makes next ∧
      (multiply (.diff (.int l k i)) w next).result =
        ((Object.productInt k i w).map (Object.int next k)).map .diff := by
  cases hp : Object.productInt k i w with
  | error f =>
    simp only [multiply, Datum.receiver, Object.multiply_int_of_error hp]
    exact ⟨⟨_, .refl _ _, rfl, rfl, fun _ h => by cases h⟩, rfl⟩
  | ok p =>
    simp only [multiply, Datum.receiver, Object.multiply_int_of_ok hp]
    refine ⟨⟨⟨[], next + 1⟩, .handOut [] (Nat.le_succ next), rfl, rfl, fun x hx => ?_⟩, rfl⟩
    cases hx
    exact (Object.OwnLabels.nil (next + 1)).cons

section Operations

variable {o : PoolOperand} {os : List PoolOperand} {name : String} {t : DiffType C} {e : Diff C}
  {es : List (Diff C)} {k : IntKind} {i j : Int}

private theorem IsCoherent.answers_plusEquals (hs : s.IsCoherent) (hb : s.bindings.IsExact)
    (hx : s.bindings.get? n = some (.diff x)) (ho : o.meaning s.bindings x.typeOf = some e) :
    (PoolOp.plusEquals n o).Answers s (x.value.partialSums [e]) := by
  obtain ⟨ht, hexact⟩ := hb n x hx
  obtain ⟨w, out, hattempt, hstand⟩ := exists_attempt_operand
    (c := (PoolOp.plusEquals n o).command) hb hx ho rfl
  have hrenews (next : Nat) (hargs : Coherent next (nodesAll [.diff x, w])) :
      Object.Renews x.label? (x.value.plus w.values) (x.plusEquals w) ⟨[], next⟩ :=
    x.renews_plusEquals (Progress.valid_start next) (hargs.settled.mono (by simp [nodesAll]))
  refine hs.answers_inPlace hb (.plusEquals hx ho) rfl rfl hx hattempt (fun _ => rfl) hrenews ?_
  exact .of_guarded ((hexact.shaped_of_over ht).guarded_plus ht hstand) rfl
    (by simp [Diff.partialSums])

private theorem IsCoherent.answers_negate (hs : s.IsCoherent) (hb : s.bindings.IsExact)
    (hx : s.bindings.get? n = some (.diff x)) :
    (PoolOp.negate n).Answers s (if x.typeOf.isAbelian then [x.value.invert] else []) := by
  obtain ⟨ht, hexact⟩ := hb n x hx
  have hshape := hexact.shaped_of_over ht
  obtain ⟨out, hattempt⟩ := exists_attempt_receiver (c := (PoolOp.negate n).command) hx rfl
  have hrenews (next : Nat) (_ : Coherent next (nodesAll [.diff x])) :
      Object.Renews x.label? x.value.negate x.negate ⟨[], next⟩ :=
    x.renews_negate (Progress.valid_start next)
  refine hs.answers_inPlace hb (.negate hx) rfl rfl hx hattempt (fun _ => rfl) hrenews ?_
  cases habelian : x.typeOf.isAbelian with
  | true => exact .of_guarded (hshape.guarded_negate ht habelian) rfl (by simp)
  | false => exact hshape.negate_eq_error habelian

private theorem IsCoherent.answers_clone (hs : s.IsCoherent) (hb : s.bindings.IsExact)
    (hx : s.bindings.get? n = some (.diff x)) : (PoolOp.clone n name).Answers s [x.value] := by
  obtain ⟨ht, hexact⟩ := hb n x hx
  have hshape := hexact.shaped_of_over ht
  obtain ⟨out, hattempt⟩ := exists_attempt_receiver (c := (PoolOp.clone n name).command) hx rfl
  refine hs.answers_make hb (.clone hx) rfl hattempt fun next _ => ⟨makes_clone _ next, ?_⟩
  refine ⟨.ok (Object.ofDiff x.value next).1, ?_, ?_⟩
  · change (clone (.diff x) next).result = _
    simp [clone, Datum.receiver, Object.clone, hshape.clone_eq, Outcome.made, Outcome.shown]
  · rw [ok_map, Object.value_ofDiff]
    exact .of_guarded (.pure hshape.inRange _) rfl (by simp)

private theorem IsCoherent.answers_zero (hs : s.IsCoherent) (hb : s.bindings.IsExact)
    (ht : t.Trapping) :
    (PoolOp.zero t name).Answers s (if t.isMonoid then [Diff.allZero t] else []) := by
  obtain ⟨out, hattempt⟩ := exists_attempt (s := s) (c := (PoolOp.zero t name).command)
    [.type (.diff t)] s.next rfl
  refine hs.answers_make hb (.zero ht) rfl hattempt fun next _ => ?_
  change (zero (.type (.diff t)) next).Makes next ∧
    ∃ r : Except Fault (Object C), (zero (.type (.diff t)) next).result = _ ∧ _
  cases hmonoid : t.isMonoid with
  | true =>
    have hcall : zero (.type (.diff t)) next = .built next (.ok (Diff.allZero t)) := by
      simp [zero, classOf, Diff.zero?_eq_ok ht hmonoid]
    rw [hcall]
    refine ⟨Outcome.makes_built next _, .ok (Object.ofDiff (Diff.allZero t) next).1, rfl, ?_⟩
    rw [ok_map, Object.value_ofDiff]
    exact .of_guarded (.pure (Diff.shaped_allZero ht hmonoid).inRange _) rfl (by simp)
  | false =>
    obtain ⟨f, hf, hkind⟩ := Diff.zero?_eq_error ht hmonoid
    have hcall : zero (.type (.diff t)) next = .failed next f := by simp [zero, classOf, hf]
    rw [hcall]
    exact ⟨Outcome.makes_failed next f, .error f, rfl, f, rfl, hkind⟩

private theorem IsCoherent.answers_nothing (hs : s.IsCoherent) (hb : s.bindings.IsExact) :
    (PoolOp.accumulate [] name).Answers s [] := by
  obtain ⟨out, hattempt⟩ := exists_attempt (s := s) (c := (PoolOp.accumulate [] name).command)
    [.list 0 []] s.next rfl
  refine hs.answers_make hb .nothing rfl hattempt fun next _ => ?_
  exact ⟨makes_accumulate .nil, .error .nothingToAccumulate, rfl, _, rfl, by decide⟩

private theorem IsCoherent.answers_accumulate (hs : s.IsCoherent) (hb : s.bindings.IsExact)
    (hx : s.bindings.get? n = some (.diff x))
    (hos : meanings s.bindings os (.replicate os.length x.typeOf) = some es) :
    (PoolOp.accumulate (.value n :: os) name).Answers s (x.value :: x.value.partialSums es) := by
  obtain ⟨ht, hexact⟩ := hb n x hx
  have hshape := hexact.shaped_of_over ht
  obtain ⟨vs, hvs, hstand⟩ := PoolOperand.evalAll_exprs hb os hos s.next
  have heval : Expr.evalAll s.bindings (PoolOp.accumulate (.value n :: os) name).command.operands
      s.next = .ok ([.list 0 (.diff x :: vs)], s.next) := by
    simp [PoolOp.command, exprs, PoolOperand.expr, Expr.evalAll, Expr.eval, hx, hvs]
  obtain ⟨out, hout⟩ := exists_attempt _ _ heval
  replace hstand := hstand.settleAll (s.next + 1)
  generalize hws : (Datum.settleAll vs (s.next + 1)).1 = ws at hstand
  have hattempt : s.attempt (PoolOp.accumulate (.value n :: os) name).command =
      .ok ([.list s.next (.diff x :: ws)], out) := hws ▸ hout
  refine hs.answers_make hb (.accumulate hx hos) rfl hattempt fun next hargs => ?_
  replace hargs : Coherent next (Datum.list s.next (.diff x :: ws)).nodes := by
    simpa using hargs
  obtain ⟨r, hr, hsum⟩ := exists_accumulate (v := .list s.next (.diff x :: ws)) rfl hargs.settled
  refine ⟨makes_accumulate hargs, r, hr, ?_⟩
  have hplus : Diff.accumulate ((.diff x :: ws).map Datum.values) =
      x.value.plusAll (ws.map Datum.values) := by
    change (x.value.clone >>= fun d => d.plusAll (ws.map Datum.values)) = _
    rw [hshape.clone_eq, ok_bind]
  rw [← hsum, hplus]
  refine .of_guarded (hshape.guarded_plusAll ht hstand fun u hu => List.eq_of_mem_replicate hu)
    (Diff.getLast?_partialSums _ _) ?_
  simp [hshape.inRange]

private theorem IsCoherent.answers_multiply (hs : s.IsCoherent) (hb : s.bindings.IsExact)
    (hx : s.bindings.get? n = some (.diff x)) (hi : x.value = .int k i)
    (ho : o.meaning s.bindings (.int k) = some (.int k j)) :
    (PoolOp.multiply n o name).Answers s [.int k j, .int k (i * j)] := by
  obtain ⟨ht, -⟩ := hb n x hx
  obtain ⟨w, out, hattempt, hstand⟩ := exists_attempt_operand
    (c := (PoolOp.multiply n o name).command) hb hx ho rfl
  refine hs.answers_make hb (.multiply hx hi ho) rfl hattempt fun next _ => ?_
  cases x with
  | int l k' i' =>
    cases hi
    cases ht with
    | int kind =>
      obtain ⟨hmakes, hresult⟩ := makes_multiply_int l k i w next
      refine ⟨hmakes, _, hresult, ?_⟩
      refine .of_guarded (((Object.guarded_productInt kind i hstand).map _).map _) rfl ?_
      simp [Diff.inRange_int]
  | _ => cases hi

/-- A step of a session does what an operation computes. -/
theorem IsCoherent.answers (hs : s.IsCoherent) (hb : s.bindings.IsExact)
    (h : op.Computes s.bindings ds) : op.Answers s ds := by
  cases h with
  | plusEquals receiver operand => exact hs.answers_plusEquals hb receiver operand
  | negate receiver => exact hs.answers_negate hb receiver
  | clone receiver => exact hs.answers_clone hb receiver
  | zero trapping => exact hs.answers_zero hb trapping
  | nothing => exact hs.answers_nothing hb
  | accumulate first others => exact hs.answers_accumulate hb first others
  | multiply receiver integer operand => exact hs.answers_multiply hb receiver integer operand

end Operations

/-- A session goes through operations on named values. Those that fail are skipped. -/
inductive PoolRun (s : Session C) : List (PoolOp C) → Session C → Prop where
  | start : PoolRun s [] s
  | carried {ops : List (PoolOp C)} {t : Session C} {op : PoolOp C} {ds : List (Diff C)}
      {v : Value C} (before : PoolRun s ops t) (computes : op.Computes t.bindings ds)
      (ok : (t.step op.command).2.result = .ok v) : PoolRun s (ops ++ [op]) (t.step op.command).1
  | skipped {ops : List (PoolOp C)} {t : Session C} {op : PoolOp C} {ds : List (Diff C)}
      {f : Fault} (before : PoolRun s ops t) (computes : op.Computes t.bindings ds)
      (error : (t.step op.command).2.result = .error f) : PoolRun s ops (t.step op.command).1

/-- A run leads where the operations that succeed lead in the integers. -/
theorem PoolRun.carryAll {t : Session C} {ops : List (PoolOp C)} (h : s.PoolRun ops t)
    (hs : s.Reachable) (hb : s.bindings.IsExact) :
    t.Reachable ∧ t.bindings.IsExact ∧ CarryAll s.bindings ops t.bindings := by
  induction h with
  | start => exact ⟨hs, hb, .start⟩
  | @carried ops t op ds v _ computes ok ih =>
    obtain ⟨ht, htb, hcarried⟩ := ih
    cases ht.isCoherent.answers htb computes with
    | carried _ _ _ carries exact => exact ⟨ht.step _, exact, hcarried.step carries⟩
    | refused error => cases ok.symm.trans error
  | @skipped ops t op ds f _ computes error ih =>
    obtain ⟨ht, htb, hcarried⟩ := ih
    cases ht.isCoherent.answers htb computes with
    | carried ok => cases ok.symm.trans error
    | refused _ same =>
      rw [same]
      exact ⟨ht.step _, htb, hcarried⟩

/-- Trapping arithmetic is exact. A session that commands lead to, whose values are of trapping
types, goes through operations on them, and those that fail are skipped. At every moment its values
are those that the operations which succeeded come to in the integers, without bounds. An operation
overflows just if an integer that it is given or a value that it computes is out of range, and it
succeeds just if it computes something and nothing of that is out of range. -/
theorem PoolRun.exact_or_overflow {t : Session C} {ops : List (PoolOp C)} (h : s.PoolRun ops t)
    (hs : s.Reachable) (hb : s.bindings.IsExact) :
    CarryAll s.bindings ops t.bindings ∧ t.bindings.IsExact ∧
    ∀ (op : PoolOp C) (ds : List (Diff C)), op.Computes t.bindings ds →
      ((∃ f, (t.step op.command).2.result = .error f ∧ f.kind = .overflow) ↔
        ∃ d ∈ ds, ¬ d.InRange) ∧
      ((∃ v, (t.step op.command).2.result = .ok v) ↔ ds ≠ [] ∧ ∀ d ∈ ds, d.InRange) := by
  obtain ⟨ht, htb, hcarried⟩ := h.carryAll hs hb
  refine ⟨hcarried, htb, fun op ds hcomputes => ?_⟩
  cases ht.isCoherent.answers htb hcomputes with
  | carried ok computed inRange => simpa [ok, computed] using inRange
  | @refused f error _ cause =>
    rcases cause with ⟨-, houtside, hkind⟩ | ⟨rfl, hkind⟩
    · have houtside : ∃ d ∈ ds, ¬ d.InRange := by simpa using houtside
      simpa [error, hkind] using And.intro houtside fun _ => houtside
    · simp [error, hkind]

/-- A byte grows by 100, in the pair that holds it twice as well. Then the pair is not added to
itself. -/
theorem exact_or_overflow_sharedPair :
    let grow : PoolOp specimens := .plusEquals "byte" (.int 100)
    let double : PoolOp specimens := .plusEquals "pair" (.value "pair")
    ∃ t, (sharedPair 60).PoolRun [grow] t ∧ CarryAll (sharedPair 60).bindings [grow] t.bindings ∧
      ∃ f, (t.step double.command).2.result = .error f ∧ f.kind = .overflow := by
  let k : IntKind := ⟨.unsigned, .w8⟩
  let byte (n : Int) : Object specimens := .int 1 k n
  let pair (n : Int) : Object specimens := .tuple 2 (some [.int k, .int k]) [byte n, byte n]
  have htrapping : (DiffType.int k : DiffType specimens).Trapping := .int (by decide)
  have hbyte : Diff.Exact (.int k) (byte 60).value := .int (by decide)
  have hb : (sharedPair 60).bindings.IsExact := by
    intro n x hx
    rw [show (sharedPair 60).bindings = [("byte", .diff (byte 60)), ("pair", .diff (pair 60))] from rfl,
      Bindings.get?_cons, Bindings.get?_cons] at hx
    split at hx
    · cases hx
      exact ⟨htrapping, hbyte⟩
    · split at hx
      · cases hx
        exact ⟨.tuple (by simpa using htrapping), .pair hbyte hbyte⟩
      · cases hx
  intro grow double
  have hstart : (sharedPair 60).PoolRun [] (sharedPair 60) := .start
  have hrun : (sharedPair 60).PoolRun [grow] ((sharedPair 60).step grow.command).1 :=
    hstart.carried (.plusEquals (x := byte 60) rfl rfl) rfl
  obtain ⟨hcarried, -, hops⟩ := hrun.exact_or_overflow (reachable_sharedPair 60) hb
  refine ⟨_, hrun, hcarried, (hops double _ (.plusEquals (x := pair 160) rfl rfl)).1.mpr ?_⟩
  refine ⟨(pair 320).value, by decide, fun hrange => ?_⟩
  exact absurd (hrange [0] k 320 rfl) (by decide)

end Session

end DiffAlgebra
