import DiffAlgebra.Proofs.Sharing.Reachable
import DiffAlgebra.Specimens

/-!
# Addition and negation in place

An operation in place either fails and leaves all objects as they are, or changes the content of its
receiver and of nothing else, however the objects share their components. What the receiver held
before is let go unchanged: its new components are new objects.
-/

namespace DiffAlgebra

variable {C : Catalog}

open Datum (nodesAll mem_nodesAll)

def Object.writes (ws : List (Write C)) (x : Object C) : Object C :=
  ws.foldl (fun x w => w.onObject x) x

/-- Changes in place give one object other contents and leave all else of some data as it is. -/
structure ChangesOnly (vs : List (Value C)) (x : Object C) (ws : List (Write C)) : Prop where
  /-- Every other object keeps its content. -/
  content_eq : ∀ y ∈ nodesAll vs, y ≠ x → (y.writes ws).content = y.content
  /-- An object that does not reach the changed one keeps all that it reaches. -/
  object_eq : ∀ y ∈ nodesAll vs, x ∉ y.nodes → y.writes ws = y
  /-- Nothing but objects changes in data. -/
  datum_eq_map : ∀ v ∈ vs, v.writes ws = v.map (Object.writes ws)
  /-- A datum that does not reach the changed object stays as it is. -/
  datum_eq : ∀ v ∈ vs, x ∉ v.nodes → v.writes ws = v
  /-- The former components of the changed object stay as they are. -/
  part_eq : ∀ p ∈ x.parts, p.writes ws = p
  /-- The changed object remains the same object. -/
  label_eq : (x.writes ws).label? = x.label?

theorem Object.writes_object (cs : List (Object C)) (x : Object C) :
    x.writes (cs.map .object) = x.after cs :=
  List.foldl_map

/-- The operations that change their receiver in place. -/
def Operation.InPlace (op : Operation) : Prop := op = .plusEquals ∨ op = .negate

/-- What an operation in place comes to: it fails and has changed new objects only, or it changes
new objects and then the object it is called on. -/
def Outcome.Renews (args : List (Value C)) (next : Nat) (o : Outcome C) : Prop :=
  ∃ t : Progress C, Progress.Extends [] ⟨[], next⟩ t ∧ o.next = t.next ∧ o.schema = none ∧
    ((∃ f, o.result = .error f ∧ o.writes = t.changes.map .object) ∨
    ∃ x rest z new, args = .diff x :: rest ∧ Object.Renewed x.label? next t.next z new ∧
      o.result = .ok .null ∧
      o.writes = (t.changes ++ (x.label?.map fun _ => new).toList).map .object)

theorem Operation.InPlace.ne_same {op : Operation} (hop : op.InPlace) : op ≠ .same := by
  rcases hop with rfl | rfl <;> decide

theorem Operation.InPlace.renews {op : Operation} (hop : op.InPlace) {args : List (Value C)}
    {next : Nat} (hargs : Coherent next (nodesAll args)) (known : Schemas C) :
    (op.call args known next).Renews args next := by
  have hfailed {o : Outcome C} (h : ∃ f, o = .failed next f) : o.Renews args next := by
    obtain ⟨f, rfl⟩ := h
    exact ⟨_, .refl _ _, rfl, rfl, Or.inl ⟨f, rfl, rfl⟩⟩
  have hrenews {x : Object C} {rest : List (Value C)} {r : Except Fault (Diff C)}
      {m : UpdateM C Unit} (hargs : args = .diff x :: rest)
      (hm : Object.Renews x.label? r m ⟨[], next⟩) :
      (Session.inPlace m (fun _ => .null) next).Renews args next := by
    rcases hm with ⟨f, t, -, hrun, hext⟩ | ⟨z, new, t, -, hnew, hext, hrun⟩
    · refine ⟨t, hext, ?_, ?_, Or.inl ⟨f, ?_, ?_⟩⟩
      all_goals simp [Session.inPlace, hrun]
    · refine ⟨t, hext, ?_, ?_, Or.inr ⟨x, rest, z, new, hargs, hnew, ?_, ?_⟩⟩
      all_goals simp [Session.inPlace, hrun]
  have hstart := Progress.valid_start (C := C) next
  rcases hop with rfl | rfl
  · rcases args with _ | ⟨v, _ | ⟨y, _ | ⟨z, rest⟩⟩⟩
    case cons.cons.nil =>
      change (Session.plusEquals v y next).Renews [v, y] next
      unfold Session.plusEquals
      split
      next f _ => exact hfailed ⟨f, rfl⟩
      next x hx =>
        refine hrenews (by rw [Datum.eq_diff_of_receiver hx])
          (x.renews_plusEquals hstart (hargs.settled.mono ?_))
        simp [nodesAll]
    all_goals exact hfailed ⟨.badArguments, rfl⟩
  · rcases args with _ | ⟨v, _ | ⟨z, rest⟩⟩
    case cons.nil =>
      change (Session.negate v next).Renews [v] next
      unfold Session.negate
      split
      next f _ => exact hfailed ⟨f, rfl⟩
      next x hx =>
        exact hrenews (by rw [Datum.eq_diff_of_receiver hx]) (x.renews_negate hstart)
    all_goals exact hfailed ⟨.badArguments, rfl⟩

/-- In coherent data, changes of new objects and then of one object confine themselves to it. -/
theorem Coherent.changesOnly {next : Nat} {vs : List (Value C)} {x new : Object C}
    {t : Progress C} (h : Coherent next (nodesAll vs)) (hx : x ∈ nodesAll vs)
    (hnew : new.label? = x.label?) (hext : Progress.Extends [] ⟨[], next⟩ t) :
    ChangesOnly vs x ((t.changes ++ (x.label?.map fun _ => new).toList).map .object) := by
  have hsettled := h.settled.extends hext (Progress.apart_nil _)
  have hnodes {v : Value C} (hv : v ∈ vs) {y : Object C} (hy : y ∈ v.nodes) : y ∈ nodesAll vs :=
    mem_nodesAll.mpr ⟨v, hv, hy⟩
  have hbelow {y z : Object C} (hy : y ∈ nodesAll vs) (hz : z ∈ y.nodes) : z ∈ nodesAll vs :=
    Datum.nodes_subset_of_mem_nodesAll hy hz
  have hwrite (y : Object C) (hy : y ∈ nodesAll vs) :
      y.after (t.changes ++ (x.label?.map fun _ => new).toList) = Object.write new y := by
    rw [Object.after_append, (hsettled.mono fun _ hz => hbelow hy hz).after_eq]
    cases hl : x.label? with
    | none =>
      refine (Object.write_eq_self fun z _ => ?_).symm
      rintro ⟨l, hl', -⟩
      rw [hnew, hl] at hl'
      cases hl'
    | some l => rfl
  have hhits {y : Object C} (hy : y ∈ nodesAll vs) (hyx : y ≠ x) : ¬ Object.Hits new y := by
    rintro ⟨l, hl, hyl⟩
    exact hyx (h.eq_of_label hy hx hyl (hnew.symm.trans hl))
  have hobject (y : Object C) (hy : y ∈ nodesAll vs) (hyx : x ∉ y.nodes) :
      Object.write new y = y := by
    refine Object.write_eq_self fun z hz => hhits (hbelow hy hz) ?_
    rintro rfl
    exact hyx hz
  constructor
  case content_eq =>
    intro y hy hyx
    rw [Object.writes_object, hwrite y hy]
    exact Object.content_write (hhits hy hyx)
  case object_eq =>
    intro y hy hyx
    rw [Object.writes_object, hwrite y hy]
    exact hobject y hy hyx
  case datum_eq_map =>
    intro v _
    rw [Datum.writes_object]
    exact congrArg (Datum.map · v) (funext fun y => (Object.writes_object _ y).symm)
  case datum_eq =>
    intro v hv hxv
    rw [Datum.writes_object]
    refine Datum.map_eq_self fun y hy => ?_
    rw [hwrite y (hnodes hv hy)]
    exact hobject y (hnodes hv hy) fun hxy => hxv (Datum.mem_nodes_trans hy hxy)
  case part_eq =>
    intro p hp
    have hpv := hbelow hx (Object.mem_nodes_of_mem_parts hp (Object.mem_nodes_self p))
    rw [Object.writes_object, hwrite p hpv]
    exact hobject p hpv (Object.not_mem_nodes_of_mem_parts hp)
  case label_eq =>
    rw [Object.writes_object]
    exact Object.label?_after _ x

namespace Outcome

theorem writes_settle (o : Outcome C) : o.settle.writes = o.writes := by
  unfold settle
  split <;> rfl

theorem log_settle (o : Outcome C) : o.settle.log = o.log := by
  unfold settle
  split <;> rfl

theorem result_settle_of_error {o : Outcome C} {f : Fault} (h : o.result = .error f) :
    o.settle.result = .error f := by
  unfold settle
  split
  · simp_all
  · exact h

theorem result_settle_of_ok {o : Outcome C} {v : Value C} (h : o.result = .ok v) :
    o.settle.result = .ok (v.settle o.next).1 := by
  unfold settle
  split <;> simp_all

end Outcome

namespace Session

theorem bindings_after_of_error (s : Session C) (c : Command C) {out : Outcome C} {f : Fault}
    (hf : out.result = .error f) (hdata : ∀ v ∈ s.data, v.writes out.writes = v) :
    (s.after c out).bindings = s.bindings := by
  have hkeep (t : Session C) (given : Option (DiffType C × Value C)) :
      (t.keep given).bindings = t.bindings := by
    unfold keep
    split
    · split <;> rfl
    · rfl
  have hbind (t : Session C) : t.bind c.name (.error f) = t := by
    cases hname : c.name <;> rfl
  rw [after, hf, hbind, hkeep]
  refine (List.map_congr_left fun b hb => ?_).trans (List.map_id s.bindings)
  obtain ⟨n, v⟩ := b
  have hv : v ∈ s.data := List.mem_append_left _ (List.mem_map.mpr ⟨_, hb, rfl⟩)
  simp [hdata v hv]

/-- In a session that commands lead to, addition and negation in place are all or nothing: a failure
leaves everything as it is, and a success changes the content of the receiver only. That goes for
all data of the session and for the operands, whatever they share. -/
theorem Reachable.allOrNothing {s : Session C} (hs : s.Reachable) {c : Command C}
    (hc : c.operation.InPlace) {args : List (Value C)} {out : Outcome C}
    (hout : s.attempt c = .ok (args, out)) :
    (∀ f, out.result = .error f →
      (∀ v ∈ s.data ++ args, v.writes out.writes = v) ∧ (s.step c).1.bindings = s.bindings) ∧
    (∀ r, out.result = .ok r →
      ∃ x rest, args = .diff x :: rest ∧ ChangesOnly (s.data ++ args) x out.writes) := by
  obtain ⟨next, _, rfl, hpool⟩ := hs.isCoherent.attempt hout
  rw [Command.call_of_ne_same rfl hc.ne_same] at hout ⊢
  rw [Outcome.writes_settle]
  have hargs : Coherent next (nodesAll args) :=
    hpool.mono (Datum.nodesAll_mono (List.subset_append_right _ _)) (Nat.le_refl _)
  obtain ⟨t, hext, -, -, ⟨f, hf, hwrites⟩ | ⟨x, rest, z, new, rfl, hnew, hr, hwrites⟩⟩ :=
    hc.renews hargs s.schemas
  · have hf := Outcome.result_settle_of_error hf
    have hdata (v : Value C) (hv : v ∈ s.data ++ args) :
        v.writes (c.operation.call args s.schemas next).writes = v := by
      rw [hwrites]
      exact writes_eq_self hpool hext hv
    rw [hf]
    refine ⟨fun g _ => ⟨hdata, ?_⟩, fun r hr => nomatch hr⟩
    rw [step_eq, hout]
    refine bindings_after_of_error s c hf fun v hv => ?_
    rw [Outcome.writes_settle]
    exact hdata v (List.mem_append_left _ hv)
  · have hr := Outcome.result_settle_of_ok hr
    rw [hwrites, hr]
    refine ⟨fun f hf => (nomatch hf), fun r _ =>
      ⟨x, rest, rfl, hpool.changesOnly ?_ hnew.label_eq hext⟩⟩
    exact mem_nodesAll.mpr ⟨.diff x, by simp, Object.mem_nodes_self x⟩

def sharedPair (n : Int) : Session specimens :=
  let byte : Expr specimens := .type (.diff (.int ⟨.unsigned, .w8⟩))
  let s := (empty.step ⟨.evaluate, [.new byte [.int n]], some "byte"⟩).1
  (s.step ⟨.evaluate, [.new (.tupleType [byte, byte]) [.var "byte", .var "byte"]], some "pair"⟩).1

theorem reachable_sharedPair (n : Int) : (sharedPair n).Reachable :=
  .step (.step .empty _) _

/-- A pair is added to itself, and its components are one object: only the pair changes. -/
theorem changesOnly_sharedPair :
    ∃ args out,
      (sharedPair 100).attempt ⟨.plusEquals, [.var "pair", .var "pair"], none⟩ = .ok (args, out) ∧
      out.result = .ok .null ∧
      ∃ x rest, args = .diff x :: rest ∧
        ChangesOnly ((sharedPair 100).data ++ args) x out.writes := by
  let c : Command specimens := ⟨.plusEquals, [.var "pair", .var "pair"], none⟩
  refine ⟨_, _, rfl, rfl, ?_⟩
  exact ((reachable_sharedPair 100).allOrNothing (c := c) (Or.inl rfl) rfl).2 .null rfl

end Session

end DiffAlgebra
