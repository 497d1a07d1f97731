import DiffAlgebra.Proofs.Addition.Exactness
import DiffAlgebra.Proofs.Sharing.Expressions

/-!
# Operations on named values

Values of trapping types have names. Operations on them change one of them in place or make a new
one, with values and raw data of the same shape as operands. What an operation computes is told in
the integers, without any bounds, and so is what it makes of the values.
-/

namespace DiffAlgebra

variable {C : Catalog}

open Datum (nodesAll mem_nodesAll)

inductive PoolOperand where
  | value (name : String)
  | int (n : Int)
  | list (items : List PoolOperand)

namespace PoolOperand

mutual

def expr : PoolOperand → Expr C
  | value n => .var n
  | int n => .int n
  | list os => .list (exprs os)

def exprs : List PoolOperand → List (Expr C)
  | [] => []
  | o :: os => expr o :: exprs os

end

mutual

/-- The value of a type that an operand stands for, in range or not. -/
def meaning (b : Bindings C) : PoolOperand → DiffType C → Option (Diff C)
  | value n => fun t =>
    match b.get? n with
    | some (.diff x) => if x.typeOf = t then some x.value else none
    | _ => none
  | int n => fun t =>
    match t with
    | .int k => some (.int k n)
    | _ => none
  | list os => fun t =>
    match t with
    | .tuple ts => (meanings b os ts).map (.tuple (some ts))
    | .vec t => (meanings b os (.replicate os.length t)).map (.vec (some t))
    | _ => none

def meanings (b : Bindings C) : List PoolOperand → List (DiffType C) → Option (List (Diff C))
  | [] => fun ts => if ts.isEmpty then some [] else none
  | o :: os => fun ts =>
    match ts with
    | [] => none
    | t :: ts => do
      let d ← meaning b o t
      let ds ← meanings b os ts
      some (d :: ds)

end

end PoolOperand

open PoolOperand (exprs meanings)

/-- Operations on named values. Those that make a value name it. -/
inductive PoolOp (C : Catalog) where
  | plusEquals (receiver : String) (operand : PoolOperand)
  | negate (receiver : String)
  | clone (receiver name : String)
  | zero (type : DiffType C) (name : String)
  | accumulate (items : List PoolOperand) (name : String)
  | multiply (receiver : String) (operand : PoolOperand) (name : String)

namespace PoolOp

def command : PoolOp C → Command C
  | plusEquals n o => ⟨.plusEquals, [.var n, o.expr], none⟩
  | negate n => ⟨.negate, [.var n], none⟩
  | clone n name => ⟨.clone, [.var n], some name⟩
  | zero t name => ⟨.zero, [.type (.diff t)], some name⟩
  | accumulate os name => ⟨.accumulate, [.list (exprs os)], some name⟩
  | multiply n o name => ⟨.multiply, [.var n, o.expr], some name⟩

def receiver? : PoolOp C → Option String
  | plusEquals n _ | negate n => some n
  | _ => none

/-- What an operation computes in the integers, without bounds: the operands that it converts, and
one value after the other from them. The last one is its result. There are none if the operation is
not there for the type, or has no items to add up. -/
inductive Computes (b : Bindings C) : PoolOp C → List (Diff C) → Prop where
  | plusEquals {n : String} {o : PoolOperand} {x : Object C} {e : Diff C}
      (receiver : b.get? n = some (.diff x)) (operand : o.meaning b x.typeOf = some e) :
      Computes b (.plusEquals n o) (x.value.partialSums [e])
  | negate {n : String} {x : Object C} (receiver : b.get? n = some (.diff x)) :
      Computes b (.negate n) (if x.typeOf.isAbelian then [x.value.invert] else [])
  | clone {n name : String} {x : Object C} (receiver : b.get? n = some (.diff x)) :
      Computes b (.clone n name) [x.value]
  | zero {t : DiffType C} {name : String} (trapping : t.Trapping) :
      Computes b (.zero t name) (if t.isMonoid then [Diff.allZero t] else [])
  | nothing {name : String} : Computes b (.accumulate [] name) []
  | accumulate {n name : String} {os : List PoolOperand} {x : Object C} {es : List (Diff C)}
      (first : b.get? n = some (.diff x))
      (others : meanings b os (.replicate os.length x.typeOf) = some es) :
      Computes b (.accumulate (.value n :: os) name) (x.value :: x.value.partialSums es)
  | multiply {n name : String} {o : PoolOperand} {x : Object C} {k : IntKind} {i j : Int}
      (receiver : b.get? n = some (.diff x)) (integer : x.value = .int k i)
      (operand : o.meaning b (.int k) = some (.int k j)) :
      Computes b (.multiply n o name) [.int k j, .int k (i * j)]

end PoolOp

namespace Bindings

def IsExact (b : Bindings C) : Prop :=
  ∀ n x, b.get? n = some (.diff x) → x.typeOf.Trapping ∧ Diff.Exact x.typeOf x.value

/-- The labels are all different, and none of them is in use. -/
structure Unused (b : Bindings C) (ls : List Nat) : Prop where
  distinct : ls.Nodup
  fresh : ∀ y ∈ nodesAll b.data, ∀ l ∈ ls, y.label? ≠ some l

end Bindings

/-- Writing an object keeps the types of what reaches it, if it keeps the object's own. -/
theorem Object.exact_write {new y : Object C} {t : DiffType C} (hy : Diff.Exact t y.value)
    (hnew : ∀ z ∈ y.nodes, Hits new z → ∀ u : DiffType C, Diff.Exact u z.value →
      Diff.Exact u new.value) : Diff.Exact t (write new y).value := by
  induction y using parts_induction generalizing t with
  | step y ih =>
    by_cases hhits : Hits new y
    · obtain ⟨l, hn, hl⟩ := hhits
      rw [write_of_label hn hl]
      exact hnew y (mem_nodes_self y) ⟨l, hn, hl⟩ t hy
    · have hpart (p : Object C) (hp : p ∈ y.parts) {u : DiffType C} (h : Diff.Exact u p.value) :
          Diff.Exact u (write new p).value :=
        ih p hp h fun z hz => hnew z (mem_nodes_of_mem_parts hp hz)
      have hne {l : Nat} (hl : y.label? = some l) : ¬ new.label? = some l :=
        fun hn => hhits ⟨l, hn, hl⟩
      cases y with
      | present => exact hy
      | int l | custom l => simpa [write, hne rfl] using hy
      | tuple l ts xs =>
        cases hy with
        | tuple length_eq components =>
          simp only [write, hne rfl, if_false, writeAll_eq_map, value, valueAll_eq_map, List.map_map]
          rw [valueAll_eq_map] at length_eq components
          refine .tuple (by simpa using length_eq) fun p hp => ?_
          rw [List.zip_map_right] at hp components
          obtain ⟨q, hq, rfl⟩ := List.mem_map.mp hp
          exact hpart q.2 (List.of_mem_zip hq).2 (components _ (List.mem_map_of_mem hq))
      | vec l t xs =>
        cases hy with
        | vec elements =>
          simp only [write, hne rfl, if_false, writeAll_eq_map, value, valueAll_eq_map, List.map_map]
          rw [valueAll_eq_map, List.forall_mem_map] at elements
          refine .vec (List.forall_mem_map.mpr fun p hp => hpart p hp (elements p hp))

namespace Bindings.IsExact

variable {b : Bindings C}

theorem write (hb : b.IsExact) {new : Object C}
    (hnew : ∀ y ∈ nodesAll b.data, Object.Hits new y → ∀ t : DiffType C, Diff.Exact t y.value →
      Diff.Exact t new.value) : IsExact (b.map fun (m, v) => (m, v.map (Object.write new))) := by
  intro n y hy
  rw [get?_map] at hy
  obtain ⟨v, hv, hvy⟩ := Option.map_eq_some_iff.mp hy
  cases v with
  | diff x =>
    cases hvy
    obtain ⟨ht, hexact⟩ := hb n x hv
    have hwritten : Diff.Exact x.typeOf (Object.write new x).value :=
      Object.exact_write hexact fun y hy =>
        hnew y (Datum.nodes_subset_nodesAll (v := .diff x) (get?_mem hv) hy)
    have htype : (Object.write new x).typeOf = x.typeOf := hwritten.typeOf_eq
    rw [htype]
    exact ⟨ht, hwritten⟩
  | _ => cases hvy

theorem set (hb : b.IsExact) {n : String} {y : Object C} {t : DiffType C} (ht : t.Trapping)
    (hy : Diff.Exact t y.value) : IsExact (b.set n (.diff y)) := by
  intro m x hx
  rw [get?_set] at hx
  split at hx
  · cases hx
    have htype : y.typeOf = t := hy.typeOf_eq
    rw [htype]
    exact ⟨ht, hy⟩
  · exact hb m x hx

end Bindings.IsExact

/-- An operation in the integers, without bounds. It gives the receiver the value that it computes
last, wherever the receiver is held, or makes a new value of it. -/
inductive PoolOp.Carries (op : PoolOp C) (b : Bindings C) : Bindings C → Prop where
  | update {n : String} {x new : Object C} {ds : List (Diff C)} (receiver : op.receiver? = some n)
      (object : b.get? n = some (.diff x)) (computes : op.Computes b ds)
      (value : ds.getLast? = some new.value) (label : new.label? = x.label?)
      (parts : b.Unused (Object.labelsAll new.parts)) :
      Carries op b (b.map fun (m, v) => (m, v.map (Object.write new)))
  | make {n : String} {y : Object C} {ds : List (Diff C)} (name : op.command.name = some n)
      (computes : op.Computes b ds) (value : ds.getLast? = some y.value)
      (object : b.Unused y.labels) : Carries op b (b.set n (.diff y))

inductive CarryAll (b : Bindings C) : List (PoolOp C) → Bindings C → Prop where
  | start : CarryAll b [] b
  | step {ops : List (PoolOp C)} {op : PoolOp C} {b' b'' : Bindings C} (before : CarryAll b ops b')
      (carries : op.Carries b' b'') : CarryAll b (ops ++ [op]) b''

/-- What computing values in turn may give: the last one if all are in range, and an overflow
otherwise. If there are none it fails. -/
def Diff.Gives (ds : List (Diff C)) (r : Except Fault (Diff C)) : Prop :=
  match ds.getLast? with
  | some z => Guarded (∀ d ∈ ds, d.InRange) r z
  | none => ∃ f, r = .error f ∧ f.kind ≠ .overflow

theorem Diff.Gives.of_guarded {p : Prop} {ds : List (Diff C)} {r : Except Fault (Diff C)} {z : Diff C}
    (h : Guarded p r z) (hlast : ds.getLast? = some z) (hp : p ↔ ∀ d ∈ ds, d.InRange) :
    Gives ds r := by
  rw [Gives, hlast]
  exact h.congr hp

namespace PoolOperand

variable {b : Bindings C}

mutual

/-- An operand is evaluated to a datum that stands for what it means. -/
theorem eval_expr (hb : b.IsExact) : (o : PoolOperand) → {t : DiffType C} → {d : Diff C} →
    o.meaning b t = some d → (next : Nat) →
    ∃ v, o.expr.eval b next = .ok (v, next) ∧ StandFor [t] [v] [d]
  | value n, t, d, h, next => by
    simp only [meaning] at h
    split at h
    next x hx =>
      obtain ⟨rfl, hvalue⟩ := Option.ite_none_right_eq_some.mp h
      cases Option.some.inj hvalue
      exact ⟨.diff x, by simp [expr, Expr.eval, hx], .diff (hb n x hx).2 .nil⟩
    · cases h
  | int n, t, d, h, next => by
    simp only [meaning] at h
    split at h
    · cases h
      exact ⟨.int n, rfl, .int .nil⟩
    · cases h
  | list os, t, d, h, next => by
    simp only [meaning] at h
    split at h
    · obtain ⟨ds, hds, rfl⟩ := Option.map_eq_some_iff.mp h
      obtain ⟨vs, hvs, hstand⟩ := evalAll_exprs hb os hds next
      exact ⟨.list 0 vs, by simp [expr, Expr.eval, hvs], .tuple hstand .nil⟩
    · obtain ⟨ds, hds, rfl⟩ := Option.map_eq_some_iff.mp h
      obtain ⟨vs, hvs, hstand⟩ := evalAll_exprs hb os hds next
      have htypes {t : DiffType C} : ∀ u ∈ List.replicate os.length t, u = t :=
        fun u hu => List.eq_of_mem_replicate hu
      exact ⟨.list 0 vs, by simp [expr, Expr.eval, hvs], .vec htypes hstand .nil⟩
    · cases h

theorem evalAll_exprs (hb : b.IsExact) : (os : List PoolOperand) → {ts : List (DiffType C)} →
    {ds : List (Diff C)} → meanings b os ts = some ds → (next : Nat) →
    ∃ vs, Expr.evalAll b (exprs os) next = .ok (vs, next) ∧ StandFor ts vs ds
  | [], [], ds, h, next => by
    cases h
    exact ⟨[], rfl, .nil⟩
  | o :: os, t :: ts, ds, h, next => by
    obtain ⟨d, hd, h⟩ := Option.bind_eq_some_iff.mp h
    obtain ⟨es, hes, h⟩ := Option.bind_eq_some_iff.mp h
    cases h
    obtain ⟨v, hv, hone⟩ := eval_expr hb o hd next
    obtain ⟨vs, hvs, hall⟩ := evalAll_exprs hb os hes next
    exact ⟨v :: vs, by simp [exprs, Expr.evalAll, hv, hvs], hone.cons hall⟩

end

end PoolOperand

open Diff (Shaped)

theorem Diff.shaped_partialSums {t : DiffType C} {x : Diff C} {es : List (Diff C)}
    (hx : Shaped (fun _ _ => True) t x) (hes : ∀ e ∈ es, Shaped (fun _ _ => True) t e) :
    ∀ d ∈ x.partialSums es, Shaped (fun _ _ => True) t d := by
  induction es generalizing x with
  | nil => simp [partialSums]
  | cons e es ih =>
    obtain ⟨he, hes⟩ := List.forall_mem_cons.mp hes
    have hsum : Shaped (fun _ _ => True) t (merge x e) :=
      hx.merged he (fun _ _ h => h) (fun _ _ h => h) fun _ _ _ _ _ => trivial
    rw [partialSums, List.forall_mem_cons, List.forall_mem_cons]
    exact ⟨he, hsum, ih hsum hes⟩

private theorem PoolOperand.shaped_meaning {b : Bindings C} (hb : b.IsExact) {o : PoolOperand}
    {t : DiffType C} (ht : t.Trapping) {e : Diff C} (h : o.meaning b t = some e) :
    Shaped (fun _ _ => True) t e := by
  obtain ⟨v, -, hstand⟩ := o.eval_expr hb h 0
  exact hstand.shaped_one ht

private theorem PoolOperand.shaped_meanings {b : Bindings C} (hb : b.IsExact)
    {os : List PoolOperand}
    {t : DiffType C} (ht : t.Trapping) {n : Nat} {es : List (Diff C)}
    (h : meanings b os (.replicate n t) = some es) : ∀ e ∈ es, Shaped (fun _ _ => True) t e := by
  obtain ⟨vs, -, hstand⟩ := evalAll_exprs hb os h 0
  exact forall_mem_of_forall₂_replicate
    (hstand.shaped fun u hu => List.eq_of_mem_replicate hu ▸ ht)

namespace PoolOp

variable {b : Bindings C} {op : PoolOp C} {ds : List (Diff C)} {z : Diff C}

/-- All that is computed has the shape of one type, which is the one of the value that is changed.
-/
theorem Computes.shaped (hb : b.IsExact) (h : op.Computes b ds) :
    ∃ t : DiffType C, t.Trapping ∧ (∀ d ∈ ds, Shaped (fun _ _ => True) t d) ∧
      ∀ n x, op.receiver? = some n → b.get? n = some (.diff x) → x.value.typeOf = t := by
  have hbound {n : String} {x : Object C} (hx : b.get? n = some (.diff x)) :
      x.typeOf.Trapping ∧ Shaped (fun _ _ => True) x.typeOf x.value := by
    obtain ⟨ht, hexact⟩ := hb n x hx
    exact ⟨ht, (hexact.shaped ht).mono fun _ _ _ => trivial⟩
  have hreceiver {n : String} {x : Object C} (hx : b.get? n = some (.diff x)) (m : String)
      (y : Object C) (hm : some n = some m) (hy : b.get? m = some (.diff y)) :
      y.value.typeOf = x.typeOf := by
    cases hm
    cases hx.symm.trans hy
    rfl
  cases h with
  | plusEquals receiver operand =>
    obtain ⟨ht, hx⟩ := hbound receiver
    refine ⟨_, ht, Diff.shaped_partialSums hx ?_, hreceiver receiver⟩
    simpa using PoolOperand.shaped_meaning hb ht operand
  | @negate n x receiver =>
    obtain ⟨ht, hx⟩ := hbound receiver
    refine ⟨_, ht, fun d hd => ?_, hreceiver receiver⟩
    cases habelian : x.typeOf.isAbelian with
    | true =>
      rw [habelian, if_pos rfl, List.mem_singleton] at hd
      exact hd ▸ hx.invert fun _ _ _ => trivial
    | false => simp [habelian] at hd
  | clone receiver =>
    obtain ⟨ht, hx⟩ := hbound receiver
    exact ⟨_, ht, by simpa using hx, fun _ _ h => nomatch h⟩
  | @zero t _ trapping =>
    refine ⟨t, trapping, fun d hd => ?_, fun _ _ h => nomatch h⟩
    cases hmonoid : t.isMonoid with
    | true =>
      rw [hmonoid, if_pos rfl, List.mem_singleton] at hd
      exact hd ▸ (Diff.shaped_allZero trapping hmonoid).mono fun _ _ _ => trivial
    | false => simp [hmonoid] at hd
  | nothing => exact ⟨.present, .present, by simp, fun _ _ h => nomatch h⟩
  | accumulate first others =>
    obtain ⟨ht, hx⟩ := hbound first
    refine ⟨_, ht, List.forall_mem_cons.mpr ⟨hx, ?_⟩, fun _ _ h => nomatch h⟩
    exact Diff.shaped_partialSums hx (PoolOperand.shaped_meanings hb ht others)
  | @multiply n _ o x k i j receiver integer operand =>
    obtain ⟨ht, -⟩ := hbound receiver
    have htype : x.typeOf = .int k := congrArg Diff.typeOf integer
    rw [htype] at ht
    refine ⟨_, ht, ?_, fun _ _ h => nomatch h⟩
    simpa using And.intro (Shaped.int trivial) (Shaped.int trivial)

theorem Computes.exact_result (hb : b.IsExact) (h : op.Computes b ds) (hlast : ds.getLast? = some z)
    (hrange : ∀ d ∈ ds, d.InRange) : ∃ t : DiffType C, t.Trapping ∧ Diff.Exact t z ∧
      ∀ n x, op.receiver? = some n → b.get? n = some (.diff x) → x.value.typeOf = t := by
  obtain ⟨t, ht, hshape, htype⟩ := h.shaped hb
  have hz := List.mem_of_getLast? hlast
  exact ⟨t, ht, ((hshape z hz).holds_iff_inRange.mpr (hrange z hz)).exact, htype⟩

end PoolOp

end DiffAlgebra
