import DiffAlgebra.Proofs.Sharing.Changes
import DiffAlgebra.Session.Arithmetic

/-!
# Outcomes keep a pool coherent

An operation is carried out on data of a coherent pool. Its outcome is sound if the changes it makes
keep the pool coherent and what it hands out joins the pool.
-/

namespace DiffAlgebra

variable {C : Catalog}

open Datum (nodesAll mem_nodesAll)

theorem Datum.eq_diff_of_receiver {δ : Type} {declares : Class C → Bool} {v : Datum C δ} {x : δ}
    (h : v.receiver declares = .ok x) : v = .diff x := by
  cases v with
  | diff y =>
    cases h
    rfl
  | _ => cases h

def Returns (p : Value C → Prop) (r : Except Fault (Value C)) : Prop := ∀ v, r = .ok v → p v

namespace Returns

variable {p q : Value C → Prop} {α : Type}

theorem ok {v : Value C} (h : p v) : Returns p (.ok v) := by
  intro u hu
  cases hu
  exact h

theorem error (f : Fault) : Returns p (.error f) := by
  intro u hu
  cases hu

theorem bind {f : α → Except Fault (Value C)} (hf : ∀ a, Returns p (f a)) (r : Except Fault α) :
    Returns p (r >>= f) := by
  intro v hv
  obtain ⟨a, _, hv⟩ := bind_eq_ok.mp hv
  exact hf a v hv

theorem map {f : α → Value C} (hf : ∀ a, p (f a)) (r : Except Fault α) : Returns p (r.map f) := by
  intro v hv
  obtain ⟨a, _, rfl⟩ := map_eq_ok.mp hv
  exact hf a

theorem mono {r : Except Fault (Value C)} (h : Returns p r) (hpq : ∀ v, p v → q v) : Returns q r :=
  fun v hv => hpq v (h v hv)

end Returns

namespace Outcome

def data (o : Outcome C) : List (Value C) :=
  yields (fun v => [v]) o.result ++ (o.schema.map (·.2)).toList

/-- The outcome of an operation on a coherent pool leaves a coherent pool with what it hands out. -/
structure Sound (pool : List (Value C)) (next : Nat) (o : Outcome C) : Prop where
  le : next ≤ o.next
  coherent : Coherent o.next (nodesAll (pool.map (Datum.writes o.writes) ++ o.data))

def Plain (r : Except Fault (Value C)) : Prop := ∀ v, r = .ok v → v.nodes = []

variable {pool : List (Value C)} {next : Nat}

theorem map_writes_nil (vs : List (Value C)) : vs.map (Datum.writes []) = vs :=
  List.map_id vs

theorem sound_made (hpool : Coherent next (nodesAll pool)) {r : Except Fault (Value C × Nat)}
    (h : ∀ {v last}, r = .ok (v, last) → Joins (nodesAll pool) next v.nodes last) :
    Sound pool next (made next r) := by
  cases r with
  | error f =>
    refine ⟨Nat.le_refl _, ?_⟩
    simpa [made, failed, shown, data, yields, map_writes_nil] using hpool
  | ok p =>
    have hjoin := h rfl
    refine ⟨hjoin.le, ?_⟩
    simpa [made, shown, data, yields, map_writes_nil] using hjoin.coherent

/-- The outcome of an operation that only looks at its operands: nothing is changed, and what is
handed out holds no other objects than the pool. -/
structure Looks (pool : List (Value C)) (next : Nat) (o : Outcome C) : Prop where
  le : next ≤ o.next
  writes_eq : o.writes = []
  data_subset : nodesAll o.data ⊆ nodesAll pool

theorem Looks.sound {o : Outcome C} (h : Looks pool next o)
    (hpool : Coherent next (nodesAll pool)) : Sound pool next o := by
  refine ⟨h.le, hpool.mono ?_ h.le⟩
  rw [h.writes_eq, map_writes_nil, Datum.nodesAll_append]
  exact List.append_subset.mpr ⟨List.Subset.refl _, h.data_subset⟩

theorem looks_shown {r : Except Fault (Value C)}
    (h : ∀ {v}, r = .ok v → v.nodes ⊆ nodesAll pool) : Looks pool next (shown next r) := by
  refine ⟨Nat.le_refl _, rfl, ?_⟩
  cases r with
  | error f => exact List.nil_subset _
  | ok v => simpa [shown, data, yields] using h rfl

theorem looks_failed (f : Fault) : Looks pool next (failed next f) :=
  looks_shown (by simp)

theorem looks_plain {r : Except Fault (Value C)} (h : Plain r) : Looks pool next (shown next r) :=
  looks_shown fun hv => by simp [h _ hv]

theorem looks_listed {r : Except Fault (List (Value C))}
    (h : ∀ {vs}, r = .ok vs → nodesAll vs ⊆ nodesAll pool) : Looks pool next (listed next r) := by
  refine looks_shown fun hv => ?_
  obtain ⟨vs, hvs, rfl⟩ := map_eq_ok.mp hv
  exact h hvs

theorem sound_built (hpool : Coherent next (nodesAll pool)) (r : Except Fault (Diff C)) :
    Sound pool next (built next r) := by
  refine sound_made hpool fun hv => ?_
  obtain ⟨x, _, hx⟩ := map_eq_ok.mp hv
  cases hx
  exact Object.joins_ofDiff x hpool

/-- Placing the result of an outcome does not touch its objects. -/
theorem Sound.settle {o : Outcome C} (h : Sound pool next o) : Sound pool next o.settle := by
  unfold Outcome.settle
  split
  next v hv =>
    have hle := Datum.le_settle v o.next
    refine ⟨h.le.trans hle, h.coherent.mono ?_ hle⟩
    simp [data, yields, hv, nodesAll, Datum.nodes_settle]
  · exact h

end Outcome

namespace Session

open Outcome (Sound)

variable {pool : List (Value C)} {next : Nat}

/-- The data of a pool do not notice changes of new objects. -/
theorem writes_eq_self (hpool : Coherent next (nodesAll pool)) {t : Progress C}
    (hext : Progress.Extends [] ⟨[], next⟩ t) {v : Value C} (hv : v ∈ pool) :
    v.writes (t.changes.map .object) = v := by
  have hsettled := hpool.settled.extends hext (Progress.apart_nil _)
  rw [Datum.writes_object]
  exact (hsettled.mono (Datum.nodes_subset_nodesAll hv)).map_eq

theorem map_writes_eq_self (hpool : Coherent next (nodesAll pool)) {t : Progress C}
    (hext : Progress.Extends [] ⟨[], next⟩ t) :
    pool.map (Datum.writes (t.changes.map .object)) = pool :=
  (List.map_congr_left fun _ hv => writes_eq_self hpool hext hv).trans (List.map_id pool)

theorem coherent_writes (hpool : Coherent next (nodesAll pool)) {t : Progress C}
    (hext : Progress.Extends [] ⟨[], next⟩ t) :
    Coherent t.next (nodesAll (pool.map (Datum.writes (t.changes.map .object)))) := by
  rw [map_writes_eq_self hpool hext]
  exact hpool.mono (List.Subset.refl _) hext.le

/-- An operation in place on an object of the pool is sound. -/
theorem sound_inPlace (hpool : Coherent next (nodesAll pool)) {x : Object C}
    (hx : x.nodes ⊆ nodesAll pool) {r : Except Fault (Diff C)} {m : UpdateM C Unit}
    (hm : Object.Renews x.label? r m ⟨[], next⟩) :
    Sound pool next (inPlace m (fun _ => .null) next) := by
  rcases hm with ⟨f, t, -, hrun, hext⟩ | ⟨z, new, t, -, hnew, hext, hrun⟩
  · have hsame := map_writes_eq_self hpool hext
    refine ⟨?_, ?_⟩
    all_goals simp only [inPlace, hrun, Outcome.data, yields, error_map]
    · exact hext.le
    · rw [hsame]
      simpa using hpool.mono (List.Subset.refl _) hext.le
  · have hsame := map_writes_eq_self hpool hext
    refine ⟨?_, ?_⟩
    all_goals simp only [inPlace, hrun, Outcome.data, yields, ok_map]
    · exact hext.le
    · rw [List.map_append, Datum.map_writes_append, hsame]
      cases hl : x.label? with
      | none => simpa [Datum.nodesAll_append, nodesAll, Datum.nodes, Outcome.map_writes_nil] using
          hpool.mono (List.Subset.refl _) hext.le
      | some l =>
        rw [hl] at hnew
        have hlt := hpool.label_lt (hx (Object.mem_nodes_self x)) hl
        have hwrite := hpool.write hext.le (hnew.admissible hlt)
        have hone : Datum.writes [.object new] = Datum.write (.object new) := rfl
        simpa [Datum.nodesAll_append, nodesAll, Datum.nodes, hone] using hwrite

theorem sound_accumulate_items (hpool : Coherent next (nodesAll pool)) {vs : List (Value C)}
    (hvs : nodesAll vs ⊆ nodesAll pool) :
    Sound pool next (inPlace (Object.accumulate vs) .diff next) := by
  obtain ⟨t, hext, hresult⟩ := Object.run_accumulate vs (Progress.valid_start next)
    (hpool.settled.mono hvs)
  have hsame := map_writes_eq_self hpool hext
  rcases hresult with ⟨f, -, hrun⟩ | ⟨x, -, hrun, -, hown⟩
  all_goals
    refine ⟨?_, ?_⟩
    all_goals simp only [inPlace, hrun, Outcome.data, yields, error_map, ok_map]
  · exact hext.le
  · rw [hsame]
    simpa using hpool.mono (List.Subset.refl _) hext.le
  · exact hext.le
  · have hown : Object.OwnLabels next t.next (Object.labelsAll [x]) := by
      simpa [Object.labelsAll] using hown
    rw [hsame]
    simpa [Datum.nodesAll_append, nodesAll, Datum.nodes, Object.nodesAll] using
      (hown.joins hpool).coherent

theorem coherent_multiply (hpool : Coherent next (nodesAll pool)) {x : Object C}
    {operand : Value C} (hx : x.nodes ⊆ nodesAll pool)
    (hop : operand.nodes ⊆ nodesAll pool) :
    next ≤ (x.multiply operand next).2.next ∧
      Coherent (x.multiply operand next).2.next
        (nodesAll (pool.map (Datum.writes (x.multiply operand next).2.writes) ++
          yields (fun v => [v]) (x.multiply operand next).1)) := by
  have hready : Ready (pool ++ [operand]) ⟨operand, [], next⟩ := by
    refine ⟨by simp, hpool.mono ?_ (Nat.le_refl _)⟩
    simpa using And.intro (List.Subset.refl (nodesAll pool)) hop
  obtain ⟨ws, h⟩ := Object.keeps_multiplyOperand x hready fun _ hl => hpool.lt_of_mem_labels hx hl
  have hws : (x.multiply operand next).2.writes = ws := h.writes_eq
  refine ⟨h.le, h.coherent.mono ?_ (Nat.le_refl _)⟩
  rw [hws]
  intro y hy
  simp only [List.map_append, Datum.nodesAll_append, List.mem_append] at hy ⊢
  exact hy.imp_left Or.inl

end Session

end DiffAlgebra
