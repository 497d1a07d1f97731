import DiffAlgebra.Proofs.Sharing.Drafts
import DiffAlgebra.Session.Expr

/-!
# Expressions and the data they stand for

What an expression is evaluated to joins every coherent pool that holds the data of the bindings. An
expression changes nothing: it builds objects, and takes others from its variables.
-/

namespace DiffAlgebra

variable {C : Catalog}

open Datum (nodesAll mem_nodesAll)

namespace Bindings

def data (b : Bindings C) : List (Value C) := b.map (·.2)

theorem get?_mem {b : Bindings C} {name : String} {v : Value C} (h : b.get? name = some v) :
    v ∈ b.data := by
  obtain ⟨f, hf, rfl⟩ := Option.map_eq_some_iff.mp h
  exact List.mem_map_of_mem (List.mem_of_find?_eq_some hf)

theorem data_set_subset (b : Bindings C) (name : String) (v : Value C) :
    (b.set name v).data ⊆ v :: b.data := by
  induction b with
  | nil => exact List.Subset.refl _
  | cons f b ih =>
    intro u hu
    simp only [set, data] at hu
    split at hu
    · rcases List.mem_cons.mp hu with rfl | hu
      · exact List.mem_cons_self
      · exact List.mem_cons_of_mem _ (List.mem_cons_of_mem _ hu)
    · rcases List.mem_cons.mp hu with rfl | hu
      · exact List.mem_cons_of_mem _ List.mem_cons_self
      · rcases List.mem_cons.mp (ih hu) with rfl | hu
        · exact List.mem_cons_self
        · exact List.mem_cons_of_mem _ (List.mem_cons_of_mem _ hu)

theorem get?_cons (f : String × Value C) (b : Bindings C) (name : String) :
    get? (f :: b) name = if f.1 = name then some f.2 else get? b name := by
  unfold get?
  by_cases h : f.1 = name
  · simp [h]
  · rw [List.find?_cons_of_neg (by simpa using h), if_neg h]

theorem get?_map (b : Bindings C) (f : Value C → Value C) (name : String) :
    get? (b.map fun (n, v) => (n, f v)) name = (b.get? name).map f := by
  induction b with
  | nil => rfl
  | cons g b ih =>
    rw [List.map_cons, get?_cons, get?_cons, ih]
    by_cases h : g.1 = name <;> simp [h]

/-- A name that has been bound stands for what it was bound to, and all others stand for what they
stood for before. -/
theorem get?_set (b : Bindings C) (name : String) (v : Value C) (other : String) :
    (b.set name v).get? other = if name = other then some v else b.get? other := by
  induction b with
  | nil => exact get?_cons (name, v) [] other
  | cons f b ih =>
    rw [set]
    by_cases hf : f.1 = name
    · rw [if_pos (by simpa using hf), get?_cons, get?_cons, hf]
      split <;> rfl
    · rw [if_neg (by simpa using hf), get?_cons, get?_cons, ih]
      by_cases hn : name = other
      · have hfo : f.1 ≠ other := hn ▸ hf
        simp [hn, hfo]
      · simp [hn]

end Bindings

namespace Datum

theorem dedupeFields_subset (fs : List (String × Value C)) :
    (dedupeFields fs).map (·.2) ⊆ fs.map (·.2) := by
  have hfold (fs : List (String × Value C)) : ∀ b : Bindings C,
      (fs.foldl (fun b f => Bindings.set b f.1 f.2) b).map (·.2) ⊆ b.map (·.2) ++ fs.map (·.2) := by
    induction fs with
    | nil =>
      intro b
      simp
    | cons f fs ih =>
      intro b u hu
      rcases List.mem_append.mp (ih _ hu) with hu | hu
      · rcases List.mem_cons.mp (Bindings.data_set_subset b f.1 f.2 hu) with rfl | hu
        · simp
        · exact List.mem_append_left _ hu
      · exact List.mem_append_right _ (List.mem_cons_of_mem _ hu)
  exact hfold fs []

theorem lookupField_mem {key : String} {fs : List (String × Value C)} {v : Value C}
    (h : lookupField key fs = some v) : v ∈ fs.map (·.2) := by
  obtain ⟨f, hf, rfl⟩ := Option.map_eq_some_iff.mp h
  exact List.mem_map_of_mem (List.mem_reverse.mp (List.mem_of_find?_eq_some hf))

theorem itemAt_mem {α : Type} {xs : List α} {i : Int} {x : α} (h : itemAt xs i = .ok x) :
    x ∈ xs := by
  unfold itemAt at h
  dsimp only at h
  generalize (if i < 0 then i + xs.length else i) = j at h
  split at h
  · cases h
  · split at h
    next hx =>
      cases h
      exact List.mem_of_getElem? hx
    · cases h

theorem nodes_item {x i v : Value C} (h : x.item i = .ok v) : v.nodes ⊆ x.nodes := by
  unfold item at h
  split at h
  next l fs =>
    split at h
    · split at h
      next hv =>
        cases h
        rw [nodes, nodesFields_eq]
        exact nodes_subset_nodesAll (lookupField_mem hv)
      · cases h
    · split at h <;> cases h
  · split at h
    · cases h
    next xs hxs =>
      obtain ⟨n, _, h⟩ := bind_eq_ok.mp h
      exact List.Subset.trans (nodes_subset_nodesAll (itemAt_mem h)) (nodesAll_sequence hxs)

end Datum

/-- The multiplicands of a configuration are taken from its fields. -/
theorem LawConfig.nodesAll_multiplicands_ofFields {fs : List (String × Value C)}
    {c : LawConfig C (Object C)} (h : ofFields fs = .ok c) :
    nodesAll c.multiplicands ⊆ nodesAll (fs.map (·.2)) := by
  obtain ⟨_, _, h⟩ := bind_eq_ok.mp h
  obtain ⟨_, _, h⟩ := bind_eq_ok.mp h
  obtain ⟨xs, hxs, h⟩ := bind_eq_ok.mp h
  cases h
  unfold field at hxs
  split at hxs
  next v hv =>
    have hv : v.nodes ⊆ nodesAll (fs.map (·.2)) :=
      Datum.nodes_subset_nodesAll (Datum.lookupField_mem hv)
    refine List.Subset.trans ?_ hv
    unfold sequence at hxs
    split at hxs
    · cases hxs
    · cases hxs
    · cases hxs
    · split at hxs
      next hitems =>
        cases hxs
        exact Datum.nodesAll_items hitems
      · cases hxs
  · cases hxs
    exact List.nil_subset _

namespace Class

/-- A class of plain data takes over objects of its arguments only. -/
theorem nodes_convert {p : PlainType} {args : List (Value C)} {v : Value C}
    (h : convert p args = .ok v) : v.nodes ⊆ nodesAll args := by
  unfold convert at h
  split at h
  case h_2 =>
    obtain ⟨_, _, h⟩ := bind_eq_ok.mp h
    cases h
    exact List.nil_subset _
  case h_9 =>
    obtain ⟨xs, hxs, h⟩ := bind_eq_ok.mp h
    cases h
    rw [Datum.nodesAll_singleton]
    exact Datum.nodesAll_items hxs
  all_goals
    cases h
    try exact List.nil_subset _

/-- What a class is called to build joins every coherent pool that holds the arguments. -/
theorem joins_call {c : Class C} {args : List (Value C)} {pool : List (Object C)}
    {next last : Nat} {v : Value C} (hpool : Coherent next pool) (hargs : nodesAll args ⊆ pool)
    (h : c.call args next = .ok (v, last)) : Joins pool next v.nodes last := by
  cases c with
  | diff t =>
    obtain ⟨d, hd, h⟩ := bind_eq_ok.mp h
    cases h
    exact Object.joins_ofDraft d (List.Subset.trans (Draft.givenNodes_construct hd) hargs) hpool
  | isZero | multiply => cases h
  | plain p =>
    obtain ⟨u, hu, h⟩ := bind_eq_ok.mp h
    cases h
    exact .of_subset hpool (List.Subset.trans (nodes_convert hu) hargs) (Nat.le_refl _)

end Class

namespace Session

theorem nodes_tupleType {xs : List (Value C)} {v : Value C} (h : tupleType xs = .ok v) :
    v.nodes = [] := by
  unfold tupleType at h
  dsimp only at h
  split at h
  · cases h
  · split at h
    · cases h
    · obtain ⟨_, _, h⟩ := bind_eq_ok.mp h
      cases h
      rfl

theorem nodes_vecType {x v : Value C} (h : vecType x = .ok v) : v.nodes = [] := by
  unfold vecType at h
  dsimp only at h
  split at h
  · cases h
  · split at h
    · cases h
      rfl
    · cases h

end Session

namespace Expr

mutual

/-- What an expression is evaluated to joins every coherent pool that holds the bound data. -/
theorem joins_eval {b : Bindings C} : (e : Expr C) → {pool : List (Object C)} →
    {next last : Nat} → {v : Value C} → nodesAll b.data ⊆ pool → Coherent next pool →
    eval b e next = .ok (v, last) → Joins pool next v.nodes last
  | invalid _, _, _, _, _, _, _, h => nomatch h
  | null, _, _, _, _, _, hpool, h | bool _, _, _, _, _, _, hpool, h
  | int _, _, _, _, _, _, hpool, h | real _, _, _, _, _, _, hpool, h
  | text _, _, _, _, _, _, hpool, h | bytes _, _, _, _, _, _, hpool, h
  | type _, _, _, _, _, _, hpool, h => by
    cases h
    exact .of_subset hpool (List.nil_subset _) (Nat.le_refl _)
  | list es, _, _, _, _, hb, hpool, h | tuple es, _, _, _, _, hb, hpool, h => by
    obtain ⟨⟨xs, _⟩, hxs, h⟩ := bind_eq_ok.mp h
    cases h
    exact joins_evalAll es hb hpool hxs
  | record fs, _, _, _, _, hb, hpool, h => by
    obtain ⟨⟨gs, _⟩, hgs, h⟩ := bind_eq_ok.mp h
    cases h
    refine (joins_evalFields fs hb hpool hgs).mono ?_
    rw [Datum.nodes, Datum.nodesFields_eq]
    exact Datum.nodesAll_mono (Datum.dedupeFields_subset gs)
  | tupleType es, _, _, _, _, hb, hpool, h => by
    obtain ⟨⟨xs, _⟩, hxs, h⟩ := bind_eq_ok.mp h
    obtain ⟨t, ht, h⟩ := bind_eq_ok.mp h
    cases h
    rw [Session.nodes_tupleType ht]
    exact (joins_evalAll es hb hpool hxs).mono (List.nil_subset _)
  | vecType e, _, _, _, _, hb, hpool, h => by
    obtain ⟨⟨x, _⟩, hx, h⟩ := bind_eq_ok.mp h
    obtain ⟨t, ht, h⟩ := bind_eq_ok.mp h
    cases h
    rw [Session.nodes_vecType ht]
    exact (joins_eval e hb hpool hx).mono (List.nil_subset _)
  | new e es, _, _, _, _, hb, hpool, h => by
    obtain ⟨⟨c, _⟩, hc, h⟩ := bind_eq_ok.mp h
    obtain ⟨⟨args, _⟩, hargs, h⟩ := bind_eq_ok.mp h
    refine Joins.after (joins_eval e hb hpool hc) fun hpool' => ?_
    have hb' := List.subset_append_of_subset_left c.nodes hb
    refine Joins.after (joins_evalAll es hb' hpool' hargs) fun hpool'' => ?_
    dsimp only at h
    split at h
    · exact Class.joins_call hpool'' (List.subset_append_right _ _) h
    · cases h
  | var name, _, _, _, _, hb, hpool, h => by
    simp only [eval] at h
    split at h
    next hv =>
      cases h
      have hsubset := Datum.nodes_subset_nodesAll (Bindings.get?_mem hv)
      exact .of_subset hpool (List.Subset.trans hsubset hb) (Nat.le_refl _)
    · cases h
  | item e i, _, _, _, _, hb, hpool, h => by
    obtain ⟨⟨x, _⟩, hx, h⟩ := bind_eq_ok.mp h
    obtain ⟨⟨p, _⟩, hp, h⟩ := bind_eq_ok.mp h
    obtain ⟨v, hv, h⟩ := bind_eq_ok.mp h
    cases h
    refine Joins.after (joins_eval e hb hpool hx) fun hpool' => ?_
    have hb' := List.subset_append_of_subset_left x.nodes hb
    refine Joins.after (joins_eval i hb' hpool' hp) fun hpool'' => ?_
    refine .of_subset hpool'' ?_ (Nat.le_refl _)
    exact List.subset_append_of_subset_left _
      (List.subset_append_of_subset_right _ (Datum.nodes_item hv))
  | config fs, _, _, _, _, hb, hpool, h => by
    obtain ⟨⟨gs, _⟩, hgs, h⟩ := bind_eq_ok.mp h
    obtain ⟨c, hc, h⟩ := bind_eq_ok.mp h
    cases h
    refine (joins_evalFields fs hb hpool hgs).mono ?_
    exact List.Subset.trans (LawConfig.nodesAll_multiplicands_ofFields hc)
      (Datum.nodesAll_mono (Datum.dedupeFields_subset gs))

theorem joins_evalAll {b : Bindings C} : (es : List (Expr C)) → {pool : List (Object C)} →
    {next last : Nat} → {vs : List (Value C)} → nodesAll b.data ⊆ pool → Coherent next pool →
    evalAll b es next = .ok (vs, last) → Joins pool next (nodesAll vs) last
  | [], _, _, _, _, _, hpool, h => by
    cases h
    exact .of_subset hpool (List.nil_subset _) (Nat.le_refl _)
  | e :: es, _, _, _, _, hb, hpool, h => by
    obtain ⟨⟨x, _⟩, hx, h⟩ := bind_eq_ok.mp h
    obtain ⟨⟨xs, _⟩, hxs, h⟩ := bind_eq_ok.mp h
    cases h
    have hjoin := joins_eval e hb hpool hx
    exact hjoin.trans
      (joins_evalAll es (List.subset_append_of_subset_left _ hb) hjoin.coherent hxs)

theorem joins_evalFields {b : Bindings C} : (fs : List (String × Expr C)) →
    {pool : List (Object C)} → {next last : Nat} → {gs : List (String × Value C)} →
    nodesAll b.data ⊆ pool → Coherent next pool → evalFields b fs next = .ok (gs, last) →
    Joins pool next (nodesAll (gs.map (·.2))) last
  | [], _, _, _, _, _, hpool, h => by
    cases h
    exact .of_subset hpool (List.nil_subset _) (Nat.le_refl _)
  | (_, e) :: fs, _, _, _, _, hb, hpool, h => by
    obtain ⟨⟨x, _⟩, hx, h⟩ := bind_eq_ok.mp h
    obtain ⟨⟨gs, _⟩, hgs, h⟩ := bind_eq_ok.mp h
    cases h
    have hjoin := joins_eval e hb hpool hx
    exact hjoin.trans
      (joins_evalFields fs (List.subset_append_of_subset_left _ hb) hjoin.coherent hgs)

end

end Expr

end DiffAlgebra
