import DiffAlgebra.Object.Multiply
import DiffAlgebra.Proofs.Sharing.Copies
import DiffAlgebra.Proofs.Sharing.Updates

/-!
# Changes keep a pool coherent

A change in place is admissible if it gives an object new contents made of fresh nodes, or a list
items of the pool. Admissible changes keep a pool coherent. Addition and negation make one of them
after changes of new objects, which the pool does not notice, and a multiplication makes them one
after the other, each output joining the pool as it is by then.
-/

namespace DiffAlgebra

variable {C : Catalog}

open Datum (nodesAll mem_nodesAll)

/-- A change that fits a pool: new contents are made of fresh nodes, and new items of old ones. -/
def Write.Admissible (pool : List (Object C)) (next last : Nat) : Write C → Prop
  | .object new => Coherent last new.nodes ∧
      ∀ y ∈ Object.nodesAll new.parts, ∀ l, y.label? = some l → next ≤ l
  | .list _ items => nodesAll items ⊆ pool

/-- Writing an object with fresh components keeps nodes coherent. -/
theorem Coherent.write_object {ys : List (Object C)} {next last : Nat} {new : Object C}
    (h : Coherent next ys) (hle : next ≤ last) (hnew : Coherent last new.nodes)
    (hfresh : ∀ y ∈ Object.nodesAll new.parts, ∀ l, y.label? = some l → next ≤ l) :
    Coherent last (new.nodes ++ ys.map (Object.write new)) := by
  have hmixed {y z : Object C} {l : Nat} (hy : y ∈ new.nodes) (hz : z ∈ ys)
      (hyl : y.label? = some l) (hzl : z.label? = some l) : Object.write new z = y := by
    rw [Object.nodes_eq] at hy
    rcases List.mem_cons.mp hy with rfl | hy
    · exact Object.write_of_label hyl hzl
    · exact absurd (h.label_lt hz hzl) (Nat.not_lt.mpr (hfresh y hy l hyl))
  constructor
  · intro y l hy hl
    rcases List.mem_append.mp hy with hy | hy
    · exact hnew.label_lt hy hl
    · obtain ⟨z, hz, rfl⟩ := List.mem_map.mp hy
      rw [Object.label?_write] at hl
      exact (h.label_lt hz hl).trans_le hle
  · intro y z l hy hz hyl hzl
    rcases List.mem_append.mp hy with hy | hy <;> rcases List.mem_append.mp hz with hz | hz
    · exact hnew.eq_of_label hy hz hyl hzl
    · obtain ⟨w, hw, rfl⟩ := List.mem_map.mp hz
      rw [Object.label?_write] at hzl
      exact (hmixed hy hw hyl hzl).symm
    · obtain ⟨w, hw, rfl⟩ := List.mem_map.mp hy
      rw [Object.label?_write] at hyl
      exact hmixed hz hw hzl hyl
    · obtain ⟨v, hv, rfl⟩ := List.mem_map.mp hy
      obtain ⟨w, hw, rfl⟩ := List.mem_map.mp hz
      rw [Object.label?_write] at hyl hzl
      rw [h.eq_of_label hv hw hyl hzl]

/-- An admissible change keeps a pool coherent. -/
theorem Coherent.write {vs : List (Value C)} {next last : Nat} {w : Write C}
    (h : Coherent next (nodesAll vs)) (hle : next ≤ last)
    (hw : w.Admissible (nodesAll vs) next last) :
    Coherent last (nodesAll (vs.map (Datum.write w))) := by
  have hsub : nodesAll (vs.map (Datum.write w)) ⊆
      w.brought ++ (nodesAll vs).map w.onObject := by
    intro y hy
    obtain ⟨v', hv', hyv⟩ := mem_nodesAll.mp hy
    obtain ⟨v, hv, rfl⟩ := List.mem_map.mp hv'
    rcases Datum.mem_nodes_write hyv with hnew | ⟨z, hz, rfl⟩
    · exact List.mem_append_left _ hnew
    · exact List.mem_append_right _
        (List.mem_map.mpr ⟨z, mem_nodesAll.mpr ⟨v, hv, hz⟩, rfl⟩)
  cases w with
  | object new => exact (h.write_object hle hw.1 hw.2).mono hsub (Nat.le_refl _)
  | list m items =>
    have hold : (nodesAll vs).map (Write.list m items).onObject = nodesAll vs :=
      List.map_id (nodesAll vs)
    rw [hold] at hsub
    exact h.mono (List.Subset.trans hsub (List.append_subset.mpr ⟨hw, List.Subset.refl _⟩)) hle

theorem Datum.writes_object (cs : List (Object C)) (v : Value C) :
    v.writes (cs.map .object) = v.map (Object.after cs) := by
  induction cs generalizing v with
  | nil => exact (Datum.map_eq_self fun _ _ => rfl).symm
  | cons c cs ih =>
    change (v.write (.object c)).writes (cs.map .object) = _
    rw [ih, Datum.write_object_eq_map, Datum.map_map]
    rfl

/-- The components of a changed object are new. -/
theorem Object.Renewed.le_label {place : Option Nat} {next last : Nat} {z : Diff C}
    {new : Object C} (h : Renewed place next last z new) :
    ∀ y ∈ Object.nodesAll new.parts, ∀ l, y.label? = some l → next ≤ l := by
  intro y hy l hl
  refine (h.own.mem l ?_).1
  rw [labelsAll_eq_filterMap]
  exact List.mem_filterMap.mpr ⟨y, hy, hl⟩

theorem Object.Renewed.admissible {pool : List (Object C)} {l next last : Nat} {z : Diff C}
    {new : Object C} (h : Renewed (some l) next last z new) (hl : l < next) :
    (Write.object new).Admissible pool next last := by
  have hfresh := h.le_label
  refine ⟨?_, hfresh⟩
  rw [nodes_eq]
  refine h.own.coherent.cons fun k hk => ?_
  obtain rfl : l = k := Option.some.inj (h.label_eq.symm.trans hk)
  exact ⟨hl.trans_le h.own.le, fun y hy hyl => absurd hl (Nat.not_lt.mpr (hfresh y hy l hyl))⟩

theorem Datum.writes_append (ws us : List (Write C)) (v : Value C) :
    v.writes (ws ++ us) = (v.writes ws).writes us :=
  List.foldl_append

theorem Datum.map_writes_append (ws us : List (Write C)) (vs : List (Value C)) :
    vs.map (Datum.writes (ws ++ us)) = (vs.map (Datum.writes ws)).map (Datum.writes us) := by
  simp [Datum.writes_append]

/-- What holds of the data `current` and `new` when a multiplication has gone from state `s` to
state `t` by the changes `ws`: the changes are made to the current data, and the new ones join. -/
structure Advances (current : List (Value C)) (s : MultiplyState C) (new : List (Value C))
    (t : MultiplyState C) (ws : List (Write C)) : Prop where
  le : s.next ≤ t.next
  writes_eq : t.writes = s.writes ++ ws
  operand_eq : t.operand = s.operand.writes ws
  coherent : Coherent t.next (nodesAll (current.map (Datum.writes ws) ++ new))

theorem Advances.trans {current new new' : List (Value C)} {s t u : MultiplyState C}
    {ws ws' : List (Write C)} (h : Advances current s new t ws)
    (h' : Advances (current.map (Datum.writes ws) ++ new) t new' u ws') :
    Advances current s (new.map (Datum.writes ws') ++ new') u (ws ++ ws') where
  le := h.le.trans h'.le
  writes_eq := by rw [h'.writes_eq, h.writes_eq, List.append_assoc]
  operand_eq := by rw [h'.operand_eq, h.operand_eq, Datum.writes_append]
  coherent := by
    rw [Datum.map_writes_append, ← List.append_assoc, ← List.map_append]
    exact h'.coherent

theorem Advances.mono {current new new' : List (Value C)} {s t : MultiplyState C}
    {ws : List (Write C)} (h : Advances current s new t ws) (hsub : nodesAll new' ⊆ nodesAll new) :
    Advances current s new' t ws where
  le := h.le
  writes_eq := h.writes_eq
  operand_eq := h.operand_eq
  coherent := by
    refine h.coherent.mono ?_ (Nat.le_refl _)
    rw [Datum.nodesAll_append, Datum.nodesAll_append]
    exact List.append_subset.mpr ⟨List.subset_append_left _ _,
      List.subset_append_of_subset_right _ hsub⟩

def yields {α : Type} (data : α → List (Value C)) : Except Fault α → List (Value C)
  | .ok a => data a
  | .error _ => []

/-- From state `s`, a step keeps the current data coherent, together with those it yields. -/
def Keeps {α : Type} (current : List (Value C)) (s : MultiplyState C) (m : MultiplyM C α)
    (data : α → List (Value C)) : Prop :=
  ∃ ws, Advances current s (yields data (m.run s).1) (m.run s).2 ws

/-- A state whose operand is among the current data, which are coherent. -/
structure Ready (current : List (Value C)) (s : MultiplyState C) : Prop where
  operand_mem : s.operand ∈ current
  coherent : Coherent s.next (nodesAll current)

theorem Ready.operand_subset {current : List (Value C)} {s : MultiplyState C}
    (h : Ready current s) : s.operand.nodes ⊆ nodesAll current :=
  Datum.nodes_subset_nodesAll h.operand_mem

theorem Advances.ready {current new : List (Value C)} {s t : MultiplyState C}
    {ws : List (Write C)} (h : Advances current s new t ws) (hs : Ready current s) :
    Ready (current.map (Datum.writes ws) ++ new) t where
  operand_mem := by
    rw [h.operand_eq]
    exact List.mem_append_left _ (List.mem_map_of_mem hs.operand_mem)
  coherent := h.coherent

namespace Keeps

variable {α β : Type} {current : List (Value C)} {s : MultiplyState C}
  {data : α → List (Value C)}

theorem of_joins {m : MultiplyM C α} {r : Except Fault α} {n : Nat}
    (hrun : m.run s = (r, { s with next := n }))
    (h : Joins (nodesAll current) s.next (nodesAll (yields data r)) n) :
    Keeps current s m data := by
  refine ⟨[], ?_⟩
  rw [hrun]
  refine ⟨h.le, (List.append_nil _).symm, rfl, ?_⟩
  have hid : current.map (Datum.writes []) = current := List.map_id current
  rw [hid, Datum.nodesAll_append]
  exact h.coherent

theorem throw (hs : Ready current s) (f : Fault) :
    Keeps current s (throw f : MultiplyM C α) data :=
  of_joins (r := .error f) (n := s.next) rfl
    (.of_subset hs.coherent (List.nil_subset _) (Nat.le_refl _))

theorem pure (hs : Ready current s) {a : α} (ha : nodesAll (data a) ⊆ nodesAll current) :
    Keeps current s (pure a : MultiplyM C α) data :=
  of_joins (r := .ok a) (n := s.next) rfl (.of_subset hs.coherent ha (Nat.le_refl _))

/-- A step that brings no data along is followed by another. -/
theorem bind {m : MultiplyM C β} {f : β → MultiplyM C α} (hs : Ready current s)
    (hm : Keeps current s m fun _ => [])
    (hf : ∀ {b t current}, Ready current t → s.next ≤ t.next → Keeps current t (f b) data) :
    Keeps current s (m >>= f) data := by
  obtain ⟨ws, hm⟩ := hm
  unfold Keeps
  rw [run_bind]
  rcases hrun : m.run s with ⟨_ | b, t⟩
  · rw [hrun] at hm
    exact ⟨ws, hm⟩
  · rw [hrun] at hm
    obtain ⟨us, hf⟩ := hf (b := b) (hm.ready hs) hm.le
    exact ⟨ws ++ us, hm.trans hf⟩

theorem map {m : MultiplyM C β} {f : β → α} {source : β → List (Value C)}
    (hm : Keeps current s m source) (hsub : ∀ b, nodesAll (data (f b)) ⊆ nodesAll (source b)) :
    Keeps current s (m >>= fun b => Pure.pure (f b)) data := by
  obtain ⟨ws, hm⟩ := hm
  unfold Keeps
  rw [run_bind]
  rcases hrun : m.run s with ⟨_ | b, t⟩
  · rw [hrun] at hm
    exact ⟨ws, hm⟩
  · rw [hrun] at hm
    exact ⟨ws, hm.mono (hsub b)⟩

theorem changeInPlace {w : Write C} (hs : Ready current s)
    (hw : w.Admissible (nodesAll current) s.next s.next) :
    Keeps current s (Object.changeInPlace w) fun _ => [] := by
  refine ⟨[w], ⟨Nat.le_refl _, rfl, rfl, ?_⟩⟩
  change Coherent s.next (nodesAll (current.map (Datum.write w) ++ []))
  rw [List.append_nil]
  exact hs.coherent.write (Nat.le_refl _) hw

theorem get_bind {f : MultiplyState C → MultiplyM C α} (h : Keeps current s (f s) data) :
    Keeps current s (get >>= f) data :=
  h

end Keeps

namespace Object

variable {current : List (Value C)} {s : MultiplyState C}

theorem run_get_bind {α : Type} (f : MultiplyState C → MultiplyM C α) (s : MultiplyState C) :
    ExceptT.run (get >>= f) s = (f s).run s :=
  rfl

theorem multiply_int_of_error {k : IntKind} {m : Int} {v : Value C} {f : Fault}
    (h : productInt k m v = .error f) (l next : Nat) :
    (int l k m).multiply v next = (.error f, ⟨v, [], next⟩) := by
  change (multiplyInt k m).run ⟨v, [], next⟩ = _
  rw [multiplyInt, run_get_bind, h]
  rfl

theorem multiply_int_of_ok {k : IntKind} {m p : Int} {v : Value C} (h : productInt k m v = .ok p)
    (l next : Nat) :
    (int l k m).multiply v next = (.ok (.diff (int next k p)), ⟨v, [], next + 1⟩) := by
  change (multiplyInt k m).run ⟨v, [], next⟩ = _
  rw [multiplyInt, run_get_bind, h]
  rfl

private theorem keeps_multiplyInt (hs : Ready current s) (k : IntKind) (m : Int) :
    Keeps current s (multiplyInt k m) fun v => [v] := by
  apply Keeps.get_bind
  cases productInt k m s.operand with
  | error f => exact .throw hs f
  | ok p =>
    refine .of_joins (r := .ok (.diff (int s.next k p))) (n := s.next + 1) rfl ?_
    have hle := hs.coherent.mono (List.Subset.refl _) (Nat.le_succ _)
    exact .cons hs.coherent rfl (.of_subset hle (List.nil_subset _) (Nat.le_refl _))

private theorem keeps_multiplyPresent (hs : Ready current s) :
    Keeps current s multiplyPresent fun v => [v] := by
  apply Keeps.get_bind
  cases hcopy : s.operand.deepCopy s.next with
  | error f => exact .throw hs f
  | ok r =>
    refine .of_joins (r := .ok r.1) (n := r.2) rfl ?_
    simpa [yields] using Datum.joins_deepCopy hcopy hs.operand_subset hs.coherent

private theorem keeps_changeReceiver (hs : Ready current s) {l : Nat} (hl : l < s.next) (n : C.Name)
    (before after : C.State) :
    Keeps current s (changeReceiver l n before after) fun _ => [] := by
  unfold changeReceiver
  split
  · exact .pure hs (List.nil_subset _)
  · refine .changeInPlace hs ⟨Coherent.nil.cons ?_, fun _ hy => absurd hy List.not_mem_nil⟩
    rintro k hk
    obtain rfl : l = k := Option.some.inj hk
    exact ⟨hl, by simp⟩

private theorem keeps_appendToOperand (hs : Ready current s) (ns : List Int) :
    Keeps current s (appendToOperand ns) fun _ => [] := by
  apply Keeps.get_bind
  split
  next m xs hop =>
    split
    · exact .pure hs (List.nil_subset _)
    · refine .changeInPlace hs ?_
      have hxs : Datum.nodesAll xs ⊆ Datum.nodesAll current := by
        have hsub := hs.operand_subset
        rw [hop] at hsub
        exact hsub
      simpa [Write.Admissible, Datum.nodesAll_map_eq_nil (f := .int) fun _ => rfl] using hxs
  · exact .pure hs (List.nil_subset _)

private theorem keeps_customOutput (hs : Ready current s) (o : ProductOutput) :
    Keeps current s (customOutput o) fun v => [v] := by
  cases o with
  | number n => exact .pure hs (by simp [Datum.nodes])
  | operand =>
    apply Keeps.get_bind
    have hop := hs.operand_subset
    split
    next l xs heq =>
      rw [heq] at hop
      exact .pure hs (by simpa [Datum.nodes] using hop)
    · exact .pure hs (by simpa using hop)

private theorem keeps_multiplyCustom (hs : Ready current s) {l : Nat} (hl : l < s.next) (n : C.Name)
    (c : C.State) : Keeps current s (multiplyCustom l n c) fun v => [v] := by
  apply Keeps.get_bind
  split
  · dsimp only
    split
    · exact .throw hs _
    · refine .bind hs (keeps_changeReceiver hs hl n _ _) fun hs' _ => ?_
      exact .bind hs' (keeps_appendToOperand hs' _) fun hs'' _ => keeps_customOutput hs'' _
  · exact .throw hs _

mutual

/-- A multiplication keeps the data at hand coherent, and its output joins them. -/
theorem keeps_multiplyOperand : (x : Object C) → {current : List (Value C)} →
    {s : MultiplyState C} → Ready current s → (∀ l ∈ x.labels, l < s.next) →
    Keeps current s (multiplyOperand x) fun v => [v]
  | int _ k m, _, _, hs, _ => keeps_multiplyInt hs k m
  | present, _, _, hs, _ => keeps_multiplyPresent hs
  | custom l n c, _, _, hs, hl => keeps_multiplyCustom hs (hl l (by simp [labels])) n c
  | tuple _ ts xs, current, s, hs, hl => by
    rw [multiplyOperand]
    split
    · exact (keeps_multiplyAll xs hs fun k hk => hl k (List.mem_cons_of_mem _ hk)).map fun vs => by
        simp [Datum.nodes]
    · exact .throw hs _
  | vec _ t xs, current, s, hs, hl => by
    rw [multiplyOperand]
    split
    · exact (keeps_multiplyAll xs hs fun k hk => hl k (List.mem_cons_of_mem _ hk)).map fun vs => by
        simp [Datum.nodes]
    · exact .throw hs _

private theorem keeps_multiplyAll : (xs : List (Object C)) → {current : List (Value C)} →
    {s : MultiplyState C} → Ready current s → (∀ l ∈ labelsAll xs, l < s.next) →
    Keeps current s (multiplyAll xs) fun vs => vs
  | [], _, _, hs, _ => .pure hs (List.nil_subset _)
  | x :: xs, current, s, hs, hl => by
    obtain ⟨ws, hx⟩ := keeps_multiplyOperand x hs fun k hk => hl k (List.mem_append_left _ hk)
    unfold Keeps
    rw [multiplyAll, run_bind]
    rcases hrun : (multiplyOperand x).run s with ⟨f | y, t⟩
    · rw [hrun] at hx
      exact ⟨ws, hx⟩
    · rw [hrun] at hx
      obtain ⟨us, hxs⟩ := keeps_multiplyAll xs (hx.ready hs) fun k hk =>
        (hl k (List.mem_append_right _ hk)).trans_le hx.le
      have h := hx.trans hxs
      dsimp only
      rw [run_bind]
      change ∃ ws, Advances current s (yields _ (((multiplyAll xs >>= _).run t).1))
        (((multiplyAll xs >>= _).run t).2) ws
      rw [run_bind]
      rcases hrun' : (multiplyAll xs).run t with ⟨f | ys, u⟩
      · rw [hrun'] at h
        exact ⟨ws ++ us, h.mono (List.nil_subset _)⟩
      · rw [hrun'] at h hxs
        refine ⟨ws ++ us, ?_⟩
        change Advances current s (y.writes (u.writes.drop t.writes.length) :: ys) u (ws ++ us)
        rw [hxs.writes_eq, List.drop_left]
        exact h

end

end Object

end DiffAlgebra
