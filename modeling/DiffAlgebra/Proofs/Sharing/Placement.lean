import DiffAlgebra.Proofs.Sharing.Labels
import DiffAlgebra.Proofs.Sharing.Reachable

/-!
# Labels are handed out before they are used

In every session that commands lead to, the labels of all data have been handed out. Expressions and
operations keep it so: what they give has labels of the data that they work on, new ones, and none
where it has not been placed yet.
-/

namespace DiffAlgebra

variable {C : Catalog}

open Datum (Below)

theorem Datum.below_dedupeFields {fs : List (String × Value C)} {n : Nat}
    (h : ∀ f ∈ fs, f.2.Below n) : ∀ f ∈ dedupeFields fs, f.2.Below n := by
  intro f hf
  obtain ⟨g, hg, heq⟩ := List.mem_map.mp (dedupeFields_subset fs (List.mem_map_of_mem hf))
  exact heq ▸ h g hg

private theorem LawConfig.below_sequence {v : Value C} {n : Nat} (hv : v.Below n) (hn : 0 < n)
    {vs : List (Value C)} (h : sequence v = .ok vs) : ∀ u ∈ vs, u.Below n := by
  unfold sequence at h
  split at h
  · cases h
  · cases h
  · cases h
  · split at h
    next hitems =>
      cases h
      exact Datum.Labelled.items hv hn hitems
    · cases h

private theorem LawConfig.below_ofFields {fs : List (String × Value C)} {n : Nat}
    (hfs : ∀ f ∈ fs, f.2.Below n) (hn : 0 < n) {c : LawConfig C (Object C)}
    (h : ofFields fs = .ok c) : c.toDatum.Below n := by
  obtain ⟨_, _, h⟩ := bind_eq_ok.mp h
  obtain ⟨_, _, h⟩ := bind_eq_ok.mp h
  obtain ⟨xs, hxs, h⟩ := bind_eq_ok.mp h
  cases h
  refine Datum.labelled_config.mpr ⟨hn, ?_⟩
  unfold field at hxs
  split at hxs
  next v hv =>
    obtain ⟨f, hf, rfl⟩ := List.mem_map.mp (Datum.lookupField_mem hv)
    exact below_sequence (hfs f hf) hn hxs
  · cases hxs
    simp

namespace Class

private theorem below_convert {p : PlainType} {args : List (Value C)} {v : Value C} {n : Nat}
    (hargs : ∀ a ∈ args, a.Below n) (hn : 0 < n) (h : convert p args = .ok v) : v.Below n := by
  unfold convert at h
  split at h
  case h_2 =>
    obtain ⟨_, _, h⟩ := bind_eq_ok.mp h
    cases h
    simp [Below]
  case h_9 x =>
    obtain ⟨xs, hxs, h⟩ := bind_eq_ok.mp h
    cases h
    exact Datum.labelled_list.mpr ⟨hn, Datum.Labelled.items (hargs x (by simp)) hn hxs⟩
  all_goals
    cases h
    try simp [Below, hn]

private theorem below_call {c : Class C} {args : List (Value C)} {next last : Nat} {v : Value C}
    (hargs : ∀ a ∈ args, a.Below next) (hnext : 0 < next) (h : c.call args next = .ok (v, last)) :
    next ≤ last ∧ v.Below last := by
  cases c with
  | diff t =>
    obtain ⟨d, _, h⟩ := bind_eq_ok.mp h
    cases h
    exact ⟨(Object.mem_nodes_ofDraft d next).1, Datum.labelled_diff _⟩
  | isZero | multiply => cases h
  | plain p =>
    obtain ⟨u, hu, h⟩ := bind_eq_ok.mp h
    cases h
    exact ⟨Nat.le_refl _, below_convert hargs hnext hu⟩

end Class

namespace Session

private theorem below_tupleType {xs : List (Value C)} {v : Value C} (h : tupleType xs = .ok v)
    (n : Nat) :
    v.Below n := by
  unfold tupleType at h
  dsimp only at h
  split at h
  · cases h
  · split at h
    · cases h
    · obtain ⟨_, _, h⟩ := bind_eq_ok.mp h
      cases h
      exact Datum.labelled_type _

private theorem below_vecType {x v : Value C} (h : vecType x = .ok v) (n : Nat) : v.Below n := by
  unfold vecType at h
  dsimp only at h
  split at h
  · cases h
  · split at h
    · cases h
      exact Datum.labelled_type _
    · cases h

end Session

namespace Expr

variable {b : Bindings C}

mutual

/-- What an expression is evaluated to has labels that have been handed out by then. -/
theorem below_eval : (e : Expr C) → {next last : Nat} → {v : Value C} → 0 < next →
    (∀ u ∈ b.data, u.Below next) → eval b e next = .ok (v, last) → next ≤ last ∧ v.Below last
  | invalid _, _, _, _, _, _, h => nomatch h
  | null, _, _, _, _, _, h | bool _, _, _, _, _, _, h | int _, _, _, _, _, _, h
  | real _, _, _, _, _, _, h | text _, _, _, _, _, _, h | bytes _, _, _, _, _, _, h
  | type _, _, _, _, _, _, h => by
    cases h
    exact ⟨Nat.le_refl _, Datum.labelled_of_plain rfl rfl⟩
  | list es, _, _, _, hnext, hb, h => by
    obtain ⟨⟨xs, _⟩, hxs, h⟩ := bind_eq_ok.mp h
    cases h
    obtain ⟨hle, hxs⟩ := below_evalAll es hnext hb hxs
    exact ⟨hle, Datum.labelled_list.mpr ⟨hnext.trans_le hle, hxs⟩⟩
  | tuple es, _, _, _, hnext, hb, h => by
    obtain ⟨⟨xs, _⟩, hxs, h⟩ := bind_eq_ok.mp h
    cases h
    obtain ⟨hle, hxs⟩ := below_evalAll es hnext hb hxs
    exact ⟨hle, Datum.labelled_tuple.mpr ⟨hnext.trans_le hle, hxs⟩⟩
  | record fs, _, _, _, hnext, hb, h => by
    obtain ⟨⟨gs, _⟩, hgs, h⟩ := bind_eq_ok.mp h
    cases h
    obtain ⟨hle, hgs⟩ := below_evalFields fs hnext hb hgs
    exact ⟨hle, Datum.labelled_record.mpr ⟨hnext.trans_le hle, Datum.below_dedupeFields hgs⟩⟩
  | tupleType es, _, _, _, hnext, hb, h => by
    obtain ⟨⟨xs, _⟩, hxs, h⟩ := bind_eq_ok.mp h
    obtain ⟨t, ht, h⟩ := bind_eq_ok.mp h
    cases h
    exact ⟨(below_evalAll es hnext hb hxs).1, Session.below_tupleType ht _⟩
  | vecType e, _, _, _, hnext, hb, h => by
    obtain ⟨⟨x, _⟩, hx, h⟩ := bind_eq_ok.mp h
    obtain ⟨t, ht, h⟩ := bind_eq_ok.mp h
    cases h
    exact ⟨(below_eval e hnext hb hx).1, Session.below_vecType ht _⟩
  | new e es, _, _, _, hnext, hb, h => by
    obtain ⟨⟨c, mid⟩, hc, h⟩ := bind_eq_ok.mp h
    obtain ⟨⟨args, late⟩, hargs, h⟩ := bind_eq_ok.mp h
    have hle := (below_eval e hnext hb hc).1
    obtain ⟨hle', hargs⟩ := below_evalAll es (hnext.trans_le hle)
      (fun u hu => (hb u hu).mono hle) hargs
    dsimp only at h
    split at h
    · obtain ⟨hle'', hv⟩ := Class.below_call hargs (hnext.trans_le (hle.trans hle')) h
      exact ⟨hle.trans (hle'.trans hle''), hv⟩
    · cases h
  | var name, _, _, _, _, hb, h => by
    simp only [eval] at h
    split at h
    next hv =>
      cases h
      exact ⟨Nat.le_refl _, hb _ (Bindings.get?_mem hv)⟩
    · cases h
  | item e i, _, _, _, hnext, hb, h => by
    obtain ⟨⟨x, mid⟩, hx, h⟩ := bind_eq_ok.mp h
    obtain ⟨⟨p, late⟩, hp, h⟩ := bind_eq_ok.mp h
    obtain ⟨v, hv, h⟩ := bind_eq_ok.mp h
    cases h
    obtain ⟨hle, hx⟩ := below_eval e hnext hb hx
    have hle' := (below_eval i (hnext.trans_le hle) (fun u hu => (hb u hu).mono hle) hp).1
    exact ⟨hle.trans hle', Below.mono (Datum.Labelled.item hx hv) hle'⟩
  | config fs, _, _, _, hnext, hb, h => by
    obtain ⟨⟨gs, _⟩, hgs, h⟩ := bind_eq_ok.mp h
    obtain ⟨c, hc, h⟩ := bind_eq_ok.mp h
    cases h
    obtain ⟨hle, hgs⟩ := below_evalFields fs hnext hb hgs
    exact ⟨hle, LawConfig.below_ofFields (Datum.below_dedupeFields hgs) (hnext.trans_le hle) hc⟩

theorem below_evalAll : (es : List (Expr C)) → {next last : Nat} → {vs : List (Value C)} →
    0 < next → (∀ u ∈ b.data, u.Below next) → evalAll b es next = .ok (vs, last) →
    next ≤ last ∧ ∀ v ∈ vs, v.Below last
  | [], _, _, _, _, _, h => by
    cases h
    exact ⟨Nat.le_refl _, by simp⟩
  | e :: es, _, _, _, hnext, hb, h => by
    obtain ⟨⟨x, mid⟩, hx, h⟩ := bind_eq_ok.mp h
    obtain ⟨⟨xs, _⟩, hxs, h⟩ := bind_eq_ok.mp h
    cases h
    obtain ⟨hle, hx⟩ := below_eval e hnext hb hx
    obtain ⟨hle', hxs⟩ := below_evalAll es (hnext.trans_le hle)
      (fun u hu => (hb u hu).mono hle) hxs
    exact ⟨hle.trans hle', List.forall_mem_cons.mpr ⟨hx.mono hle', hxs⟩⟩

theorem below_evalFields : (fs : List (String × Expr C)) → {next last : Nat} →
    {gs : List (String × Value C)} → 0 < next → (∀ u ∈ b.data, u.Below next) →
    evalFields b fs next = .ok (gs, last) → next ≤ last ∧ ∀ g ∈ gs, g.2.Below last
  | [], _, _, _, _, _, h => by
    cases h
    exact ⟨Nat.le_refl _, by simp⟩
  | (_, e) :: fs, _, _, _, hnext, hb, h => by
    obtain ⟨⟨x, mid⟩, hx, h⟩ := bind_eq_ok.mp h
    obtain ⟨⟨gs, _⟩, hgs, h⟩ := bind_eq_ok.mp h
    cases h
    obtain ⟨hle, hx⟩ := below_eval e hnext hb hx
    obtain ⟨hle', hgs⟩ := below_evalFields fs (hnext.trans_le hle)
      (fun u hu => (hb u hu).mono hle) hgs
    exact ⟨hle.trans hle', List.forall_mem_cons.mpr ⟨hx.mono hle', hgs⟩⟩

end

end Expr

structure MultiplyState.Placed (s : MultiplyState C) : Prop where
  pos : 0 < s.next
  operand : s.operand.Below s.next
  writes : ∀ w ∈ s.writes, w.Labelled (· < s.next)

theorem Write.Labelled.mono {P Q : Nat → Prop} {w : Write C} (h : w.Labelled P)
    (hPQ : ∀ l, P l → Q l) : w.Labelled Q := by
  cases w with
  | object new => trivial
  | list m ys => exact fun v hv => Datum.Labelled.mono (h v hv) hPQ

/-- From state `s`, a step hands out labels before they are used, also in the data that it yields.
-/
structure Places {α : Type} (s : MultiplyState C) (m : MultiplyM C α) (data : α → List (Value C)) :
    Prop where
  le : s.next ≤ (m.run s).2.next
  placed : (m.run s).2.Placed
  below : ∀ v ∈ yields data (m.run s).1, v.Below (m.run s).2.next

namespace Places

variable {α β : Type} {s : MultiplyState C} {data : α → List (Value C)}

theorem of_run {m : MultiplyM C α} {r : Except Fault α} {n : Nat} (hs : s.Placed)
    (hrun : m.run s = (r, { s with next := n })) (hle : s.next ≤ n)
    (hr : ∀ v ∈ yields data r, v.Below n) : Places s m data := by
  have hplaced : (MultiplyState.mk s.operand s.writes n).Placed :=
    ⟨hs.pos.trans_le hle, hs.operand.mono hle,
      fun w hw => (hs.writes w hw).mono fun _ hl => hl.trans_le hle⟩
  constructor <;> rw [hrun]
  · exact hle
  · exact hplaced
  · exact hr

theorem throw (hs : s.Placed) (f : Fault) : Places s (throw f : MultiplyM C α) data :=
  .of_run (r := .error f) hs rfl (Nat.le_refl _) (by simp [yields])

theorem pure (hs : s.Placed) {a : α} (ha : ∀ v ∈ data a, v.Below s.next) :
    Places s (pure a : MultiplyM C α) data :=
  .of_run (r := .ok a) hs rfl (Nat.le_refl _) ha

theorem bind {m : MultiplyM C β} {f : β → MultiplyM C α} {source : β → List (Value C)}
    (hm : Places s m source) (hf : ∀ {b t}, t.Placed → s.next ≤ t.next →
      (∀ v ∈ source b, v.Below t.next) → Places t (f b) data) : Places s (m >>= f) data := by
  obtain ⟨hle, hplaced, hbelow⟩ := hm
  rcases hrun : m.run s with ⟨g | b, t⟩
  · rw [hrun] at hle hplaced
    constructor <;> rw [run_bind, hrun]
    · exact hle
    · exact hplaced
    · simp [yields]
  · rw [hrun] at hle hplaced hbelow
    obtain ⟨hle', hplaced', hbelow'⟩ := hf hplaced hle hbelow
    constructor <;> rw [run_bind, hrun]
    · exact hle.trans hle'
    · exact hplaced'
    · exact hbelow'

theorem get_bind {f : MultiplyState C → MultiplyM C α} (h : Places s (f s) data) :
    Places s (get >>= f) data :=
  ⟨h.le, h.placed, h.below⟩

theorem changeInPlace {w : Write C} (hs : s.Placed) (hw : w.Labelled (· < s.next)) :
    Places s (Object.changeInPlace w) fun _ => [] where
  le := Nat.le_refl _
  placed := by
    refine ⟨hs.pos, Datum.Labelled.write hs.operand hw, fun u hu => ?_⟩
    rcases List.mem_append.mp hu with hu | hu
    · exact hs.writes u hu
    · exact List.mem_singleton.mp hu ▸ hw
  below := fun _ hv => absurd hv List.not_mem_nil

end Places

namespace Object

variable {s : MultiplyState C}

private theorem places_multiplyInt (hs : s.Placed) (k : IntKind) (m : Int) :
    Places s (multiplyInt k m) fun v => [v] := by
  apply Places.get_bind
  cases productInt k m s.operand with
  | error f => exact .throw hs f
  | ok p =>
    refine .of_run (r := .ok (.diff (int s.next k p))) (n := s.next + 1) hs rfl (Nat.le_succ _) ?_
    simp [yields, Below]

private theorem places_multiplyPresent (hs : s.Placed) : Places s multiplyPresent fun v => [v] := by
  apply Places.get_bind
  cases hcopy : s.operand.deepCopy s.next with
  | error f => exact .throw hs f
  | ok r =>
    obtain ⟨hle, hbelow⟩ := hs.operand.deepCopy hcopy
    exact .of_run (r := .ok r.1) (n := r.2) hs rfl hle (by simpa [yields] using hbelow)

private theorem places_changeReceiver (hs : s.Placed) (l : Nat) (n : C.Name)
    (before after : C.State) :
    Places s (changeReceiver l n before after) fun _ => [] := by
  unfold changeReceiver
  split
  · exact .pure hs (by simp)
  · exact .changeInPlace hs trivial

private theorem places_appendToOperand (hs : s.Placed) (ns : List Int) :
    Places s (appendToOperand ns) fun _ => [] := by
  apply Places.get_bind
  split
  next m xs hop =>
    split
    · exact .pure hs (by simp)
    · refine .changeInPlace hs fun v hv => ?_
      rcases List.mem_append.mp hv with hv | hv
      · have hoperand := hs.operand
        rw [hop] at hoperand
        exact (Datum.labelled_list.mp hoperand).2 v hv
      · obtain ⟨n, -, rfl⟩ := List.mem_map.mp hv
        exact Datum.labelled_int n
  · exact .pure hs (by simp)

private theorem places_customOutput (hs : s.Placed) (o : ProductOutput) :
    Places s (customOutput o) fun v => [v] := by
  cases o with
  | number n => exact .pure hs (by simp [Below])
  | operand =>
    apply Places.get_bind
    have hoperand := hs.operand
    split
    next l xs hop =>
      rw [hop] at hoperand
      refine .pure hs (List.forall_mem_singleton.mpr ?_)
      exact Datum.labelled_list.mpr ⟨hs.pos, (Datum.labelled_list.mp hoperand).2⟩
    · exact .pure hs (List.forall_mem_singleton.mpr hoperand)

private theorem places_multiplyCustom (hs : s.Placed) (l : Nat) (n : C.Name) (c : C.State) :
    Places s (multiplyCustom l n c) fun v => [v] := by
  apply Places.get_bind
  split
  · dsimp only
    split
    · exact .throw hs _
    · refine (places_changeReceiver hs l n _ _).bind fun hs' _ _ => ?_
      exact (places_appendToOperand hs' _).bind fun hs'' _ _ => places_customOutput hs'' _
  · exact .throw hs _

mutual

/-- A multiplication hands out labels before they are used. -/
theorem places_multiplyOperand : (x : Object C) → {s : MultiplyState C} → s.Placed →
    Places s (multiplyOperand x) fun v => [v]
  | int _ k m, _, hs => places_multiplyInt hs k m
  | present, _, hs => places_multiplyPresent hs
  | custom l n c, _, hs => places_multiplyCustom hs l n c
  | tuple _ ts xs, s, hs => by
    rw [multiplyOperand]
    split
    · refine (places_multiplyAll xs hs).bind fun hs' _ hvs => .pure hs' ?_
      exact List.forall_mem_singleton.mpr (Datum.labelled_tuple.mpr ⟨hs'.pos, hvs⟩)
    · exact .throw hs _
  | vec _ t xs, s, hs => by
    rw [multiplyOperand]
    split
    · refine (places_multiplyAll xs hs).bind fun hs' _ hvs => .pure hs' ?_
      exact List.forall_mem_singleton.mpr (Datum.labelled_list.mpr ⟨hs'.pos, hvs⟩)
    · exact .throw hs _

private theorem places_multiplyAll : (xs : List (Object C)) → {s : MultiplyState C} → s.Placed →
    Places s (multiplyAll xs) fun vs => vs
  | [], _, hs => .pure hs (by simp)
  | x :: xs, s, hs => by
    rw [multiplyAll]
    refine (places_multiplyOperand x hs).bind fun hs' _ hy => .get_bind ?_
    refine (places_multiplyAll xs hs').bind fun {_ u} hs'' hle hys => .get_bind (.pure hs'' ?_)
    refine List.forall_mem_cons.mpr ⟨?_, hys⟩
    have hy := (List.forall_mem_singleton.mp hy).mono hle
    exact Datum.Labelled.writes hy fun w hw => hs''.writes w (List.mem_of_mem_drop hw)

end

end Object

end DiffAlgebra
