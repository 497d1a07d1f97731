import DiffAlgebra.Proofs.Laws.BuiltIn
import DiffAlgebra.Proofs.Laws.Purity

/-!
# Trapping arithmetic is exact

On integers of trapping kinds an operation either gives what it comes to in the integers, or
overflows. It overflows just if one of the values that it computes on the way is out of range: an
operand that is built from raw integers, or one of the sums. An operation that the type has does not
fail in another way.
-/

namespace DiffAlgebra

variable {C : Catalog}

abbrev DiffType.Trapping (t : DiffType C) : Prop := t.Over (·.family ≠ .wrapping)

/-- The computation gives the value if the condition holds, and overflows otherwise. -/
def Guarded {α : Type} (p : Prop) (r : Except Fault α) (a : α) : Prop :=
  (p ∧ r = .ok a) ∨ (¬ p ∧ ∃ f, r = .error f ∧ f.kind = .overflow)

namespace Guarded

variable {α β : Type} {p q : Prop} {r : Except Fault α} {a : α} {b : β}

theorem pure (hp : p) (a : α) : Guarded p (.ok a) a := Or.inl ⟨hp, rfl⟩

theorem congr (h : Guarded p r a) (hpq : p ↔ q) : Guarded q r a := by
  unfold Guarded
  rwa [← hpq]

theorem bind {k : α → Except Fault β} (h : Guarded p r a) (hk : p → Guarded q (k a) b) :
    Guarded (p ∧ q) (r >>= k) b := by
  rcases h with ⟨hp, rfl⟩ | ⟨hp, f, rfl, hf⟩
  · exact (hk hp).congr (by simp [hp])
  · exact Or.inr ⟨fun h => hp h.1, f, rfl, hf⟩

theorem map (h : Guarded p r a) (g : α → β) : Guarded p (r.map g) (g a) := by
  rcases h with ⟨hp, rfl⟩ | ⟨hp, f, rfl, hf⟩
  · exact Or.inl ⟨hp, rfl⟩
  · exact Or.inr ⟨hp, f, rfl, hf⟩

end Guarded

/-- A trapping kind stores an exact result, or overflows. -/
theorem IntKind.guarded_fit {k : IntKind} (hk : k.family ≠ .wrapping) (op : ArithOp) (n : Int) :
    Guarded (k.Holds n) (k.fit op n) n := by
  rw [fit_eq, settle_of_family_ne hk]
  by_cases h : k.Holds n
  · exact Or.inl ⟨h, if_pos h⟩
  · exact Or.inr ⟨h, _, if_neg h, rfl⟩

open Diff (Exact Shaped InRange)

/-- Data that stand for values of types: values of just these types, and raw integers and lists of
their shape. -/
inductive StandFor : List (DiffType C) → List (Value C) → List (Diff C) → Prop where
  | nil : StandFor [] [] []
  | diff {t : DiffType C} {x : Object C} {ts vs ds} (exact : Exact t x.value)
      (others : StandFor ts vs ds) : StandFor (t :: ts) (.diff x :: vs) (x.value :: ds)
  | int {k : IntKind} {n : Int} {ts vs ds} (others : StandFor ts vs ds) :
      StandFor (.int k :: ts) (.int n :: vs) (.int k n :: ds)
  | tuple {l : Nat} {us ws es ts vs ds} (components : StandFor us ws es)
      (others : StandFor ts vs ds) :
      StandFor (.tuple us :: ts) (.list l ws :: vs) (.tuple (some us) es :: ds)
  | vec {l : Nat} {t : DiffType C} {us ws es ts vs ds} (types : ∀ u ∈ us, u = t)
      (elements : StandFor us ws es) (others : StandFor ts vs ds) :
      StandFor (.vec t :: ts) (.list l ws :: vs) (.vec (some t) es :: ds)

namespace StandFor

variable {t : DiffType C} {v : Value C} {d : Diff C} {ts : List (DiffType C)}
  {vs : List (Value C)} {ds : List (Diff C)}

theorem cons (h : StandFor [t] [v] [d]) (hs : StandFor ts vs ds) :
    StandFor (t :: ts) (v :: vs) (d :: ds) := by
  cases h with
  | diff exact => exact .diff exact hs
  | int => exact .int hs
  | tuple components => exact .tuple components hs
  | vec types elements => exact .vec types elements hs

private theorem uncons (h : StandFor (t :: ts) (v :: vs) (d :: ds)) :
    StandFor [t] [v] [d] ∧ StandFor ts vs ds := by
  cases h with
  | diff exact others => exact ⟨.diff exact .nil, others⟩
  | int others => exact ⟨.int .nil, others⟩
  | tuple components others => exact ⟨.tuple components .nil, others⟩
  | vec types elements others => exact ⟨.vec types elements .nil, others⟩

theorem length_eq (h : StandFor ts vs ds) : ts.length = vs.length ∧ vs.length = ds.length := by
  induction h with
  | nil => exact ⟨rfl, rfl⟩
  | _ => simp_all

theorem settleAll (h : StandFor ts vs ds) (next : Nat) :
    StandFor ts (Datum.settleAll vs next).1 ds := by
  induction h generalizing next with
  | nil => exact .nil
  | diff exact _ ih => exact .diff exact (ih _)
  | int _ ih => exact .int (ih _)
  | tuple _ _ ih ih' => exact .tuple (ih _) (ih' _)
  | vec types _ _ ih ih' => exact .vec types (ih _) (ih' _)

theorem shaped (h : StandFor ts vs ds) (hts : ∀ t ∈ ts, t.Trapping) :
    List.Forall₂ (Shaped fun _ _ => True) ts ds := by
  induction h with
  | nil => exact .nil
  | diff exact _ ih =>
    obtain ⟨ht, hts⟩ := List.forall_mem_cons.mp hts
    exact .cons ((exact.shaped ht).mono fun _ _ _ => trivial) (ih hts)
  | int _ ih => exact .cons (.int trivial) (ih (List.forall_mem_cons.mp hts).2)
  | tuple _ _ ih ih' =>
    obtain ⟨ht, hts⟩ := List.forall_mem_cons.mp hts
    cases ht with
    | tuple components => exact .cons (.tuple_of_forall₂ (ih components)) (ih' hts)
  | @vec l t us ws es _ _ _ types _ _ ih ih' =>
    obtain ⟨ht, hts⟩ := List.forall_mem_cons.mp hts
    cases ht with
    | vec element =>
      refine .cons (.vec fun e he => ?_) (ih' hts)
      obtain ⟨u, hu, hue⟩ := exists_mem_of_forall₂ (ih fun u hu => types u hu ▸ element) he
      exact types u hu ▸ hue

end StandFor

namespace Draft

theorem coerceAll_cons {δ : Type} [DiffView δ C] (t : DiffType C) (ts : List (DiffType C))
    (v : Datum C δ) (vs : List (Datum C δ)) :
    coerceAll (t :: ts) (v :: vs) =
      coerce t v >>= fun x => coerceAll ts vs >>= fun xs => .ok (x :: xs) :=
  rfl

/-- The elements of a sequence are coerced as the components of a tuple of one type are. -/
theorem coerceAll_eq_mapM {δ : Type} [DiffView δ C] {t : DiffType C} {ts : List (DiffType C)}
    {vs : List (Datum C δ)} (hts : ∀ u ∈ ts, u = t) (hlength : ts.length = vs.length) :
    coerceAll ts vs = vs.mapM (coerce t) := by
  induction ts generalizing vs with
  | nil =>
    obtain rfl := List.length_eq_zero_iff.mp hlength.symm
    rfl
  | cons u ts ih =>
    cases vs with
    | nil => cases hlength
    | cons v vs =>
      obtain ⟨rfl, hts⟩ := List.forall_mem_cons.mp hts
      rw [coerceAll_cons, List.mapM_cons, ih hts (Nat.succ.inj hlength)]
      rfl

variable {l : Nat} {t : DiffType C} {ts : List (DiffType C)} {vs : List (Value C)}

private theorem map_valueAll_coerceAll_cons (v : Value C) :
    (coerceAll (t :: ts) (v :: vs)).map valueAll =
      (coerce t v).map value >>= fun d => ((coerceAll ts vs).map valueAll).map (d :: ·) := by
  rw [coerceAll_cons]
  cases coerce t v with
  | error f => rfl
  | ok x => cases coerceAll ts vs <;> rfl

private theorem map_value_coerce_int (k : IntKind) (n : Int) :
    (coerce (.int k) (.int n : Value C)).map value = (k.ofInt n).map (.int k) := by
  change ((k.ofInt n >>= fun n => .ok (.int k n) : Except Fault (Draft C (Object C))).map _) = _
  cases k.ofInt n <;> rfl

private theorem map_value_coerce_tuple (hlength : ts.length = vs.length) :
    (coerce (.tuple ts) (.list l vs)).map value =
      ((coerceAll ts vs).map valueAll).map (.tuple (some ts)) := by
  have hitems : (Datum.list l vs).items = .ok vs := rfl
  simp only [coerce, keepOr, refuse, hitems, ok_bind, hlength, if_true]
  cases coerceAll ts vs <;> rfl

private theorem map_value_coerce_vec (hts : ∀ u ∈ ts, u = t) (hlength : ts.length = vs.length) :
    (coerce (.vec t) (.list l vs)).map value =
      ((coerceAll ts vs).map valueAll).map (.vec (some t)) := by
  have hitems : (Datum.list l vs).items = .ok vs := rfl
  rw [coerceAll_eq_mapM hts hlength]
  simp only [coerce, keepOr, refuse, hitems, ok_bind]
  cases vs.mapM (coerce t) <;> rfl

end Draft

/-- Data are coerced to what they stand for if that is in range, and overflow otherwise. -/
theorem StandFor.guarded {ts : List (DiffType C)} {vs : List (Value C)} {ds : List (Diff C)}
    (h : StandFor ts vs ds) (hts : ∀ t ∈ ts, t.Trapping) :
    Guarded (∀ d ∈ ds, d.InRange) ((Draft.coerceAll ts vs).map Draft.valueAll) ds := by
  have hcons {t : DiffType C} {v : Value C} {d : Diff C} {ts vs ds}
      (hd : Guarded d.InRange ((Draft.coerce t v).map Draft.value) d)
      (hds : Guarded (∀ d ∈ ds, d.InRange) ((Draft.coerceAll ts vs).map Draft.valueAll) ds) :
      Guarded (∀ e ∈ d :: ds, e.InRange)
        ((Draft.coerceAll (t :: ts) (v :: vs)).map Draft.valueAll) (d :: ds) := by
    rw [Draft.map_valueAll_coerceAll_cons]
    exact (hd.bind fun _ => hds.map _).congr List.forall_mem_cons.symm
  induction h with
  | nil => exact .pure (by simp) _
  | @diff t x _ _ _ exact _ ih =>
    obtain ⟨ht, hts⟩ := List.forall_mem_cons.mp hts
    refine hcons ?_ (ih hts)
    have hisA : x.value.isA t = true := by
      rw [Diff.isA, exact.typeOf_eq]
      exact DiffType.isSub_self t
    rw [← Draft.coerce_values t (Datum.diff x)]
    change Guarded _ (Diff.coerce t (.diff x.value)) _
    rw [Diff.coerce_of_isA hisA]
    exact .pure (exact.shaped_of_over ht).inRange _
  | @int k n _ _ _ _ ih =>
    obtain ⟨ht, hts⟩ := List.forall_mem_cons.mp hts
    refine hcons ?_ (ih hts)
    cases ht with
    | int kind =>
      rw [Draft.map_value_coerce_int]
      exact ((IntKind.guarded_fit kind .construct n).map _).congr Diff.inRange_int.symm
  | @tuple l us ws es _ _ _ components _ ih ih' =>
    obtain ⟨ht, hts⟩ := List.forall_mem_cons.mp hts
    refine hcons ?_ (ih' hts)
    cases ht with
    | tuple htypes =>
      rw [Draft.map_value_coerce_tuple components.length_eq.1]
      refine ((ih htypes).map _).congr ?_
      rw [Diff.inRange_iff_parts (by simp)]
      rfl
  | @vec l t us ws es _ _ _ types elements _ ih ih' =>
    obtain ⟨ht, hts⟩ := List.forall_mem_cons.mp hts
    refine hcons ?_ (ih' hts)
    cases ht with
    | vec element =>
      rw [Draft.map_value_coerce_vec types elements.length_eq.1]
      refine ((ih fun u hu => types u hu ▸ element).map _).congr ?_
      rw [Diff.inRange_iff_parts (by simp)]
      rfl

theorem StandFor.guarded_coerce {t : DiffType C} {v : Value C} {d : Diff C}
    (h : StandFor [t] [v] [d]) (ht : t.Trapping) :
    Guarded d.InRange (Diff.coerce t v.values) d := by
  have hlist := h.guarded (by simpa using ht)
  rw [Draft.map_valueAll_coerceAll_cons, ← Draft.coerce_values t v] at hlist
  change Guarded _ ((Diff.coerce t v.values).map fun d => [d]) _ at hlist
  rcases hlist with ⟨hd, h⟩ | ⟨hd, f, h, hf⟩
  · obtain ⟨e, he, hed⟩ := map_eq_ok.mp h
    obtain rfl := List.singleton_inj.mp hed
    exact Or.inl ⟨hd e List.mem_cons_self, he⟩
  · exact Or.inr ⟨by simpa using hd, f, map_eq_error.mp h, hf⟩

theorem StandFor.shaped_one {t : DiffType C} {v : Value C} {d : Diff C} (h : StandFor [t] [v] [d])
    (ht : t.Trapping) : Shaped (fun _ _ => True) t d :=
  (List.forall₂_cons.mp (h.shaped (by simpa using ht))).1

namespace Diff

/-- What adding operands one after the other computes: each operand, and the sum up to it. -/
def partialSums (x : Diff C) : List (Diff C) → List (Diff C)
  | [] => []
  | e :: es => e :: merge x e :: partialSums (merge x e) es

theorem getLast?_partialSums (x : Diff C) (es : List (Diff C)) :
    (x :: partialSums x es).getLast? = some (es.foldl merge x) := by
  induction es generalizing x with
  | nil => rfl
  | cons e es ih =>
    have h := ih (merge x e)
    simpa [partialSums, List.getLast?_cons_cons] using h

namespace Shaped

variable {t : DiffType C} {x e : Diff C} {v : Value C} {ts : List (DiffType C)}
  {vs : List (Value C)} {es : List (Diff C)}

/-- The sum of values of trapping kinds has the sum of the integers at each place, without bounds.
-/
theorem leafAt_merge_trapping {P : IntKind → Int → Prop}
    (hx : Shaped (fun k _ => k.family ≠ .wrapping) t x) (he : Shaped P t e) (path : List Nat) :
    (merge x e).leafAt path =
      Option.merge (fun a b => (a.1, a.2 + b.2)) (x.leafAt path) (e.leafAt path) := by
  rw [hx.leafAt_merge he]
  cases hleaf : x.leafAt path with
  | none => cases e.leafAt path <;> rfl
  | some a =>
    cases e.leafAt path with
    | none => rfl
    | some b =>
      change some (mergeLeaf a b) = _
      rw [mergeLeaf, IntKind.settle_of_family_ne (hx.leaf hleaf)]
      rfl

/-- The inverse of a value of trapping kinds has the negative of the integer at each place, without
bounds. -/
theorem leafAt_invert_trapping (hx : Shaped (fun k _ => k.family ≠ .wrapping) t x)
    (path : List Nat) : x.invert.leafAt path = (x.leafAt path).map fun a => (a.1, -a.2) := by
  rw [leafAt_invert]
  refine Option.map_congr fun a ha => ?_
  rw [IntKind.settle_of_family_ne (hx.leaf ha)]

/-- A sum is the exact one if both the operand and it are in range, and overflows otherwise. -/
theorem guarded_plus (hx : Shaped IntKind.Holds t x) (ht : t.Trapping)
    (h : StandFor [t] [v] [e]) :
    Guarded (e.InRange ∧ (merge x e).InRange) (x.plus v.values) (merge x e) := by
  have htype := hx.typeOf_eq
  unfold plus
  rw [htype]
  refine (h.guarded_coerce ht).bind fun hrange => ?_
  have hy : Shaped IntKind.Holds t e := (h.shaped_one ht).holds_iff_inRange.mpr hrange
  rw [(hx.takes hy).add_eq hx.summand hy.summand]
  rcases checked_cases (merge x e) with ⟨hrange, h⟩ | ⟨hrange, k, n, h⟩
  · exact Or.inl ⟨hrange, h⟩
  · exact Or.inr ⟨hrange, _, h, rfl⟩

theorem guarded_plusAll (hx : Shaped IntKind.Holds t x) (ht : t.Trapping)
    (h : StandFor ts vs es) (hts : ∀ u ∈ ts, u = t) :
    Guarded (∀ d ∈ partialSums x es, d.InRange) (x.plusAll (vs.map Datum.values))
      (es.foldl merge x) := by
  induction vs generalizing ts es x with
  | nil =>
    cases h
    exact .pure (by simp [partialSums]) _
  | cons v vs ih =>
    obtain ⟨u, ts, rfl⟩ : ∃ u us, ts = u :: us :=
      List.exists_cons_of_length_eq_add_one h.length_eq.1
    obtain ⟨e, es, rfl⟩ : ∃ e es', es = e :: es' :=
      List.exists_cons_of_length_eq_add_one h.length_eq.2.symm
    obtain ⟨rfl, hts⟩ := List.forall_mem_cons.mp hts
    obtain ⟨hv, hvs⟩ := h.uncons
    have hrest (hrange : e.InRange ∧ (merge x e).InRange) :=
      ih (hx.holds_merge (hv.shaped_one ht) hrange.2) hvs hts
    refine ((hx.guarded_plus ht hv).bind hrest).congr ?_
    rw [partialSums, List.forall_mem_cons, List.forall_mem_cons, and_assoc]

theorem guarded_negate (hx : Shaped IntKind.Holds t x) (ht : t.Trapping)
    (habelian : t.isAbelian = true) : Guarded x.invert.InRange x.negate x.invert := by
  have hsigned : Shaped IntKind.HoldsSigned t x := hx.exact.shaped (ht.over_isSigned habelian)
  rcases Diff.negate_cases x hsigned habelian with ⟨hrange, h⟩ | ⟨hrange, k, n, h⟩
  · exact Or.inl ⟨hrange, h⟩
  · exact Or.inr ⟨hrange, _, h, rfl⟩

theorem negate_eq_error (hx : Shaped IntKind.Holds t x) (h : t.isAbelian = false) :
    ∃ f, x.negate = .error f ∧ f.kind ≠ .overflow := by
  refine ⟨.missingMember, ?_, by decide⟩
  cases hx with
  | @int k n =>
    have hfamily : k.family = .unsigned := by
      rw [DiffType.isAbelian_int] at h
      cases hk : k.family <;> simp_all [IntKind.isSigned]
    simp [negate, IntKind.neg, hfamily]
  | present => rfl
  | tuple | vec => simp [negate, tupleType, vecType, h]

end Shaped

mutual

def allZero : DiffType C → Diff C
  | .int k => .int k 0
  | .tuple ts => .tuple (some ts) (allZeros ts)
  | .vec t => .vec (some t) []
  | _ => .present

def allZeros : List (DiffType C) → List (Diff C)
  | [] => []
  | t :: ts => allZero t :: allZeros ts

end

private theorem allZeros_eq_map (ts : List (DiffType C)) : allZeros ts = ts.map allZero := by
  induction ts with
  | nil => rfl
  | cons t ts ih => rw [allZeros, ih, List.map_cons]

section Zero

variable {P : IntKind → Prop} {t : DiffType C}

theorem zero?_eq_ok (ht : t.Over P) (hmonoid : t.isMonoid = true) :
    zero? t = .ok (some (allZero t)) := by
  induction ht with
  | int => rfl
  | present => cases hmonoid
  | @tuple ts _ ih =>
    have hall (t : DiffType C) (ht : t ∈ ts) : zero? t = .ok (some (allZero t)) :=
      ih t ht (isMonoid_of_mem hmonoid ht)
    obtain ⟨zs, hz, hzs⟩ := exists_zero_tuple hmonoid fun t ht => ⟨_, hall t ht⟩
    have hsame : List.Forall₂ (· = ·) (ts.map allZero) zs := by
      refine List.forall₂_map_left_iff.mpr ?_
      refine ((List.forall₂_and_left ts zs).mpr ⟨hall, hzs⟩).imp fun t z h => ?_
      exact Option.some.inj (Except.ok.inj (h.1.symm.trans h.2))
    rw [List.forall₂_eq_eq_eq] at hsame
    rw [hz, ← hsame, allZero, allZeros_eq_map]
  | vec => exact if_pos hmonoid

theorem zero?_eq_error (ht : t.Over P) (hmonoid : t.isMonoid = false) :
    ∃ f, zero? t = .error f ∧ f.kind ≠ .overflow :=
  ⟨.missingMember, zero?_eq_missingMember ht.composed hmonoid, by decide⟩

theorem shaped_allZero (ht : t.Over P) (hmonoid : t.isMonoid = true) :
    Shaped IntKind.Holds t (allZero t) := by
  obtain ⟨z, hz, -, hshape⟩ := exists_zero ht hmonoid
  cases hz.symm.trans (zero?_eq_ok ht hmonoid)
  exact hshape

end Zero

end Diff

namespace Object

theorem guarded_productInt {k : IntKind} (hk : k.family ≠ .wrapping) (m : Int) {n : Int}
    {v : Value C} (h : StandFor [.int k] [v] [.int k n]) :
    Guarded (k.Holds n ∧ k.Holds (m * n)) (productInt k m v) (m * n) := by
  rw [productInt_eq]
  refine ((h.guarded_coerce (.int hk)).congr Diff.inRange_int).bind fun _ => ?_
  exact IntKind.guarded_fit hk .multiply (m * n)

end Object

end DiffAlgebra
