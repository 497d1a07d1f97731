import DiffAlgebra.Proofs.Addition.Padding
import DiffAlgebra.Proofs.Sharing.Results

/-!
# Negation takes an addition back

Negation is partial: the least integer of a trapping kind has no inverse, while that of a wrapping
kind is its own. Where a value has an inverse, adding the inverse after the value never overflows.
It takes the addition back up to the length of sequences, which negation cannot undo: what the value
had added beyond the end of a sequence remains there as zeros.
-/

namespace DiffAlgebra

variable {C : Catalog}

namespace IntKind

variable {k : IntKind} {n : Int}

private theorem settle_zero (k : IntKind) : k.settle 0 = 0 := settle_of_holds k.holds_zero

private theorem settle_neg_settle (k : IntKind) (n : Int) :
    k.settle (-k.settle n) = k.settle (-n) := by
  calc k.settle (-k.settle n)
      = k.settle (n + (-n - k.settle n)) := by congr 1; omega
    _ = k.settle (k.settle n + (-n - k.settle n)) := (k.settle_settle_add _ _).symm
    _ = k.settle (-n) := by congr 1; omega

/-- The inverse of a signed integer is in range unless the kind traps and the integer is its least.
-/
theorem holds_settle_neg (hk : k.isSigned = true) (h : k.Holds n) :
    k.Holds (k.settle (-n)) ↔ (k.family = .signed → n ≠ k.min) := by
  cases hfamily : k.family with
  | unsigned => simp [isSigned, hfamily] at hk
  | wrapping => simp [settle, hfamily, k.holds_wrap]
  | signed =>
    have hpos := k.half_pos
    obtain ⟨hlow, hhigh⟩ := h
    simp only [Holds, settle, hfamily, min, max, hk, if_true, true_imp_iff] at hlow hhigh ⊢
    omega

private theorem neg_eq (hk : k.isSigned = true) : k.neg n = k.fit .negate (-n) := by
  cases hfamily : k.family with
  | unsigned => simp [isSigned, hfamily] at hk
  | signed | wrapping => simp [neg, hfamily]

end IntKind

def IntKind.HoldsSigned (k : IntKind) (n : Int) : Prop := k.isSigned = true ∧ k.Holds n

theorem DiffType.isAbelian_int (k : IntKind) :
    (.int k : DiffType C).isAbelian = k.isSigned := by
  cases hk : k.isSigned <;> simp [isAbelian, tierOf, hk, Tier.provides, Tier.rank]

theorem DiffType.isAbelian_of_mem {ts : List (DiffType C)}
    (h : (DiffType.tuple ts).isAbelian = true) {t : DiffType C} (ht : t ∈ ts) :
    t.isAbelian = true :=
  provides_tierAll_iff.mp h t ht

/-- Types that have negation have no unsigned integers. -/
theorem DiffType.Over.over_isSigned {P : IntKind → Prop} {t : DiffType C} (ht : t.Over P)
    (h : t.isAbelian = true) : t.Over (·.isSigned = true) := by
  induction ht with
  | @int k => exact .int (isAbelian_int k ▸ h)
  | present => exact .present
  | tuple _ ih => exact .tuple fun t ht => ih t ht (isAbelian_of_mem h ht)
  | vec _ ih => exact .vec (ih h)

theorem DiffType.Concrete.over_isSigned {t : DiffType C} (ht : t.Concrete)
    (h : t.isAbelian = true) : t.Over (·.isSigned = true) :=
  ht.over.over_isSigned h

namespace Diff

mutual

/-- The inverse of a value without regard for ranges. -/
def invert : Diff C → Diff C
  | int k n => int k (k.settle (-n))
  | present => present
  | custom n s => custom n s
  | tuple ts xs => tuple ts (invertAll xs)
  | vec t xs => vec t (invertAll xs)

def invertAll : List (Diff C) → List (Diff C)
  | [] => []
  | x :: xs => invert x :: invertAll xs

end

theorem invertAll_eq_map (xs : List (Diff C)) : invertAll xs = xs.map invert := by
  induction xs with
  | nil => rfl
  | cons x xs ih => simp [invertAll, ih]

theorem parts_invert (x : Diff C) : x.invert.parts = x.parts.map invert := by
  cases x <;> simp [invert, parts, invertAll_eq_map]

theorem leafAt_invert (x : Diff C) (path : List Nat) :
    x.invert.leafAt path = (x.leafAt path).map fun a => (a.1, a.1.settle (-a.2)) := by
  induction path generalizing x with
  | nil => cases x <;> rfl
  | cons i path ih =>
    rw [leafAt_cons, leafAt_cons, parts_invert, List.getElem?_map]
    cases x.parts[i]? with
    | none => rfl
    | some y => exact ih y

/-- No trapping signed integer is the least of its kind. -/
def Negatable (x : Diff C) : Prop :=
  ∀ path k n, x.leafAt path = some (k, n) → k.family = .signed → n ≠ k.min

namespace Shaped

variable {P Q : IntKind → Int → Prop} {t : DiffType C} {x : Diff C}

theorem invert (h : Shaped P t x) (hPQ : ∀ k n, P k n → Q k (k.settle (-n))) :
    Shaped Q t x.invert := by
  induction h with
  | int leaf => exact .int (hPQ _ _ leaf)
  | present => exact .present
  | @tuple ts xs length_eq _ ih =>
    refine .tuple (by simpa [invertAll_eq_map] using length_eq) fun p hp => ?_
    rw [invertAll_eq_map, List.zip_map_right] at hp
    obtain ⟨q, hq, rfl⟩ := List.mem_map.mp hp
    exact ih q hq
  | vec _ ih =>
    refine .vec fun x hx => ?_
    rw [invertAll_eq_map] at hx
    obtain ⟨y, hy, rfl⟩ := List.mem_map.mp hx
    exact ih y hy

theorem invert_invert (h : Shaped IntKind.Holds t x) : x.invert.invert = x := by
  induction h with
  | int leaf =>
    simp only [Diff.invert, IntKind.settle_neg_settle, Int.neg_neg, IntKind.settle_of_holds leaf]
  | present => rfl
  | @tuple ts xs length_eq _ ih =>
    have hall : xs.map (Diff.invert ∘ Diff.invert) = xs := by
      refine (List.map_congr_left fun x hx => ?_).trans (List.map_id xs)
      obtain ⟨t, ht⟩ := exists_mem_zip length_eq hx
      exact ih (t, x) ht
    simpa [Diff.invert, invertAll_eq_map] using hall
  | @vec t xs _ ih =>
    have hall : xs.map (Diff.invert ∘ Diff.invert) = xs :=
      (List.map_congr_left fun x hx => ih x hx).trans (List.map_id xs)
    simpa [Diff.invert, invertAll_eq_map] using hall

theorem inRange_invert_iff (h : Shaped IntKind.HoldsSigned t x) :
    x.invert.InRange ↔ x.Negatable := by
  constructor
  · intro hrange path k n hleaf
    obtain ⟨hk, hn⟩ := h.leaf hleaf
    refine (IntKind.holds_settle_neg hk hn).mp (hrange path k _ ?_)
    rw [leafAt_invert, hleaf]
    rfl
  · intro hneg path k n hleaf
    rw [leafAt_invert] at hleaf
    obtain ⟨⟨l, m⟩, hxleaf, heq⟩ := Option.map_eq_some_iff.mp hleaf
    cases heq
    obtain ⟨hk, hm⟩ := h.leaf hxleaf
    exact (IntKind.holds_settle_neg hk hm).mpr (hneg path _ m hxleaf)

theorem isZero_merge_invert (h : Shaped P t x) (habelian : t.isAbelian = true) :
    (merge x x.invert).isZero = true := by
  induction h with
  | @int k n =>
    simp only [merge, Diff.invert, IntKind.settle_add_settle, Int.add_right_neg, IntKind.settle_zero,
      isZero, beq_self_eq_true]
  | present => cases habelian
  | @tuple ts xs length_eq _ ih =>
    refine isZeroAll_iff.mpr fun i z hz => ?_
    rw [parts_invert, parts, getElem?_mergeAll, List.getElem?_map] at hz
    cases hx : xs[i]? with
    | none => simp [hx] at hz
    | some x =>
      rw [hx] at hz
      cases hz
      obtain ⟨t, ht⟩ := exists_getElem?_eq length_eq hx
      exact ih (t, x) (mem_zip_of_getElem? ht hx)
        (DiffType.isAbelian_of_mem habelian (List.mem_of_getElem? ht))
  | @vec t xs _ ih =>
    refine isZeroAll_iff.mpr fun i z hz => ?_
    rw [parts_invert, parts, getElem?_mergeAll, List.getElem?_map] at hz
    cases hx : xs[i]? with
    | none => simp [hx] at hz
    | some x =>
      rw [hx] at hz
      cases hz
      exact ih x (List.mem_of_getElem? hx) habelian

end Shaped

mutual

/-- The negative of a value is its inverse, if that is in range. -/
theorem negate_cases : (x : Diff C) → {t : DiffType C} → Shaped IntKind.HoldsSigned t x →
    t.isAbelian = true → (x.invert.InRange ∧ x.negate = .ok x.invert) ∨
      (¬ x.invert.InRange ∧ ∃ k n, x.negate = .error (.overflow .negate k n))
  | int k n, _, .int leaf, _ => by
    simp only [invert, inRange_int, negate, IntKind.neg_eq leaf.1, IntKind.fit_eq]
    by_cases h : k.Holds (k.settle (-n))
    · exact Or.inl ⟨h, by simp [h]⟩
    · exact Or.inr ⟨h, k, k.settle (-n), by simp [h]⟩
  | present, _, .present, habelian => by cases habelian
  | tuple (some ts) xs, _, h@(.tuple length_eq components), habelian => by
    have hclone := cloneAll_parts h.clonable
    have hitems : ∀ x ∈ xs, ∃ t : DiffType C, Shaped IntKind.HoldsSigned t x ∧
        t.isAbelian = true := by
      intro x hx
      obtain ⟨t, ht⟩ := exists_mem_zip length_eq hx
      exact ⟨t, components _ ht, DiffType.isAbelian_of_mem habelian (List.of_mem_zip ht).1⟩
    simp only [parts] at hclone
    simp only [negate, tupleType, habelian, if_true, hclone, ok_bind, invert]
    rw [inRange_iff_parts (by simp)]
    rcases negateAll_cases xs hitems with ⟨hrange, h⟩ | ⟨hrange, k, n, h⟩
    · exact Or.inl ⟨hrange, by simp [h]⟩
    · exact Or.inr ⟨hrange, k, n, by simp [h]⟩
  | vec (some t) xs, _, h@(.vec elements), habelian => by
    have hclone := cloneAll_parts h.clonable
    have hitems : ∀ x ∈ xs, ∃ t : DiffType C, Shaped IntKind.HoldsSigned t x ∧
        t.isAbelian = true := fun x hx => ⟨t, elements x hx, habelian⟩
    simp only [parts] at hclone
    simp only [negate, vecType, habelian, if_true, hclone, ok_bind, invert]
    rw [inRange_iff_parts (by simp)]
    rcases negateAll_cases xs hitems with ⟨hrange, h⟩ | ⟨hrange, k, n, h⟩
    · exact Or.inl ⟨hrange, by simp [h]⟩
    · exact Or.inr ⟨hrange, k, n, by simp [h]⟩

theorem negateAll_cases : (xs : List (Diff C)) →
    (∀ x ∈ xs, ∃ t : DiffType C, Shaped IntKind.HoldsSigned t x ∧ t.isAbelian = true) →
    ((∀ x ∈ invertAll xs, x.InRange) ∧ negateAll xs = .ok (invertAll xs)) ∨
      (¬ (∀ x ∈ invertAll xs, x.InRange) ∧
        ∃ k n, negateAll xs = .error (.overflow .negate k n))
  | [], _ => Or.inl ⟨by simp [invertAll], rfl⟩
  | x :: xs, h => by
    obtain ⟨⟨t, hx, ht⟩, hxs⟩ := List.forall_mem_cons.mp h
    simp only [invertAll, List.forall_mem_cons, negateAll]
    rcases negate_cases x hx ht with ⟨hrange, h⟩ | ⟨hrange, k, n, h⟩
    · rcases negateAll_cases xs hxs with ⟨hranges, h'⟩ | ⟨hranges, k, n, h'⟩
      · exact Or.inl ⟨⟨hrange, hranges⟩, by simp [h, h']⟩
      · exact Or.inr ⟨fun hall => hranges hall.2, k, n, by simp [h, h']⟩
    · exact Or.inr ⟨fun hall => hrange hall.1, k, n, by simp [h]⟩

end

namespace Shaped

variable {t : DiffType C} {x y n s : Diff C}

/-- A value is negated unless it has a trapping integer that is the least of its kind. -/
theorem negate_cases (h : Shaped IntKind.HoldsSigned t x) (habelian : t.isAbelian = true) :
    (x.Negatable ∧ x.negate = .ok x.invert ∧ Shaped IntKind.HoldsSigned t x.invert) ∨
    (¬ x.Negatable ∧ ∃ k n, x.negate = .error (.overflow .negate k n)) := by
  rw [← h.inRange_invert_iff]
  refine (Diff.negate_cases x h habelian).imp_left fun ⟨hrange, hnegate⟩ => ⟨hrange, hnegate, ?_⟩
  have hsigned := h.invert (Q := fun k _ => k.isSigned = true) fun _ _ hP => hP.1
  exact hsigned.of_leaves fun path k n hleaf => ⟨hsigned.leaf hleaf, hrange path k n hleaf⟩

theorem negate_eq_ok (h : Shaped IntKind.HoldsSigned t x) (habelian : t.isAbelian = true)
    (hn : x.negate = .ok n) : n = x.invert ∧ Shaped IntKind.HoldsSigned t n := by
  rcases h.negate_cases habelian with ⟨-, hnegate, hshape⟩ | ⟨-, k, m, hf⟩
  · cases hn.symm.trans hnegate
    exact ⟨rfl, hshape⟩
  · cases hn.symm.trans hf

theorem negate_negative (h : Shaped IntKind.HoldsSigned t x) (habelian : t.isAbelian = true)
    (hn : x.negate = .ok n) : n.negate = .ok x := by
  obtain ⟨rfl, hshape⟩ := h.negate_eq_ok habelian hn
  have hx := h.mono fun _ _ hP => hP.2
  rcases hshape.negate_cases habelian with ⟨-, hnegate, -⟩ | ⟨hneg, -⟩
  · rw [hnegate, hx.invert_invert]
  · refine absurd (hshape.inRange_invert_iff.mp ?_) hneg
    rw [hx.invert_invert]
    exact hx.inRange

theorem negative_plus (h : Shaped IntKind.HoldsSigned t x) (habelian : t.isAbelian = true)
    (hn : x.negate = .ok n) : ∃ z, n.plus (.diff x) = .ok z ∧ z.isZero = true := by
  obtain ⟨rfl, hshape⟩ := h.negate_eq_ok habelian hn
  have hx := h.mono fun _ _ hP => hP.2
  have hn' := hshape.mono fun _ _ hP => hP.2
  have hzero : (merge x.invert x).isZero = true := by
    rw [hn'.merge_comm hx]
    exact h.isZero_merge_invert habelian
  rcases hn'.plus_cases hx with ⟨hsum, -⟩ | ⟨hrange, -⟩
  · exact ⟨_, hsum, hzero⟩
  · exact absurd (inRange_of_isZero hzero) hrange

/-- Once a value has been added, adding its negative does not overflow and leaves what there was
before, padded at most. -/
theorem plus_negative (hx : Shaped IntKind.Holds t x) (hy : Shaped IntKind.HoldsSigned t y)
    (habelian : t.isAbelian = true) (hn : y.negate = .ok n) (hs : x.plus (.diff y) = .ok s) :
    ∃ z, s.plus (.diff n) = .ok z ∧ PaddedTo x z := by
  obtain ⟨rfl, hshape⟩ := hy.negate_eq_ok habelian hn
  have hy' := hy.mono fun _ _ hP => hP.2
  have hn' := hshape.mono fun _ _ hP => hP.2
  rcases hx.plus_cases hy' with ⟨hsum, hmerge⟩ | ⟨-, k, m, hf⟩
  · cases hs.symm.trans hsum
    -- grouped the other way, it is a zero that is added, and that is in range
    have hzero := hy.isZero_merge_invert habelian
    have hzeros := hy'.holds_merge hn' (inRange_of_isZero hzero)
    have hpadded : PaddedTo x (merge (merge x y) y.invert) := by
      rw [hx.merge_assoc hy' hn']
      exact hx.paddedTo_merge hzeros hzero
    rcases hmerge.plus_cases hn' with ⟨hsum', -⟩ | ⟨hrange, -⟩
    · exact ⟨_, hsum', hpadded⟩
    · exact absurd (hpadded.padEq.inRange hx.inRange) hrange
  · cases hs.symm.trans hf

end Shaped

end Diff

namespace Session

/-- Negation takes an addition back. It fails just where a trapping signed integer is the least of
its kind, and then by an overflow. What it leaves gives the value back when it is negated again,
adds up to a zero with the value, and, added to any sum with the value, leaves the other summand,
with no more than zeros beyond the ends of its sequences. -/
theorem negate_retracts {t : DiffType C} (ht : t.Concrete) (habelian : t.isAbelian = true)
    {x y : Object C} (hx : Diff.Exact t x.value) (hy : Diff.Exact t y.value) {next : Nat}
    (hlabels : ∀ l ∈ y.labels, l < next) :
    (y.value.Negatable → ∃ d, (negate (.diff y) next).leaves y = .ok d) ∧
    (¬ y.value.Negatable → ∃ f, (negate (.diff y) next).leaves y = .error f ∧ f.kind = .overflow) ∧
    ∀ n : Object C, (negate (.diff y) next).leaves y = .ok n.value →
      ∀ {m}, (∀ l ∈ n.labels, l < m) →
        (negate (.diff n) m).leaves n = .ok y.value ∧
        (∃ z, (plusEquals (.diff n) (.diff y) next).leaves n = .ok z ∧ z.isZero = true) ∧
        ∀ s : Object C, (plusEquals (.diff x) (.diff y) next).leaves x = .ok s.value →
          ∃ z, (plusEquals (.diff s) (.diff n) m).leaves s = .ok z ∧ Diff.PaddedTo x.value z := by
  have hxs := hx.shaped_holds ht
  have hys : Diff.Shaped IntKind.HoldsSigned t y.value := hy.shaped (ht.over_isSigned habelian)
  rw [leaves_negate, leaves_plusEquals hlabels]
  refine ⟨fun hneg => ?_, fun hneg => ?_, fun n hn m hm => ?_⟩
  · rcases hys.negate_cases habelian with ⟨-, h, -⟩ | ⟨h, -⟩
    · exact ⟨_, h⟩
    · exact absurd hneg h
  · rcases hys.negate_cases habelian with ⟨h, -⟩ | ⟨-, k, d, h⟩
    · exact absurd h hneg
    · exact ⟨_, h, rfl⟩
  · rw [leaves_negate, leaves_plusEquals hlabels]
    refine ⟨hys.negate_negative habelian hn, hys.negative_plus habelian hn, fun s hs => ?_⟩
    rw [leaves_plusEquals hm]
    exact hxs.plus_negative hys habelian hn hs

/-- The least integer of a wrapping kind is negated to itself, and a sequence that has grown keeps
its length. -/
theorem negate_retracts_ragged :
    let k : IntKind := ⟨.signed, .w8⟩
    let l : IntKind := ⟨.wrapping, .w8⟩
    let ts : List (DiffType specimens) := [.int k, .vec (.int l)]
    let x : Object specimens := .tuple 1 (some ts) [.int 2 k (-127), .vec 3 (some (.int l)) [.int 4 l 1]]
    let y : Object specimens :=
      .tuple 5 (some ts) [.int 6 k 5, .vec 7 (some (.int l)) [.int 8 l (-128), .int 9 l 7]]
    let n : Object specimens :=
      .tuple 10 (some ts) [.int 11 k (-5), .vec 12 (some (.int l)) [.int 13 l (-128), .int 14 l (-7)]]
    let s : Object specimens :=
      .tuple 15 (some ts) [.int 16 k (-122), .vec 17 (some (.int l)) [.int 18 l (-127), .int 19 l 7]]
    (negate (.diff y) 10).leaves y = .ok n.value ∧
    (plusEquals (.diff x) (.diff y) 10).leaves x = .ok s.value ∧
    (negate (.diff n) 20).leaves n = .ok y.value ∧
    ∃ z, (plusEquals (.diff s) (.diff n) 20).leaves s = .ok z ∧ Diff.PaddedTo x.value z := by
  intro k l ts x y n s
  have ht : (DiffType.tuple ts).Concrete := by
    refine .tuple (by decide) fun t ht => ?_
    simp only [ts, List.mem_cons, List.not_mem_nil, or_false] at ht
    rcases ht with rfl | rfl
    · exact .int k
    · exact .vec (.int l)
  have hexact (m : Int) (ms : List Int) (hm : k.Holds m) (hms : ∀ m ∈ ms, l.Holds m) :
      Diff.Exact (.tuple ts) (.tuple (some ts) [.int k m, .vec (some (.int l)) (ms.map (.int l))]) := by
    refine .tuple rfl fun p hp => ?_
    simp only [ts, List.zip_cons_cons, List.zip_nil_right, List.mem_cons, List.not_mem_nil,
      or_false] at hp
    rcases hp with rfl | rfl
    · exact .int hm
    · refine .vec fun e he => ?_
      obtain ⟨m, hm, rfl⟩ := List.mem_map.mp he
      exact .int (hms m hm)
  have hx : Diff.Exact (.tuple ts) x.value := hexact (-127) [1] (by decide) (by decide)
  have hy : Diff.Exact (.tuple ts) y.value := hexact 5 [-128, 7] (by decide) (by decide)
  have hlabels : ∀ l ∈ y.labels, l < 10 := by decide
  have hlabels' : ∀ l ∈ n.labels, l < 20 := by decide
  have hn : (negate (.diff y) 10).leaves y = .ok n.value := by
    rw [leaves_negate]
    decide
  have hs : (plusEquals (.diff x) (.diff y) 10).leaves x = .ok s.value := by
    rw [leaves_plusEquals hlabels]
    decide
  obtain ⟨-, -, hretracts⟩ := negate_retracts ht rfl hx hy hlabels
  obtain ⟨hback, -, hsum⟩ := hretracts n hn hlabels'
  exact ⟨hn, hs, hback, hsum s hs⟩

end Session

end DiffAlgebra
