import DiffAlgebra.Object.Hash
import DiffAlgebra.Proofs.Order.Lexicographic
import DiffAlgebra.Session.Run
import DiffAlgebra.Specimens

/-!
# All comparisons of two values

The four relations of two values are answered together or not at all. Where they are, exactly one of
"less", "equal" and "greater" holds and the other two relations follow. Equal values have equal
hashes, and values over integers and presence markers are ordered and have hashes.
-/

namespace DiffAlgebra

variable {C : Catalog}

namespace Datum

namespace Comparison

/-- No relation is answered. -/
structure Unordered (c : Comparison) : Prop where
  lt : c.lt = none
  le : c.le = none
  gt : c.gt = none
  ge : c.ge = none

/-- All relations are answered, by exactly one of less, equal and greater. -/
def Ordered (c : Comparison) : Prop :=
  ∃ less greater : Bool,
    c.lt = some less ∧ c.gt = some greater ∧ c.le = some (less || c.eq) ∧
      c.ge = some (greater || c.eq) ∧ [less, c.eq, greater].count true = 1

end Comparison

variable {x y z : Diff C}

theorem eq_compare : (compare (diff x) (diff y)).eq = true ↔ x = y := by
  simp [compare, same]

theorem lt_compare : (compare (diff x) (diff y)).lt = x.less? y := by
  simp [compare, related?, Diff.related?, Relation.holds]

private theorem unordered_compare (h : x.less? y = none) :
    (compare (diff x) (diff y)).Unordered := by
  constructor <;> simp [compare, related?, Diff.related?, h]

theorem ordered_compare {b : Bool} (h : x.less? y = some b) :
    (compare (diff x) (diff y)).Ordered := by
  refine ⟨b, !b && !(decide (x = y)), ?_⟩
  cases b with
  | true =>
    have hne := Diff.ne_of_less? h
    simp [compare, related?, Diff.related?, Relation.holds, same, h, hne]
  | false =>
    rcases eq_or_ne x y with rfl | hne
    · simp [compare, related?, Diff.related?, Relation.holds, same, h]
    · simp [compare, related?, Diff.related?, Relation.holds, same, h, hne]

theorem diffsHashable_eq_all (xs : List (Diff C)) : diffsHashable xs = xs.all diffHashable := by
  induction xs with
  | nil => rfl
  | cons x xs ih => simp [diffsHashable, ih]

end Datum

theorem Diff.Shaped.diffHashable {P : IntKind → Int → Prop} {t : DiffType C} {x : Diff C}
    (h : Shaped P t x) : Datum.diffHashable x = true := by
  induction h with
  | int => rfl
  | present => rfl
  | tuple length_eq _ ih =>
    rw [Datum.diffHashable, Datum.diffsHashable_eq_all, List.all_eq_true]
    intro x hx
    obtain ⟨t, ht⟩ := exists_mem_zip length_eq hx
    exact ih _ ht
  | vec _ ih =>
    rw [Datum.diffHashable, Datum.diffsHashable_eq_all, List.all_eq_true]
    exact ih

namespace Session

open Datum

/-- Every comparison of two values is answered. Equality is that of values, and inequality its
opposite; the relations are all left open, or exactly one of less, equal and greater holds; less is
the lexicographic order and transitive; equal values have one hash. Values over integers and
presence markers of exactly the declared types are ordered and have a hash. -/
theorem compare_coherent (x y : Object C) (known : Schemas C) (next : Nat) :
    ∃ c : Comparison,
      (Operation.compare.call [.diff x, .diff y] known next).result = .ok c.toRecord ∧
      (∃ fs, (c.toRecord : Value C) = .record 0 fs ∧ ("eq", .bool c.eq) ∈ fs ∧
        ("ne", .bool !c.eq) ∈ fs) ∧
      (c.eq = true ↔ x.value = y.value) ∧ (c.Unordered ∨ c.Ordered) ∧
      (c.lt = some true ↔ x.value.Precedes y.value) ∧
      (∀ z : Diff C, c.lt = some true → (compare (.diff y.value) (.diff z)).lt = some true →
        (compare (.diff x.value) (.diff z)).lt = some true) ∧
      (c.eq = true → ∀ H : Hashing, x.hash H = y.hash H) ∧
      ∀ t : DiffType C, t.Concrete → Diff.Exact t x.value → Diff.Exact t y.value →
        c.Ordered ∧ ∀ H : Hashing, ∃ h, x.hash H = .ok h := by
  refine ⟨compare (.diff x.value) (.diff y.value), rfl, ?_, eq_compare, ?_, ?_, ?_, ?_, ?_⟩
  · exact ⟨_, rfl, by simp, by simp⟩
  · cases hless : x.value.less? y.value with
    | none => exact .inl (unordered_compare hless)
    | some b => exact .inr (ordered_compare hless)
  · rw [lt_compare, Diff.less?_eq_true_iff]
  · intro z hxy hyz
    rw [lt_compare] at hxy hyz ⊢
    exact Diff.less?_trans _ hxy hyz
  · intro heq H
    exact Object.hash_congr H x (eq_compare.mp heq)
  · intro t ht hx hy
    obtain ⟨b, hb⟩ := (hx.shaped_holds ht).exists_less? (hy.shaped_holds ht)
    refine ⟨ordered_compare hb, fun H => ?_⟩
    exact Object.exists_hash H x (hx.shaped_holds ht).diffHashable

/-- A sequence of pairs is less than a longer one that begins with it. -/
theorem compare_coherent_beginning :
    let k : IntKind := ⟨.signed, .w8⟩
    let pair : DiffType specimens := .tuple [.int k, .present]
    let one (l m : Nat) (n : Int) : Object specimens :=
      .tuple l (some [.int k, .present]) [.int m k n, .present]
    let x : Object specimens := .vec 3 (some pair) [one 2 1 5]
    let y : Object specimens := .vec 8 (some pair) [one 5 4 5, one 7 6 (-128)]
    ∃ c : Comparison,
      (Operation.compare.call [.diff x, .diff y] [] 9).result = .ok c.toRecord ∧
      c.eq ≠ true ∧ c.lt = some true ∧ c.Ordered ∧ ∀ H : Hashing, ∃ h, x.hash H = .ok h := by
  intro k pair one x y
  have hpair : pair.Concrete := .pair (.int k) .present
  have hone (l m : Nat) {n : Int} (hn : k.Holds n) : Diff.Exact pair (one l m n).value :=
    .pair (.int hn) .present
  have hx : Diff.Exact (.vec pair) x.value := by
    refine .vec fun z hz => ?_
    obtain rfl := List.mem_singleton.mp hz
    exact hone 2 1 (by decide)
  have hy : Diff.Exact (.vec pair) y.value := by
    refine .vec fun z hz => ?_
    simp only [Object.valueAll, List.mem_cons, List.not_mem_nil, or_false] at hz
    rcases hz with rfl | rfl
    · exact hone 5 4 (by decide)
    · exact hone 7 6 (by decide)
  obtain ⟨c, hc, -, heq, -, hless, -, -, hall⟩ := compare_coherent x y [] 9
  obtain ⟨hordered, hhash⟩ := hall (.vec pair) (.vec hpair) hx hy
  exact ⟨c, hc, heq.not.mpr (by decide), hless.mpr (.vec (.cons .nil)), hordered, hhash⟩

end Session

end DiffAlgebra
