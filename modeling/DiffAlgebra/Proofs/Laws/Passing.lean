import DiffAlgebra.Proofs.Laws.Checks
import DiffAlgebra.Proofs.Shape

/-!
# When the checks of additive laws find nothing

A check of values finds nothing if the sums and inverses that it needs stand to each other as the
law says, as far as there are such. It passes if there are.
-/

namespace DiffAlgebra

variable {C : Catalog} {x y z s : Diff C}

namespace Diff

theorem accumulate_pair : accumulate [.diff x, .diff y] = .ok s ↔
    x.clonable = true ∧ x.plus (.diff y) = .ok s := by
  simp [accumulate, plusAll, clone_eq_ok]

theorem accumulate_triple : accumulate [.diff x, .diff y, .diff z] = .ok s ↔
    x.clonable = true ∧ ∃ xy, x.plus (.diff y) = .ok xy ∧ xy.plus (.diff z) = .ok s := by
  simp [accumulate, plusAll, clone_eq_ok]

end Diff

namespace Law

theorem found_eq_none {law : Law} {operands : List (Datum C (Diff C))} {holds : Bool}
    {details : String} : law.found operands holds details = none ↔ holds = true := by
  cases holds <;> simp [found]

/-- A check that finds no violation. It may fail to be made. -/
def FindsNothing (r : Except Fault (Option LawViolation)) : Prop :=
  ∀ found, r = .ok found → found = none

theorem findsNothing_ok_none : FindsNothing (.ok none) := fun _ h => (Except.ok.inj h).symm

namespace OfValues

/-- The zero of the type is zero and changes nothing when it is added. -/
theorem checkZeroIdentity_eq_none : checkZeroIdentity (.diff x) = .ok none ↔
    ∃ z, Diff.zero? x.typeOf = .ok (some z) ∧ z.isZero = true ∧ x.clonable = true ∧
      x.plus (.diff z) = .ok x := by
  have hzero (z : Diff C) : zeroOf (.diff x) = .ok z ↔ Diff.zero? x.typeOf = .ok (some z) := by
    cases h : Diff.zero? x.typeOf with
    | error f => simp [zeroOf, h]
    | ok o => cases o <;> simp [zeroOf, h]
  rw [checkZeroIdentity, bind_eq_ok]
  refine exists_congr fun z => ?_
  rw [hzero]
  cases z.isZero with
  | false => simp [found]
  | true => simp [Diff.accumulate_pair, found_eq_none, Datum.same, and_assoc]

theorem checkNegationInverse_eq_none : checkNegationInverse (.diff x) = .ok none ↔
    x.clonable = true ∧ ∃ n s, x.negate = .ok n ∧ n.plus (.diff x) = .ok s ∧ s.isZero = true := by
  simp [checkNegationInverse, cancel, Datum.receiver, Diff.clone_eq_ok, found_eq_none]

theorem checkAssociativity_eq_none :
    checkAssociativity (.diff x) (.diff y) (.diff z) = .ok none ↔
      x.clonable = true ∧ y.clonable = true ∧ ∃ xy yz s,
        x.plus (.diff y) = .ok xy ∧ xy.plus (.diff z) = .ok s ∧
        y.plus (.diff z) = .ok yz ∧ x.plus (.diff yz) = .ok s := by
  simp only [checkAssociativity, bind_eq_ok, Diff.accumulate_pair, Diff.accumulate_triple,
    Except.ok.injEq, found_eq_none, decide_eq_true_eq]
  constructor
  · rintro ⟨l, ⟨hx, xy, hxy, hl⟩, yz, ⟨hy, hyz⟩, r, ⟨-, hr⟩, rfl⟩
    exact ⟨hx, hy, xy, yz, l, hxy, hl, hyz, hr⟩
  · rintro ⟨hx, hy, xy, yz, s, hxy, hl, hyz, hr⟩
    exact ⟨s, ⟨hx, xy, hxy, hl⟩, yz, ⟨hy, hyz⟩, s, ⟨hx, hr⟩, rfl⟩

theorem checkCommutativity_eq_none : checkCommutativity (.diff x) (.diff y) = .ok none ↔
    x.clonable = true ∧ y.clonable = true ∧ ∃ s,
      x.plus (.diff y) = .ok s ∧ y.plus (.diff x) = .ok s := by
  simp only [checkCommutativity, bind_eq_ok, Diff.accumulate_pair, Except.ok.injEq, found_eq_none,
    decide_eq_true_eq]
  constructor
  · rintro ⟨l, ⟨hx, hl⟩, r, ⟨hy, hr⟩, rfl⟩
    exact ⟨hx, hy, l, hl, hr⟩
  · rintro ⟨hx, hy, s, hl, hr⟩
    exact ⟨s, ⟨hx, hl⟩, s, ⟨hy, hr⟩, rfl⟩

theorem findsNothing_checkNegationInverse
    (h : ∀ n s, x.negate = .ok n → n.plus (.diff x) = .ok s → s.isZero = true) :
    FindsNothing (checkNegationInverse (.diff x)) := by
  intro found hfound
  obtain ⟨s, hs, hfound⟩ := bind_eq_ok.mp hfound
  simp only [cancel, Datum.receiver, ok_bind, bind_eq_ok, Diff.clone_eq_ok] at hs
  obtain ⟨_, ⟨-, rfl⟩, n, hn, hs⟩ := hs
  exact (Except.ok.inj hfound).symm.trans (found_eq_none.mpr (h n s hn hs))

theorem findsNothing_checkAssociativity
    (h : ∀ xy yz l r, x.plus (.diff y) = .ok xy → xy.plus (.diff z) = .ok l →
      y.plus (.diff z) = .ok yz → x.plus (.diff yz) = .ok r → l = r) :
    FindsNothing (checkAssociativity (.diff x) (.diff y) (.diff z)) := by
  intro found hfound
  simp only [checkAssociativity, bind_eq_ok, Diff.accumulate_pair, Diff.accumulate_triple] at hfound
  obtain ⟨l, ⟨-, xy, hxy, hl⟩, yz, ⟨-, hyz⟩, r, ⟨-, hr⟩, hfound⟩ := hfound
  refine (Except.ok.inj hfound).symm.trans (found_eq_none.mpr ?_)
  exact decide_eq_true (h xy yz l r hxy hl hyz hr)

theorem findsNothing_checkCommutativity
    (h : ∀ l r, x.plus (.diff y) = .ok l → y.plus (.diff x) = .ok r → l = r) :
    FindsNothing (checkCommutativity (.diff x) (.diff y)) := by
  intro found hfound
  simp only [checkCommutativity, bind_eq_ok, Diff.accumulate_pair] at hfound
  obtain ⟨l, ⟨-, hl⟩, r, ⟨-, hr⟩, hfound⟩ := hfound
  exact (Except.ok.inj hfound).symm.trans (found_eq_none.mpr (decide_eq_true (h l r hl hr)))

end OfValues

end Law

end DiffAlgebra
