import DiffAlgebra.Proofs.Addition.Retraction
import DiffAlgebra.Proofs.Laws.Passing
import DiffAlgebra.Proofs.Typing.Safety

/-!
# The additive laws of built-in values

Values over integers and presence markers keep the additive laws wherever the sums and inverses are
there. Sums and inverses of wrapping integers always are, so that the checks of values without other
integers pass. The check of the zero passes in any case, as adding it goes beyond no range.
-/

namespace DiffAlgebra

variable {C : Catalog}

def IntKind.HoldsWrapping (k : IntKind) (n : Int) : Prop := k.family = .wrapping ∧ k.Holds n

namespace IntKind

variable {k : IntKind} {m n : Int}

theorem HoldsWrapping.settle (h : k.HoldsWrapping m) (n : Int) : k.HoldsWrapping (k.settle n) := by
  refine ⟨h.1, ?_⟩
  simp only [IntKind.settle, h.1, k.holds_wrap]

theorem HoldsWrapping.holdsSigned (h : k.HoldsWrapping n) : k.HoldsSigned n :=
  ⟨by simp [isSigned, h.1], h.2⟩

end IntKind

namespace Diff.Shaped

variable {t : DiffType C} {x y z s : Diff C}

theorem instanceOf (h : Shaped IntKind.Holds t x) : InstanceOf t x := by
  induction h with
  | int leaf => exact .self (wellTyped_int.mpr leaf)
  | present => exact .self wellTyped_present
  | tuple length_eq _ ih =>
    exact .self (wellTyped_tuple.mpr (List.forall₂_iff_zip.mpr ⟨length_eq, fun hp => ih _ hp⟩))
  | vec _ ih => exact .self (wellTyped_vec.mpr ih)

theorem plus_eq_ok (hx : Shaped IntKind.Holds t x) (hy : Shaped IntKind.Holds t y)
    (hs : x.plus (.diff y) = .ok s) : s = merge x y ∧ Shaped IntKind.Holds t s := by
  rcases hx.plus_cases hy with ⟨h, hshape⟩ | ⟨-, k, n, h⟩
  · cases hs.symm.trans h
    exact ⟨rfl, hshape⟩
  · cases hs.symm.trans h

theorem plus_wrapping (hx : Shaped IntKind.HoldsWrapping t x)
    (hy : Shaped IntKind.HoldsWrapping t y) :
    x.plus (.diff y) = .ok (merge x y) ∧ Shaped IntKind.HoldsWrapping t (merge x y) := by
  have hmerge := hx.merged hy (fun _ _ h => h) (fun _ _ h => h) fun _ _ _ h _ => h.settle _
  have hholds {a : Diff C} (h : Shaped IntKind.HoldsWrapping t a) : Shaped IntKind.Holds t a :=
    h.mono fun _ _ h => h.2
  rcases (hholds hx).plus_cases (hholds hy) with ⟨h, -⟩ | ⟨hrange, -⟩
  · exact ⟨h, hmerge⟩
  · exact absurd (hholds hmerge).inRange hrange

private theorem negate_wrapping (hx : Shaped IntKind.HoldsWrapping t x)
    (habelian : t.isAbelian = true) :
    ∃ n, x.negate = .ok n := by
  have hsigned := hx.mono fun _ _ h => h.holdsSigned
  rcases hsigned.negate_cases habelian with ⟨-, h, -⟩ | ⟨hneg, -⟩
  · exact ⟨_, h⟩
  · refine absurd (fun path k n hleaf hfamily => ?_) hneg
    rw [(hx.leaf hleaf).1] at hfamily
    cases hfamily

end Diff.Shaped

/-- The zero of a type is zero, and is a value of the type with the very kinds it declares. -/
theorem Diff.exists_zero {P : IntKind → Prop} {t : DiffType C} (ht : t.Over P)
    (hmonoid : t.isMonoid = true) :
    ∃ z, zero? t = .ok (some z) ∧ z.isZero = true ∧ Shaped IntKind.Holds t z := by
  induction ht with
  | @int k => exact ⟨int k 0, rfl, rfl, .int k.holds_zero⟩
  | present => cases hmonoid
  | @tuple ts _ ih =>
    have hall := fun t ht => ih t ht (isMonoid_of_mem hmonoid ht)
    obtain ⟨zs, hz, hzs⟩ := exists_zero_tuple hmonoid fun t ht => (hall t ht).imp fun _ h => h.1
    have hzeros {u : DiffType C} {z : Diff C} (hu : u ∈ ts) (h : zero? u = .ok (some z)) :
        z.isZero = true ∧ Shaped IntKind.Holds u z := by
      obtain ⟨w, hw, hzero⟩ := hall u hu
      cases h.symm.trans hw
      exact hzero
    refine ⟨_, hz, isZeroAll_iff.mpr fun i z hi => ?_, .tuple hzs.length_eq fun p hp => ?_⟩
    · obtain ⟨u, hu, huz⟩ := exists_getElem?_of_forall₂ hzs hi
      exact (hzeros (List.mem_of_getElem? hu) huz).1
    · exact (hzeros (List.of_mem_zip hp).1 (List.forall₂_zip hzs hp)).2
  | vec => exact ⟨_, if_pos hmonoid, rfl, .vec (by simp)⟩

namespace Law.OfValues

open Diff

variable {t : DiffType C} {x y z : Diff C}

theorem checkZeroIdentity_builtIn (ht : t.Concrete) (hmonoid : t.isMonoid = true)
    (hx : Shaped IntKind.Holds t x) : checkZeroIdentity (.diff x) = .ok none := by
  obtain ⟨z, hz, hzero, hzs⟩ := exists_zero ht.over hmonoid
  obtain ⟨w, hw⟩ := exists_isZeroOf ht hmonoid
  cases hz.symm.trans hw.1
  have hmerge := hw.2 x hx.instanceOf
  refine checkZeroIdentity_eq_none.mpr ⟨z, hx.typeOf_eq ▸ hz, hzero, hx.clonable, ?_⟩
  rcases hx.plus_cases hzs with ⟨h, -⟩ | ⟨hrange, -⟩
  · rw [h, hmerge]
  · rw [hmerge] at hrange
    exact absurd hx.inRange hrange

theorem findsNothing_negationInverse (hx : Shaped IntKind.HoldsSigned t x)
    (habelian : t.isAbelian = true) : FindsNothing (checkNegationInverse (.diff x)) := by
  refine findsNothing_checkNegationInverse fun n s hn hs => ?_
  obtain ⟨z, hz, hzero⟩ := hx.negative_plus habelian hn
  cases hs.symm.trans hz
  exact hzero

theorem findsNothing_associativity (hx : Shaped IntKind.Holds t x) (hy : Shaped IntKind.Holds t y)
    (hz : Shaped IntKind.Holds t z) :
    FindsNothing (checkAssociativity (.diff x) (.diff y) (.diff z)) := by
  refine findsNothing_checkAssociativity fun xy yz l r hxy hl hyz hr => ?_
  obtain ⟨rfl, hxys⟩ := hx.plus_eq_ok hy hxy
  obtain ⟨rfl, hyzs⟩ := hy.plus_eq_ok hz hyz
  rw [(hxys.plus_eq_ok hz hl).1, (hx.plus_eq_ok hyzs hr).1]
  exact hx.merge_assoc hy hz

theorem findsNothing_commutativity (hx : Shaped IntKind.Holds t x) (hy : Shaped IntKind.Holds t y) :
    FindsNothing (checkCommutativity (.diff x) (.diff y)) := by
  refine findsNothing_checkCommutativity fun l r hl hr => ?_
  rw [(hx.plus_eq_ok hy hl).1, (hy.plus_eq_ok hx hr).1]
  exact hx.merge_comm hy

theorem checkNegationInverse_wrapping (hx : Shaped IntKind.HoldsWrapping t x)
    (habelian : t.isAbelian = true) : checkNegationInverse (.diff x) = .ok none := by
  obtain ⟨n, hn⟩ := hx.negate_wrapping habelian
  have hsigned := hx.mono fun _ _ h => h.holdsSigned
  obtain ⟨z, hz, hzero⟩ := hsigned.negative_plus habelian hn
  exact checkNegationInverse_eq_none.mpr ⟨hx.clonable, n, z, hn, hz, hzero⟩

theorem checkAssociativity_wrapping (hx : Shaped IntKind.HoldsWrapping t x)
    (hy : Shaped IntKind.HoldsWrapping t y) (hz : Shaped IntKind.HoldsWrapping t z) :
    checkAssociativity (.diff x) (.diff y) (.diff z) = .ok none := by
  obtain ⟨hxy, hxys⟩ := hx.plus_wrapping hy
  obtain ⟨hyz, hyzs⟩ := hy.plus_wrapping hz
  refine checkAssociativity_eq_none.mpr ⟨hx.clonable, hy.clonable, _, _, _, hxy,
    (hxys.plus_wrapping hz).1, hyz, ?_⟩
  rw [hx.merge_assoc hy hz]
  exact (hx.plus_wrapping hyzs).1

theorem checkCommutativity_wrapping (hx : Shaped IntKind.HoldsWrapping t x)
    (hy : Shaped IntKind.HoldsWrapping t y) : checkCommutativity (.diff x) (.diff y) = .ok none := by
  refine checkCommutativity_eq_none.mpr ⟨hx.clonable, hy.clonable, _, (hx.plus_wrapping hy).1, ?_⟩
  rw [hx.merge_comm hy]
  exact (hy.plus_wrapping hx).1

end Law.OfValues

end DiffAlgebra
