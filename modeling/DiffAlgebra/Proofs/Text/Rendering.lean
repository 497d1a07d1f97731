import DiffAlgebra.Proofs.Text.Names
import DiffAlgebra.Proofs.Typing.Values

/-!
# Texts tell values apart

A value is written as the name of its type with its contents in parentheses behind it. The name
tells the type, the type tells how the contents are written, and the parts of a composite value
stand there one by one. So a value over integers and presence markers is known from its text.
-/

namespace DiffAlgebra

open Text

variable {C : Catalog}

namespace Diff

variable {t : DiffType C} {x y : Diff C}

theorem InstanceOf.concrete_typeOf (ht : t.Concrete) (h : InstanceOf t x) : x.typeOf.Concrete := by
  cases ht with
  | int k =>
    obtain ⟨l, n, rfl, -⟩ := h.eq_int
    exact .int l
  | present =>
    cases h.eq_present
    exact .present
  | tuple arity components =>
    obtain ⟨xs, rfl, -⟩ := h.eq_tuple
    exact .tuple arity components
  | vec element =>
    obtain ⟨xs, rfl, -⟩ := h.eq_vec
    exact .vec element

theorem concrete_parts (hx : x.typeOf.Concrete) (hxw : x.wellTyped = true) :
    ∀ p ∈ x.parts, p.typeOf.Concrete ∧ p.wellTyped = true := by
  intro p hp
  refine ⟨?_, wellTyped_of_mem_parts hxw hp⟩
  cases x with
  | int | present | custom => cases hp
  | tuple ts xs =>
    cases ts with
    | none => cases hx
    | some ts =>
      cases hx with
      | tuple _ components =>
        obtain ⟨t, ht, hpt⟩ := exists_mem_of_forall₂ (wellTyped_tuple.mp hxw) hp
        exact hpt.concrete_typeOf (components t ht)
  | vec t xs =>
    cases t with
    | none => cases hx
    | some t =>
      cases hx with
      | vec element => exact (wellTyped_vec.mp hxw p hp).concrete_typeOf element

def contents : Diff C → List Char
  | int _ n => '(' :: (toString n).toList ++ [')']
  | tuple _ xs => '(' :: (commaSeparated (xs.map render)).toList ++ [')']
  | vec _ xs => '(' :: '[' :: (commaSeparated (xs.map render)).toList ++ [']', ')']
  | present | custom _ _ => []

theorem toList_render (h : x.typeOf.Concrete) :
    x.render.toList = x.typeOf.name.toList ++ x.contents := by
  cases x with
  | custom => cases h
  | int | present => simp [render, contents, typeOf, DiffType.name]
  | tuple | vec => simp [render, contents, typeOf, renderAll_eq_map]

theorem beginsWord_render (h : x.typeOf.Concrete) : BeginsWord x.render.toList := by
  rw [toList_render h]
  exact h.beginsWord_name.append _

/-- Texts tell two values apart if, where the types are alike, the contents do. -/
theorem toldApart_of_contents (hx : x.typeOf.Concrete) (hy : y.typeOf.Concrete)
    (h : x.typeOf = y.typeOf → ∀ r s, x.contents ++ r = y.contents ++ s → x = y ∧ r = s) :
    ToldApart render x y := by
  intro r s hr hs heq
  have hends {z : Diff C} {r : List Char} (hr : EndsWord r) : EndsWord (z.contents ++ r) := by
    cases z <;> first | exact hr | exact endsWord_cons.mpr (by decide)
  rw [toList_render hx, toList_render hy, List.append_assoc, List.append_assoc] at heq
  obtain ⟨htype, hrest⟩ := hx.toldApart_name hy _ _ (hends hr) (hends hs) heq
  exact h htype r s hrest

/-- The parts of a composite value are known from its text. -/
theorem parts_eq_of_commaSeparated_eq {xs ys : List (Diff C)} {close : Char} {r s : List Char}
    (hclose : isWordChar close = false) (hcomma : close ≠ ',')
    (hxs : ∀ a ∈ xs, a.typeOf.Concrete ∧ a.wellTyped = true)
    (hys : ∀ b ∈ ys, b.typeOf.Concrete ∧ b.wellTyped = true)
    (h : ∀ a ∈ xs, ∀ {b : Diff C}, b.typeOf.Concrete → b.wellTyped = true →
      ToldApart render a b)
    (heq : (commaSeparated (xs.map render)).toList ++ close :: r =
      (commaSeparated (ys.map render)).toList ++ close :: s) : xs = ys ∧ r = s :=
  items_eq_of_commaSeparated_eq hclose hcomma
    (fun a ha b hb => h a ha (hys b hb).1 (hys b hb).2) (fun a ha => beginsWord_render (hxs a ha).1)
    (fun b hb => beginsWord_render (hys b hb).1) heq

/-- Values are told apart by their texts. -/
theorem InstanceOf.toldApart_render (ht : t.Concrete) (hx : InstanceOf t x)
    (hy : y.typeOf.Concrete) (hyw : y.wellTyped = true) : ToldApart render x y := by
  have hends {r : List Char} : EndsWord (')' :: r) := endsWord_cons.mpr (by decide)
  induction ht generalizing x y with
  | int k =>
    have hxc := hx.concrete_typeOf (.int k)
    refine toldApart_of_contents hxc hy fun htype r s h => ?_
    obtain ⟨l, m, rfl, -⟩ := hx.eq_int
    obtain ⟨l', n, rfl, -⟩ := (hx.of_typeOf_eq hyw htype.symm).eq_int
    cases htype
    simp only [contents, List.cons_append, List.append_assoc, List.nil_append, List.cons.injEq,
      true_and] at h
    obtain ⟨hnumber, hrs⟩ := (isWord_integer m).eq_of_append_eq (isWord_integer n) hends hends h
    cases integer_injective (String.toList_inj.mp hnumber)
    exact ⟨rfl, (List.cons.inj hrs).2⟩
  | present =>
    have hxc := hx.concrete_typeOf .present
    refine toldApart_of_contents hxc hy fun htype r s h => ?_
    cases hx.eq_present
    cases (hx.of_typeOf_eq hyw htype.symm).eq_present
    exact ⟨rfl, h⟩
  | tuple arity components ih =>
    have hxc := hx.concrete_typeOf (.tuple arity components)
    refine toldApart_of_contents hxc hy fun htype r s h => ?_
    obtain ⟨xs, rfl, hxs⟩ := hx.eq_tuple
    obtain ⟨ys, rfl, hys⟩ := (hx.of_typeOf_eq hyw htype.symm).eq_tuple
    simp only [contents, List.cons_append, List.append_assoc, List.nil_append, List.cons.injEq,
      true_and] at h
    obtain ⟨rfl, hrs⟩ := parts_eq_of_commaSeparated_eq (by decide) (by decide)
      (concrete_parts hxc hx.wellTyped) (concrete_parts hy hyw) (fun a ha => by
        obtain ⟨t, ht, hat⟩ := exists_mem_of_forall₂ hxs ha
        exact ih t ht hat) h
    exact ⟨rfl, hrs⟩
  | vec element ih =>
    have hxc := hx.concrete_typeOf (.vec element)
    refine toldApart_of_contents hxc hy fun htype r s h => ?_
    obtain ⟨xs, rfl, hxs⟩ := hx.eq_vec
    obtain ⟨ys, rfl, hys⟩ := (hx.of_typeOf_eq hyw htype.symm).eq_vec
    cases htype
    simp only [contents, List.cons_append, List.append_assoc, List.nil_append, List.cons.injEq,
      true_and] at h
    obtain ⟨rfl, hrs⟩ := parts_eq_of_commaSeparated_eq (by decide) (by decide)
      (concrete_parts hxc hx.wellTyped) (concrete_parts hy hyw) (fun a ha => ih (hxs a ha)) h
    exact ⟨rfl, (List.cons.inj hrs).2⟩

theorem render_inj (hx : x.typeOf.Concrete) (hxw : x.wellTyped = true) (hy : y.typeOf.Concrete)
    (hyw : y.wellTyped = true) : x.render = y.render ↔ x = y := by
  refine ⟨fun h => ?_, congrArg render⟩
  have hx := (InstanceOf.self hxw).toldApart_render hx hy hyw
  exact (hx [] [] endsWord_nil endsWord_nil (by rw [h])).1

end Diff

end DiffAlgebra
