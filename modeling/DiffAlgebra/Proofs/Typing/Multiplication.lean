import DiffAlgebra.Proofs.Typing.Objects

/-!
# Multiplication keeps objects well typed

A multiplication changes nothing but custom objects, which remain of their class, and lists, which
get items of the operand and numbers. What it gives are new integers, copies, numbers and the
operand. Types are kept track of by the nodes of the multiplied object: whatever has the label of
such a node is of its type, and what is new has none of their labels.
-/

namespace DiffAlgebra

variable {C : Catalog}

/-- What holds while an object with the nodes `xs` is multiplied. -/
structure MultiplyState.TypedBy (xs : List (Object C)) (s : MultiplyState C) : Prop where
  operand : s.operand.TypedBy xs
  writes : ∀ w ∈ s.writes, w.TypedBy xs
  label_lt : ∀ x ∈ xs, ∀ l, x.label? = some l → l < s.next

/-- A step of a multiplication keeps the types, and what it gives is good. -/
def KeepsTypes {α : Type} (xs : List (Object C)) (m : MultiplyM C α) (good : α → Prop) : Prop :=
  ∀ s, s.TypedBy xs → (m.run s).2.TypedBy xs ∧ ∀ a, (m.run s).1 = .ok a → good a

namespace KeepsTypes

variable {α β : Type} {xs : List (Object C)} {good : α → Prop}

theorem pure {a : α} (ha : good a) : KeepsTypes xs (pure a) good := by
  refine fun s hs => ⟨hs, fun b hb => ?_⟩
  cases hb
  exact ha

theorem throw (f : Fault) : KeepsTypes xs (throw f) good :=
  fun _ hs => ⟨hs, fun _ hb => nomatch hb⟩

theorem bind {m : MultiplyM C β} {f : β → MultiplyM C α} {between : β → Prop}
    (hm : KeepsTypes xs m between) (hf : ∀ b, between b → KeepsTypes xs (f b) good) :
    KeepsTypes xs (m >>= f) good := by
  intro s hs
  obtain ⟨ht, hb⟩ := hm s hs
  rw [run_bind]
  rcases hrun : m.run s with ⟨_ | b, t⟩
  · rw [hrun] at ht
    exact ⟨ht, fun _ ha => nomatch ha⟩
  · rw [hrun] at ht hb
    exact hf b (hb b rfl) t ht

theorem get : KeepsTypes xs get fun s => s.TypedBy xs := by
  refine fun s hs => ⟨hs, fun t ht => ?_⟩
  cases ht
  exact hs

theorem set {t : MultiplyState C} (ht : t.TypedBy xs) :
    KeepsTypes xs (set t) fun _ => True :=
  fun _ _ => ⟨ht, fun _ _ => trivial⟩

theorem changeInPlace {w : Write C} (hw : w.TypedBy xs) :
    KeepsTypes xs (Object.changeInPlace w) fun _ => True := by
  refine fun s hs => ⟨⟨hs.operand.write hw, fun u hu => ?_, hs.label_lt⟩, fun _ _ => trivial⟩
  rcases List.mem_append.mp hu with hu | hu
  · exact hs.writes u hu
  · obtain rfl := List.mem_singleton.mp hu
    exact hw

theorem freshLabel :
    KeepsTypes xs Object.freshLabel fun l => ∀ x ∈ xs, ∀ m, x.label? = some m → m < l := by
  refine fun s hs => ⟨⟨hs.operand, hs.writes, fun x hx l hl => ?_⟩, fun l hl => ?_⟩
  · exact (hs.label_lt x hx l hl).trans (Nat.lt_succ_self _)
  · cases hl
    exact hs.label_lt

end KeepsTypes

namespace Object

variable {xs : List (Object C)}

private theorem holds_productInt {k : IntKind} {m p : Int} {operand : Value C}
    (h : productInt k m operand = .ok p) : k.Holds p := by
  obtain ⟨d, -, h⟩ := bind_eq_ok.mp h
  split at h
  · exact IntKind.holds_of_fit h
  · cases h

private theorem keepsTypes_multiplyInt (k : IntKind) (m : Int) :
    KeepsTypes xs (multiplyInt k m) (Datum.TypedBy xs) := by
  refine .bind .get fun s hs => ?_
  split
  next p hp =>
    refine .bind .freshLabel fun l hl => .pure fun y hy => ?_
    obtain rfl := List.mem_singleton.mp hy
    refine .of_fresh (holds_productInt hp) hl fun n hn => ?_
    cases hn
    exact Nat.le_refl _
  · exact .throw _

private theorem typedBy_deepCopy {s : MultiplyState C} {v : Value C} {next : Nat}
    (hs : s.TypedBy xs)
    (h : s.operand.deepCopy s.next = .ok (v, next)) : v.TypedBy xs ∧ s.next ≤ next := by
  have hfits := Datum.fits_deepCopy (fun y hy => (hs.operand y hy).fits) h
  obtain ⟨u, hu, h⟩ := bind_eq_ok.mp h
  cases h
  refine ⟨fun y hy => .of_fresh (hfits y hy) hs.label_lt fun l hl => ?_, Nat.le_add_left _ _⟩
  obtain ⟨w, _, z, hz, rfl⟩ := Datum.copied_of_mem_duplicate hu hy
  obtain ⟨k, _, rfl⟩ := exists_label_of_copied hz hl
  exact Nat.le_add_left _ _

private theorem keepsTypes_multiplyPresent : KeepsTypes xs multiplyPresent (Datum.TypedBy xs) := by
  refine .bind .get fun s hs => ?_
  split
  next y next hcopy =>
    obtain ⟨hy, hle⟩ := typedBy_deepCopy hs hcopy
    have hset := fun x hx l hl => (hs.label_lt x hx l hl).trans_le hle
    exact .bind (.set ⟨hs.operand, hs.writes, hset⟩) fun _ _ => .pure hy
  · exact .throw _

private theorem keepsTypes_changeReceiver {l : Nat} {n : C.Name} {c : C.State}
    (hmem : custom l n c ∈ xs)
    (hself : (custom l n c).TypedBy xs) (before after : C.State) :
    KeepsTypes xs (changeReceiver l n before after) fun _ => True := by
  unfold changeReceiver
  split
  · exact .pure trivial
  · refine .changeInPlace ⟨fun y hy => ?_, fun new hnew => ?_⟩
    · obtain rfl := List.mem_singleton.mp hy
      exact hself.of_typeOf_eq trivial rfl rfl
    · cases hnew
      exact ⟨_, hmem, l, rfl, rfl⟩

private theorem keepsTypes_appendToOperand (ns : List Int) :
    KeepsTypes xs (appendToOperand ns) fun _ => True := by
  refine .bind .get fun s hs => ?_
  split
  next m vs hop =>
    split
    · exact .pure trivial
    · refine .changeInPlace ⟨fun y hy => ?_, fun _ h => nomatch h⟩
      rw [Write.brought, Datum.nodesAll_append,
        Datum.nodesAll_map_eq_nil (f := .int) fun _ => rfl, List.append_nil] at hy
      have hoperand := hs.operand
      rw [hop] at hoperand
      exact hoperand y hy
  · exact .pure trivial

private theorem keepsTypes_customOutput (o : ProductOutput) :
    KeepsTypes xs (customOutput o) (Datum.TypedBy xs) := by
  cases o with
  | number n => exact .pure fun y hy => nomatch hy
  | operand =>
    refine .bind .get fun s hs => ?_
    split
    next l vs hop =>
      have hoperand := hs.operand
      rw [hop] at hoperand
      exact .pure hoperand
    · exact .pure hs.operand

private theorem keepsTypes_multiplyCustom {l : Nat} {n : C.Name} {c : C.State}
    (hmem : custom l n c ∈ xs)
    (hself : (custom l n c).TypedBy xs) :
    KeepsTypes xs (multiplyCustom l n c) (Datum.TypedBy xs) := by
  refine .bind .get fun w _ => ?_
  split
  · dsimp only
    split
    · exact .throw _
    · refine .bind (keepsTypes_changeReceiver hmem hself _ _) fun _ _ => ?_
      exact .bind (keepsTypes_appendToOperand _) fun _ _ => keepsTypes_customOutput _
  · exact .throw _

mutual

/-- The multiplication of an object whose nodes are among `xs` keeps the types of `xs`. -/
theorem keepsTypes_multiplyOperand : (x : Object C) → x.nodes ⊆ xs →
    (∀ y ∈ x.nodes, y.TypedBy xs) → KeepsTypes xs (multiplyOperand x) (Datum.TypedBy xs)
  | int _ k m, _, _ => keepsTypes_multiplyInt k m
  | present, _, _ => keepsTypes_multiplyPresent
  | custom l n c, hsub, hx =>
    keepsTypes_multiplyCustom (hsub (mem_nodes_self _)) (hx _ (mem_nodes_self _))
  | tuple _ ts ys, hsub, hx => by
    rw [multiplyOperand]
    split
    · refine .bind (keepsTypes_multiplyAll ys (fun y hy => hsub (List.mem_cons_of_mem _ hy))
        fun y hy => hx y (List.mem_cons_of_mem _ hy)) fun vs hvs => .pure ?_
      exact hvs
    · exact .throw _
  | vec _ t ys, hsub, hx => by
    rw [multiplyOperand]
    split
    · refine .bind (keepsTypes_multiplyAll ys (fun y hy => hsub (List.mem_cons_of_mem _ hy))
        fun y hy => hx y (List.mem_cons_of_mem _ hy)) fun vs hvs => .pure ?_
      exact hvs
    · exact .throw _

private theorem keepsTypes_multiplyAll : (ys : List (Object C)) → nodesAll ys ⊆ xs →
    (∀ y ∈ nodesAll ys, y.TypedBy xs) →
    KeepsTypes xs (multiplyAll ys) fun vs => ∀ y ∈ Datum.nodesAll vs, y.TypedBy xs
  | [], _, _ => .pure fun y hy => nomatch hy
  | x :: ys, hsub, hx => by
    obtain ⟨hsubx, hsubys⟩ := List.append_subset.mp hsub
    refine .bind (keepsTypes_multiplyOperand x hsubx fun y hy => hx y (List.mem_append_left _ hy))
      fun v hv => .bind .get fun s _ => ?_
    refine .bind (keepsTypes_multiplyAll ys hsubys fun y hy => hx y (List.mem_append_right _ hy))
      fun vs hvs => .bind .get fun t ht => .pure fun y hy => ?_
    rcases List.mem_append.mp hy with hy | hy
    · exact hv.writes (fun w hw => ht.writes w (List.mem_of_mem_drop hw)) y hy
    · exact hvs y hy

end

/-- After a multiplication all data of a pool fit their types, and so does the product. -/
theorem allFit_multiply {pool : List (Value C)} {next : Nat}
    (hpool : Coherent next (Datum.nodesAll pool)) (hfits : AllFit (Datum.nodesAll pool))
    {x : Object C} {operand : Value C} (hx : x.nodes ⊆ Datum.nodesAll pool)
    (hop : operand.nodes ⊆ Datum.nodesAll pool) :
    AllFit (Datum.nodesAll (pool.map (Datum.writes (x.multiply operand next).2.writes) ++
      yields (fun v => [v]) (x.multiply operand next).1)) := by
  have htyped := hpool.typedBy hfits hx
  have hstart : MultiplyState.TypedBy x.nodes ⟨operand, [], next⟩ :=
    ⟨fun y hy => htyped y (hop hy), fun w hw => (nomatch hw), fun y hy l hl =>
      hpool.label_lt (hx hy) hl⟩
  obtain ⟨hend, hresult⟩ := keepsTypes_multiplyOperand x (List.Subset.refl _)
    (fun y hy => htyped y (hx hy)) _ hstart
  intro y hy
  rw [Datum.nodesAll_append] at hy
  rcases List.mem_append.mp hy with hy | hy
  · obtain ⟨u, hu, hyu⟩ := Datum.mem_nodesAll.mp hy
    obtain ⟨v, hv, rfl⟩ := List.mem_map.mp hu
    have hv : v.TypedBy x.nodes := fun z hz =>
      htyped z (Datum.mem_nodesAll.mpr ⟨v, hv, hz⟩)
    exact (hv.writes hend.writes y hyu).fits
  · unfold multiply at hy
    cases hrun : ((multiplyOperand x).run ⟨operand, [], next⟩).1 with
    | error f =>
      rw [hrun] at hy
      cases hy
    | ok v =>
      rw [hrun, yields, Datum.nodesAll_singleton] at hy
      exact (hresult v hrun y hy).fits

end Object

end DiffAlgebra
