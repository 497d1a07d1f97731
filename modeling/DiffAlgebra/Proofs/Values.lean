import DiffAlgebra.Coercion
import DiffAlgebra.Datum.Order
import DiffAlgebra.Datum.Text
import DiffAlgebra.Proofs.Failure

/-!
# Coercion and rendering depend on values only

Data are looked at through the values of their differences. Whatever represents the differences of a
datum, it is written as its values are, and coercing it comes to the value that they are coerced to.
-/

namespace DiffAlgebra

variable {C : Catalog} {δ : Type} [DiffView δ C]

namespace Datum

theorem toInteger_values (v : Datum C δ) : v.values.toInteger = v.toInteger := by
  cases v <;> rfl

mutual

theorem argument_values : (v : Datum C δ) → v.values.argument = v.argument
  | list _ xs => congrArg Argument.list (arguments_values xs)
  | null | bool _ | int _ | real _ | text _ | bytes _ | tuple _ _ | record _ _ | type _
  | reference _ _ | config _ _ _ _ | violation _ _ | report _ _ | mismatch _ _ | diff _ => rfl

theorem arguments_values : (vs : List (Datum C δ)) →
    arguments (mapAll DiffView.value vs) = arguments vs
  | [] => rfl
  | v :: vs => by
    rw [mapAll, arguments, arguments, arguments_values vs]
    exact congrArg (· :: _) (argument_values v)

end

mutual

/-- A datum is written as its values are. -/
theorem render_values : (x : Datum C δ) → x.values.render = x.render
  | list _ xs => congrArg (fun ss => "[" ++ Text.commaSeparated ss ++ "]") (renderAll_values xs)
  | tuple _ xs => congrArg Text.parenthesised (renderAll_values xs)
  | config _ c p xs =>
    congrArg (fun ss => "LawCheckConfig(check_commutativity=" ++ Text.truth c
      ++ ", check_multiply_purity=" ++ Text.truth p ++ ", multiplicands="
      ++ Text.parenthesised ss ++ ")") (renderAll_values xs)
  | record _ fs =>
    congrArg (fun ss => "\x7b" ++ Text.commaSeparated ss ++ "\x7d") (renderFields_values fs)
  | null | bool _ | int _ | real _ | text _ | bytes _ | type _ | reference _ _ | violation _ _
  | report _ _ | mismatch _ _ | diff _ => rfl

theorem renderAll_values : (xs : List (Datum C δ)) →
    renderAll (mapAll DiffView.value xs) = renderAll xs
  | [] => rfl
  | x :: xs => congrArg₂ List.cons (render_values x) (renderAll_values xs)

theorem renderFields_values : (fs : List (String × Datum C δ)) →
    renderFields (mapFields DiffView.value fs) = renderFields fs
  | [] => rfl
  | (k, x) :: fs =>
    congrArg₂ (fun s ss => (Text.quote k ++ ": " ++ s) :: ss) (render_values x)
      (renderFields_values fs)

end

theorem mapFields_eq_map {δ ε : Type} (f : δ → ε) (fs : List (String × Datum C δ)) :
    mapFields f fs = fs.map fun g => (g.1, map f g.2) := by
  induction fs with
  | nil => rfl
  | cons g fs ih => simp [mapFields, ih]

theorem sequence_values (v : Datum C δ) :
    v.values.sequence = v.sequence.map (List.map values) := by
  cases v with
  | list l xs | tuple l xs => exact congrArg Except.ok (mapAll_eq_map _ xs)
  | text | bytes => simp [values, map, sequence]
  | diff d =>
    have hparts : ((DiffView.parts d).map diff).map values =
        (DiffView.value d).parts.map (diff : Diff C → Datum C (Diff C)) := by
      rw [← DiffView.parts_value d, List.map_map, List.map_map]
      rfl
    change sequence (diff (DiffView.value d)) = _
    simp only [sequence, DiffView.value]
    split <;> simp_all [DiffView.parts, Except.map]
  | _ => rfl

theorem items_values (v : Datum C δ) : v.values.items = v.items.map (List.map values) := by
  cases v with
  | record l fs => simp [values, map, items, mapFields_eq_map]
  | violation l v | report l r =>
    simp [values, map, items, checkFields, named, mapAll, mapAll_eq_map]
  | config l c p xs => rfl
  | list l xs => exact sequence_values (list l xs)
  | tuple l xs => exact sequence_values (tuple l xs)
  | text s => exact sequence_values (text s)
  | bytes bs => exact sequence_values (bytes bs)
  | diff d => exact sequence_values (diff d)
  | null | bool | int | real | type | reference | mismatch => rfl

omit [DiffView δ C] in
private theorem sameAll_iff {xs ys : List (Datum C (Diff C))} :
    sameAll xs ys = true ↔ List.Forall₂ (fun x y => same x y = true) xs ys := by
  induction xs generalizing ys with
  | nil => cases ys <;> simp [sameAll]
  | cons x xs ih => cases ys <;> simp [sameAll, ih]

theorem sameAll_values_iff {xs ys : List (Datum C δ)} :
    sameAll (mapAll DiffView.value xs) (mapAll DiffView.value ys) = true ↔
      List.Forall₂ (fun x y => same x.values y.values = true) xs ys := by
  rw [mapAll_eq_map, mapAll_eq_map, sameAll_iff, List.forall₂_map_left_iff,
    List.forall₂_map_right_iff]
  rfl

end Datum

namespace Draft

private theorem map_bind_congr {α α' β β' γ κ : Type} {x : Except Fault α} {x' : Except Fault α'}
    {f : α → γ} {f' : α' → γ} {k : α → Except Fault β} {k' : α' → Except Fault β'} {g : β → κ}
    {g' : β' → κ} (h : x'.map f' = x.map f)
    (hk : ∀ a a', f' a' = f a → (k' a').map g' = (k a).map g) :
    (x' >>= k').map g' = (x >>= k).map g := by
  cases x' with
  | error e' =>
    cases x with
    | error e => cases h; rfl
    | ok a => cases h
  | ok a' =>
    cases x with
    | error e => cases h
    | ok a => exact hk a a' (Except.ok.inj h)

variable {t : DiffType C} {v : Datum C δ}

theorem keepOr_values {build : Except Fault (Draft C δ)}
    {build' : Except Fault (Draft C (Diff C))} (h : build'.map value = build.map value) :
    (keepOr t v.values build').map value = (keepOr t v build).map value := by
  cases v with
  | diff d =>
    simp only [keepOr, Datum.values, Datum.map]
    change (if (DiffView.value d).isA t = true then _ else _ : Except _ _).map value = _
    split
    · rfl
    · exact h
  | _ => exact h

theorem refuse_values (sort : DiffType C → Bool) (t : DiffType C) (v : Datum C δ) :
    refuse sort t v.values = refuse sort t v := by
  cases v <;> rfl

private theorem ofInteger_values (k : IntKind) (v : Datum C δ) :
    (ofInteger k v.values).map value = (ofInteger k v).map value := by
  simp only [ofInteger, Datum.toInteger_values]
  cases v.toInteger with
  | error f => rfl
  | ok n =>
    simp only [ok_bind]
    cases k.ofInt n <;> rfl

private theorem ofArgument_values (n : C.Name) (v : Datum C δ) :
    (ofArgument n v.values).map value = (ofArgument n v).map value := by
  simp only [ofArgument, Datum.argument_values]
  cases C.build n (some v.argument) <;> rfl

private theorem mapM_coerce_values
    (h : ∀ v : Datum C δ, (coerce t v.values).map value = (coerce t v).map value)
    (vs : List (Datum C δ)) :
    ((vs.map Datum.values).mapM (coerce t)).map valueAll =
      (vs.mapM (coerce t)).map valueAll := by
  induction vs with
  | nil => rfl
  | cons v vs ih =>
    simp only [List.map_cons, List.mapM_cons]
    refine map_bind_congr (h v) fun d d' hd => map_bind_congr ih fun ds ds' hds => ?_
    simp [pure, Except.pure, valueAll, hd, hds]

mutual

theorem coerce_values : (t : DiffType C) → (v : Datum C δ) →
    (coerce t v.values).map value = (coerce t v).map value
  | .tier t, v => keepOr_values rfl
  | .anyInt g, v => keepOr_values (by
    simp only [refuse_values, Datum.toInteger_values]
    cases refuse DiffType.isInt (.anyInt g) v <;> cases v.toInteger <;> rfl)
  | .int k, v => keepOr_values (by
    rw [refuse_values]
    cases refuse DiffType.isInt (.int k) v with
    | error f => rfl
    | ok u => exact ofInteger_values k v)
  | .present, v => keepOr_values (by cases v <;> rfl)
  | .custom n, v => keepOr_values (ofArgument_values n v)
  | .anyTuple, v => keepOr_values (by
    rw [Datum.items_values]
    cases v.items with
    | error f => rfl
    | ok xs => cases xs <;> simp [valueAll, value, Except.map])
  | .tuple ts, v => keepOr_values (by
    rw [refuse_values, Datum.items_values]
    cases refuse DiffType.isTuple (.tuple ts) v with
    | error f => rfl
    | ok u =>
      cases v.items with
      | error f => rfl
      | ok xs =>
        simp only [ok_bind, ok_map, List.length_map]
        split
        · refine map_bind_congr (coerceAll_values ts xs) fun ds ds' hds => ?_
          simp [value, hds]
        · rfl)
  | .anyVec, v => keepOr_values (by
    rw [Datum.items_values]
    cases v.items with
    | error f => rfl
    | ok xs => cases xs <;> simp [valueAll, value, Except.map])
  | .vec t, v => keepOr_values (by
    rw [refuse_values, Datum.items_values]
    cases refuse DiffType.isVec (.vec t) v with
    | error f => rfl
    | ok u =>
      cases v.items with
      | error f => rfl
      | ok xs =>
        simp only [ok_bind, ok_map]
        refine map_bind_congr (mapM_coerce_values (coerce_values t) xs) fun ds ds' hds => ?_
        simp [value, hds])

theorem coerceAll_values : (ts : List (DiffType C)) → (vs : List (Datum C δ)) →
    (coerceAll ts (vs.map Datum.values)).map valueAll = (coerceAll ts vs).map valueAll
  | [], vs => rfl
  | t :: ts, [] => rfl
  | t :: ts, v :: vs => by
    refine map_bind_congr (coerce_values t v) fun d d' hd => ?_
    refine map_bind_congr (coerceAll_values ts vs) fun ds ds' hds => ?_
    simp [valueAll, hd, hds]

end

end Draft

end DiffAlgebra
