import DiffAlgebra.Proofs.Codec.Wire
import DiffAlgebra.Proofs.Contract.Validity
import DiffAlgebra.Proofs.Typing.Values

/-!
# Operations give well-typed values

A sum and an inverse are well typed and of the type of the receiver, so that they may stand wherever
the receiver stands. Zeros, what is read from bytes and what is built from JSON are well-typed
instances of the type that was asked for.
-/

namespace DiffAlgebra.Diff

variable {C : Catalog}

/-- A well-typed value that may stand for another one: it has the same type. -/
structure StandsFor (x z : Diff C) : Prop where
  wellTyped : z.wellTyped = true
  typeOf_eq : z.typeOf = x.typeOf

theorem StandsFor.refl {x : Diff C} (h : x.wellTyped = true) : StandsFor x x := ⟨h, rfl⟩

theorem StandsFor.trans {x y z : Diff C} (h : StandsFor x y) (h' : StandsFor y z) :
    StandsFor x z :=
  ⟨h'.wellTyped, h'.typeOf_eq.trans h.typeOf_eq⟩

theorem StandsFor.instanceOf {t : DiffType C} {x z : Diff C} (h : StandsFor x z)
    (hx : InstanceOf t x) : InstanceOf t z :=
  hx.of_typeOf_eq h.wellTyped h.typeOf_eq

private theorem instanceOf_of_standsFor {ts : List (DiffType C)} {xs zs : List (Diff C)}
    (h : List.Forall₂ StandsFor xs zs) (hxs : List.Forall₂ InstanceOf ts xs) :
    List.Forall₂ InstanceOf ts zs := by
  induction hxs generalizing zs with
  | nil =>
    cases h
    exact .nil
  | cons hx _ ih =>
    cases h with
    | cons hz hzs => exact .cons (hz.instanceOf hx) (ih hzs)

theorem standsFor_tuple {ts : Option (List (DiffType C))} {xs zs : List (Diff C)}
    (hx : (tuple ts xs).wellTyped = true) (h : List.Forall₂ StandsFor xs zs) :
    StandsFor (tuple ts xs) (tuple ts zs) := by
  refine ⟨?_, rfl⟩
  cases ts with
  | some ts => exact wellTyped_tuple.mpr (instanceOf_of_standsFor h (wellTyped_tuple.mp hx))
  | none =>
    obtain rfl := wellTyped_anyTuple.mp hx
    cases h
    rfl

/-- New elements that stand for the old ones, followed by others of the element type. -/
theorem standsFor_vec {t : Option (DiffType C)} {xs zs : List (Diff C)} (rest : List (Diff C))
    (hx : (vec t xs).wellTyped = true) (h : List.Forall₂ StandsFor xs zs)
    (hrest : ∀ z ∈ rest, z.wellTyped = true ∧ ∀ u, t = some u → InstanceOf u z) :
    StandsFor (vec t xs) (vec t (zs ++ rest)) := by
  refine ⟨?_, rfl⟩
  cases t with
  | some t =>
    refine wellTyped_vec.mpr fun z hz => ?_
    rcases List.mem_append.mp hz with hz | hz
    · obtain ⟨x, hx', hxz⟩ := exists_mem_of_forall₂ h hz
      exact hxz.instanceOf (wellTyped_vec.mp hx x hx')
    · exact (hrest z hz).2 t rfl
  | none =>
    refine wellTyped_anyVec.mpr fun z hz => ?_
    rcases List.mem_append.mp hz with hz | hz
    · obtain ⟨x, -, hxz⟩ := exists_mem_of_forall₂ h hz
      exact hxz.wellTyped
    · exact (hrest z hz).1

theorem instanceOf_coerce {t : DiffType C} {v : Datum C (Diff C)} {z : Diff C} (hv : v.WellTyped)
    (h : coerce t v = .ok z) : InstanceOf t z := by
  obtain ⟨d, hd, rfl⟩ := map_eq_ok.mp h
  exact Draft.instanceOf_coerce t hv hd

mutual

/-- A sum stands for the left operand. -/
theorem standsFor_add : (x : Diff C) → {y z : Diff C} → x.wellTyped = true →
    InstanceOf x.typeOf y → x.add y = .ok z → StandsFor x z
  | int k m, y, z, _, _, h => by
    cases y with
    | int l n =>
      obtain ⟨r, hr, h⟩ := bind_eq_ok.mp h
      cases h
      exact ⟨wellTyped_int.mpr (IntKind.holds_of_fit hr), rfl⟩
    | _ => cases h
  | present, _, _, _, _, h => by
    cases h
    exact ⟨rfl, rfl⟩
  | custom n s, y, z, _, _, h => by
    cases y with
    | custom m t =>
      obtain ⟨r, -, h⟩ := bind_eq_ok.mp h
      cases h
      exact ⟨rfl, rfl⟩
    | _ => cases h
  | tuple ts xs, y, z, hx, hy, h => by
    obtain ⟨_, -, h⟩ := bind_eq_ok.mp h
    obtain ⟨zs, hzs, h⟩ := bind_eq_ok.mp h
    cases h
    exact standsFor_tuple hx (standsFor_addAll xs (fun x => wellTyped_of_mem_parts hx)
      (fun p => wellTyped_of_mem_parts hy.wellTyped) hzs)
  | vec t xs, y, z, hx, hy, h => by
    obtain ⟨_, -, h⟩ := bind_eq_ok.mp h
    obtain ⟨zs, hzs, h⟩ := bind_eq_ok.mp h
    obtain ⟨rest, hrest, h⟩ := bind_eq_ok.mp h
    cases h
    obtain ⟨-, rfl⟩ := cloneAll_eq_ok.mp hrest
    have hsub := List.drop_subset xs.length y.parts
    refine standsFor_vec _ hx (standsFor_addAll xs (fun x => wellTyped_of_mem_parts hx)
      (fun p => wellTyped_of_mem_parts hy.wellTyped) hzs) fun z hz => ?_
    refine ⟨wellTyped_of_mem_parts hy.wellTyped (hsub hz), ?_⟩
    rintro u rfl
    exact hy.parts_vec (hsub hz)

/-- Sums stand for the left operands, and so do those that have no counterpart. -/
theorem standsFor_addAll : (xs : List (Diff C)) → {ys zs : List (Diff C)} →
    (∀ x ∈ xs, x.wellTyped = true) → (∀ y ∈ ys, y.wellTyped = true) → addAll xs ys = .ok zs →
    List.Forall₂ StandsFor xs (zs ++ xs.drop ys.length)
  | [], _, _, _, _, h => by
    cases h
    simp
  | x :: xs, [], _, hxs, _, h => by
    cases h
    exact List.forall₂_same.mpr fun x hx => .refl (hxs x hx)
  | x :: xs, y :: ys, _, hxs, hys, h => by
    obtain ⟨y', hy', h⟩ := bind_eq_ok.mp h
    obtain ⟨z, hz, h⟩ := bind_eq_ok.mp h
    obtain ⟨zs, hzs, h⟩ := bind_eq_ok.mp h
    cases h
    have hy : (Datum.diff y : Datum C (Diff C)).WellTyped :=
      Datum.wellTyped_diff.mpr (hys y List.mem_cons_self)
    exact .cons (standsFor_add x (hxs x List.mem_cons_self) (instanceOf_coerce hy hy') hz)
      (standsFor_addAll xs (fun w hw => hxs w (List.mem_cons_of_mem _ hw))
        (fun w hw => hys w (List.mem_cons_of_mem _ hw)) hzs)

end

theorem standsFor_plus {x z : Diff C} {v : Datum C (Diff C)} (hx : x.wellTyped = true)
    (hv : v.WellTyped) (h : x.plus v = .ok z) : StandsFor x z := by
  obtain ⟨y, hy, h⟩ := bind_eq_ok.mp h
  exact standsFor_add x hx (instanceOf_coerce hv hy) h

private theorem standsFor_plusAll {x z : Diff C} {vs : List (Datum C (Diff C))}
    (hx : x.wellTyped = true) (hvs : ∀ v ∈ vs, v.WellTyped) (h : x.plusAll vs = .ok z) :
    StandsFor x z := by
  induction vs generalizing x with
  | nil =>
    cases h
    exact .refl hx
  | cons v vs ih =>
    obtain ⟨y, hy, h⟩ := bind_eq_ok.mp h
    have hxy := standsFor_plus hx (hvs v List.mem_cons_self) hy
    exact hxy.trans (ih hxy.wellTyped (fun w hw => hvs w (List.mem_cons_of_mem _ hw)) h)

theorem wellTyped_accumulate {vs : List (Datum C (Diff C))} {z : Diff C}
    (hvs : ∀ v ∈ vs, v.WellTyped) (h : accumulate vs = .ok z) : z.wellTyped = true := by
  unfold accumulate at h
  split at h
  · cases h
  next x vs =>
    obtain ⟨y, hy, hsum⟩ := bind_eq_ok.mp h
    obtain ⟨-, rfl⟩ := clone_eq_ok.mp hy
    have hx := Datum.wellTyped_diff.mp (hvs (.diff x) List.mem_cons_self)
    exact (standsFor_plusAll hx (fun v hv => hvs v (List.mem_cons_of_mem _ hv)) hsum).wellTyped
  · cases h
  · cases h

mutual

theorem standsFor_negate : (x : Diff C) → {z : Diff C} → x.wellTyped = true →
    x.negate = .ok z → StandsFor x z
  | int k n, _, _, h => by
    obtain ⟨r, hr, h⟩ := bind_eq_ok.mp h
    cases h
    refine ⟨wellTyped_int.mpr ?_, rfl⟩
    unfold IntKind.neg at hr
    split at hr
    · cases hr
    all_goals exact IntKind.holds_of_fit hr
  | present, _, _, h => nomatch h
  | custom n s, _, _, h => by
    unfold negate at h
    split at h
    · obtain ⟨r, -, h⟩ := bind_eq_ok.mp h
      cases h
      exact ⟨rfl, rfl⟩
    · cases h
  | tuple ts xs, _, hx, h => by
    unfold negate at h
    split at h
    · obtain ⟨_, -, h⟩ := bind_eq_ok.mp h
      obtain ⟨zs, hzs, h⟩ := bind_eq_ok.mp h
      cases h
      exact standsFor_tuple hx (standsFor_negateAll xs (fun x => wellTyped_of_mem_parts hx) hzs)
    · cases h
  | vec t xs, _, hx, h => by
    unfold negate at h
    split at h
    · obtain ⟨_, -, h⟩ := bind_eq_ok.mp h
      obtain ⟨zs, hzs, h⟩ := bind_eq_ok.mp h
      cases h
      have hall := standsFor_negateAll xs (fun x => wellTyped_of_mem_parts hx) hzs
      simpa using standsFor_vec [] hx hall (by simp)
    · cases h

theorem standsFor_negateAll : (xs : List (Diff C)) → {zs : List (Diff C)} →
    (∀ x ∈ xs, x.wellTyped = true) → negateAll xs = .ok zs → List.Forall₂ StandsFor xs zs
  | [], _, _, h => by
    cases h
    exact .nil
  | x :: xs, _, hxs, h => by
    obtain ⟨z, hz, h⟩ := bind_eq_ok.mp h
    obtain ⟨zs, hzs, h⟩ := bind_eq_ok.mp h
    cases h
    exact .cons (standsFor_negate x (hxs x List.mem_cons_self) hz)
      (standsFor_negateAll xs (fun w hw => hxs w (List.mem_cons_of_mem _ hw)) hzs)

end

mutual

/-- The zero of a type is an instance of it. -/
theorem instanceOf_zero? : (t : DiffType C) → {z : Diff C} → zero? t = .ok (some z) →
    InstanceOf t z
  | .tier t, _, h => by cases t <;> cases h
  | .anyInt _, _, h | .present, _, h | .anyTuple, _, h | .anyVec, _, h => nomatch h
  | .int k, _, h => by
    cases h
    exact .self (wellTyped_int.mpr k.holds_zero)
  | .custom n, _, h => by
    unfold zero? at h
    split at h
    · cases h
      exact ⟨rfl, DiffType.isSub_self _⟩
    · cases h
  | .tuple ts, _, h => by
    unfold zero? at h
    split at h
    · obtain ⟨zs, hzs, h⟩ := bind_eq_ok.mp h
      split at h
      next ys hys =>
        cases h
        exact .self (wellTyped_tuple.mpr (instanceOf_zeroAll ts hzs hys))
      · cases h
    · cases h
  | .vec t, _, h => by
    unfold zero? at h
    split at h
    · cases h
      exact .self (wellTyped_vec.mpr (by simp))
    · cases h

theorem instanceOf_zeroAll : (ts : List (DiffType C)) → {zs : List (Option (Diff C))} →
    {ys : List (Diff C)} → zeroAll ts = .ok zs → zs.mapM id = some ys →
    List.Forall₂ InstanceOf ts ys
  | [], _, _, h, hys => by
    cases h
    cases hys
    exact .nil
  | t :: ts, _, _, h, hys => by
    obtain ⟨z, hz, h⟩ := bind_eq_ok.mp h
    obtain ⟨zs, hzs, h⟩ := bind_eq_ok.mp h
    cases h
    simp only [List.mapM_cons, id, Option.bind_eq_bind, Option.bind_eq_some_iff,
      Option.pure_def, Option.some.injEq] at hys
    obtain ⟨y, rfl, ys, hys, rfl⟩ := hys
    exact .cons (instanceOf_zero? t hz) (instanceOf_zeroAll ts hzs hys)

end

/-- What is kept of spelled values are instances of the types. -/
theorem Spells.forall₂_instanceOf {limit : Int} {ts : List (DiffType C)} {ws : List (Diff C)}
    {bs : List UInt8} (h : Spells ts ws bs) (hws : ∀ w ∈ ws, Kept limit w) :
    List.Forall₂ InstanceOf ts (settleAll ws) := by
  induction h with
  | nil => exact .nil
  | int _ _ ih =>
    obtain ⟨hw, hws⟩ := List.forall_mem_cons.mp hws
    exact .cons (.self (wellTyped_int.mpr (kept_int.mp hw))) (ih hws)
  | present _ ih => exact .cons ⟨rfl, rfl⟩ (ih (List.forall_mem_cons.mp hws).2)
  | anyTuple _ ih => exact .cons ⟨rfl, rfl⟩ (ih (List.forall_mem_cons.mp hws).2)
  | tuple _ _ ih ih' =>
    obtain ⟨hw, hws⟩ := List.forall_mem_cons.mp hws
    exact .cons (.self (wellTyped_tuple.mpr (ih (kept_tuple.mp hw)))) (ih' hws)
  | anyVec _ _ _ ih => exact .cons ⟨rfl, rfl⟩ (ih (List.forall_mem_cons.mp hws).2)
  | @vec t ys _ _ _ _ _ _ _ _ ih ih' =>
    obtain ⟨hw, hws⟩ := List.forall_mem_cons.mp hws
    have helements := forall_mem_of_forall₂_replicate (ih (kept_vec.mp hw).2)
    exact .cons (.self (wellTyped_vec.mpr helements)) (ih' hws)

/-- What is read is an instance of the type. -/
theorem instanceOf_decode {limit : Int} {t : DiffType C} {bs : List UInt8} {x : Diff C}
    (h : decode limit t bs = .ok x) : InstanceOf t x := by
  obtain ⟨w, hw⟩ := exists_spells_of_decode h
  rw [hw.decode_eq, keep_eq_ok_iff] at h
  obtain ⟨hkept, rfl⟩ := h
  have hall := hw.forall₂_instanceOf (by simpa using hkept)
  cases hall with
  | cons hx _ => exact hx

open Contract.Schema (violations violations_tuple_eq_nil violations_sequence_eq_nil)

mutual

/-- What is built from valid data is an instance of the type. -/
theorem instanceOf_ofForm {δ : Type} : (t : DiffType C) → {s : Contract.Schema} →
    {d : Datum C δ} → {x : Diff C} → t.schema = .ok s → s.violations d = [] →
    ofForm t d = .ok x → InstanceOf t x
  | .int k, _, _, _, _, _, h => by
    obtain ⟨m, -, h⟩ := bind_eq_ok.mp h
    obtain ⟨n, hn, h⟩ := bind_eq_ok.mp h
    cases h
    exact .self (wellTyped_int.mpr (IntKind.holds_of_fit hn))
  | .present, _, _, _, _, _, h => by
    cases h
    exact ⟨rfl, rfl⟩
  | .anyTuple, _, _, _, _, _, h => by
    cases h
    exact ⟨rfl, rfl⟩
  | .tuple ts, _, d, _, hs, hd, h => by
    obtain ⟨ss, hss, hs⟩ := bind_eq_ok.mp hs
    cases hs
    obtain ⟨l, ds, rfl, hvalid⟩ := violations_tuple_eq_nil.mp hd
    obtain ⟨_, hitems, h⟩ := bind_eq_ok.mp h
    cases hitems
    obtain ⟨xs, hxs, h⟩ := bind_eq_ok.mp h
    cases h
    exact .self (wellTyped_tuple.mpr (instanceOf_ofForms ts hss hvalid hxs))
  | .vec t, _, d, _, hs, hd, h => by
    obtain ⟨s, hs', hs⟩ := bind_eq_ok.mp hs
    cases hs
    obtain ⟨l, ds, rfl, hvalid⟩ := violations_sequence_eq_nil.mp hd
    obtain ⟨_, hitems, h⟩ := bind_eq_ok.mp h
    cases hitems
    obtain ⟨xs, hxs, h⟩ := bind_eq_ok.mp h
    cases h
    refine .self (wellTyped_vec.mpr fun x hx => ?_)
    obtain ⟨e, he, hex⟩ := exists_of_mem_mapM hxs hx
    exact instanceOf_ofForm t hs' (hvalid e he) hex
  | .anyInt _, _, _, _, _, _, h | .anyVec, _, _, _, _, _, h | .tier _, _, _, _, _, _, h
  | .custom _, _, _, _, _, _, h => nomatch h

theorem instanceOf_ofForms {δ : Type} : (ts : List (DiffType C)) → {ss : List Contract.Schema} →
    {ds : List (Datum C δ)} → {xs : List (Diff C)} → DiffType.schemas ts = .ok ss →
    List.Forall₂ (fun s d => violations s d = []) ss ds → ofForms ts ds = .ok xs →
    List.Forall₂ InstanceOf ts xs
  | [], _, _, _, _, _, h => by
    cases h
    exact .nil
  | t :: ts, _, _, _, hss, hds, h => by
    obtain ⟨s, hs, hss⟩ := bind_eq_ok.mp hss
    obtain ⟨ss, hss', hss⟩ := bind_eq_ok.mp hss
    cases hss
    cases hds with
    | cons hd hds =>
      obtain ⟨x, hx, h⟩ := bind_eq_ok.mp h
      obtain ⟨xs, hxs, h⟩ := bind_eq_ok.mp h
      cases h
      exact .cons (instanceOf_ofForm t hs hd hx) (instanceOf_ofForms ts hss' hds hxs)

end

theorem instanceOf_load {δ : Type} {t : DiffType C} {d : Datum C δ} {x : Diff C}
    (h : t.load d = .ok x) : InstanceOf t x := by
  obtain ⟨_, hvalid, h⟩ := bind_eq_ok.mp h
  obtain ⟨s, hs, hvalid⟩ := bind_eq_ok.mp hvalid
  rcases s.validate_cases d with ⟨hd, -⟩ | ⟨-, v, hv⟩
  · exact instanceOf_ofForm t hs hd h
  · cases hvalid.symm.trans hv

end DiffAlgebra.Diff
