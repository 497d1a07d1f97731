import DiffAlgebra.Proofs.Laws.Undisturbed
import DiffAlgebra.Proofs.Sharing.Mutables
import DiffAlgebra.Proofs.Typing.Objects

/-!
# Checks can be repeated

A check makes new objects, with the labels that come next. Which labels these are makes no
difference to what the check finds: a multiplication changes the same objects and fails in the same
way, and a datum compares to all of its copies alike, provided that they are not the datum itself.
-/

namespace DiffAlgebra

variable {C : Catalog}

/-- What two multiplications leave behind that differ at most in the labels of their products. -/
structure Alongside {α : Type} (p q : Except Fault α × MultiplyState C) : Prop where
  failure : p.1.map (fun _ => ()) = q.1.map fun _ => ()
  operand : p.2.operand = q.2.operand
  writes : p.2.writes = q.2.writes

/-- Two steps of a multiplication that go alongside each other, whatever the next labels. -/
def Paired {α : Type} (m m' : MultiplyM C α) : Prop :=
  ∀ v ws n n', Alongside (m.run ⟨v, ws, n⟩) (m'.run ⟨v, ws, n'⟩)

namespace Paired

variable {α β : Type}

theorem pure (a a' : α) : Paired (pure a : MultiplyM C α) (pure a') :=
  fun _ _ _ _ => ⟨rfl, rfl, rfl⟩

theorem throw (f : Fault) : Paired (throw f : MultiplyM C α) (throw f) :=
  fun _ _ _ _ => ⟨rfl, rfl, rfl⟩

theorem bind {m m' : MultiplyM C β} {f f' : β → MultiplyM C α} (hm : Paired m m')
    (hf : ∀ b b', Paired (f b) (f' b')) : Paired (m >>= f) (m' >>= f') := by
  intro v ws n n'
  have h := hm v ws n n'
  rw [run_bind, run_bind]
  generalize m.run ⟨v, ws, n⟩ = p, m'.run ⟨v, ws, n'⟩ = q at h
  rcases p with ⟨_ | b, ⟨u, us, k⟩⟩ <;> rcases q with ⟨_ | b', ⟨u', us', k'⟩⟩ <;>
    obtain ⟨hfailure, rfl, rfl⟩ := h <;> cases hfailure
  · exact ⟨rfl, rfl, rfl⟩
  · exact hf b b' u us k k'

theorem get_bind {f f' : MultiplyState C → MultiplyM C α}
    (h : ∀ v ws n n', Paired (f ⟨v, ws, n⟩) (f' ⟨v, ws, n'⟩)) : Paired (get >>= f) (get >>= f') :=
  fun v ws n n' => h v ws n n' v ws n n'

end Paired

namespace Object

private theorem paired_changeInPlace (w : Write C) : Paired (changeInPlace w) (changeInPlace w) :=
  fun _ _ _ _ => ⟨rfl, rfl, rfl⟩

private theorem paired_multiplyInt (k : IntKind) (m : Int) :
    Paired (multiplyInt k m : MultiplyM C (Value C)) (multiplyInt k m) := by
  refine .get_bind fun v ws n n' => ?_
  cases productInt k m v <;> exact fun _ _ _ _ => ⟨rfl, rfl, rfl⟩

private theorem paired_multiplyPresent :
    Paired (multiplyPresent : MultiplyM C (Value C)) multiplyPresent := by
  refine .get_bind fun v ws n n' => ?_
  dsimp only
  cases h : v.deepCopy n with
  | error f =>
    rw [Datum.deepCopy_error h]
    exact .throw f
  | ok r =>
    obtain ⟨w, last, hw⟩ := Datum.exists_deepCopy h n'
    rw [hw]
    exact fun _ _ _ _ => ⟨rfl, rfl, rfl⟩

private theorem paired_changeReceiver (l : Nat) (n : C.Name) (before after : C.State) :
    Paired (changeReceiver l n before after) (changeReceiver l n before after) := by
  unfold changeReceiver
  split
  · exact .pure _ _
  · exact paired_changeInPlace _

private theorem paired_appendToOperand (ns : List Int) :
    Paired (appendToOperand ns : MultiplyM C Unit) (appendToOperand ns) := by
  refine .get_bind fun v ws n n' => ?_
  dsimp only
  split
  · split
    · exact .pure _ _
    · exact paired_changeInPlace _
  · exact .pure _ _

private theorem paired_customOutput (o : ProductOutput) :
    Paired (customOutput o : MultiplyM C (Value C)) (customOutput o) := by
  cases o with
  | number n => exact .pure _ _
  | operand =>
    refine .get_bind fun v ws n n' => ?_
    dsimp only
    split <;> exact .pure _ _

private theorem paired_multiplyCustom (l : Nat) (n : C.Name) (s : C.State) :
    Paired (multiplyCustom l n s) (multiplyCustom l n s) := by
  refine .get_bind fun v ws m m' => ?_
  dsimp only
  split
  · split
    · exact .throw _
    · exact (paired_changeReceiver _ _ _ _).bind fun _ _ =>
        (paired_appendToOperand _).bind fun _ _ => paired_customOutput _
  · exact .throw _

mutual

/-- Multiplications of one object by one operand go alongside each other. -/
theorem paired_multiplyOperand : (x : Object C) →
    Paired (multiplyOperand x) (multiplyOperand x)
  | int _ k m => paired_multiplyInt k m
  | present => paired_multiplyPresent
  | custom l n s => paired_multiplyCustom l n s
  | tuple _ ts xs => by
    rw [multiplyOperand]
    split
    · exact (paired_multiplyAll xs).bind fun _ _ => .pure _ _
    · exact .throw _
  | vec _ t xs => by
    rw [multiplyOperand]
    split
    · exact (paired_multiplyAll xs).bind fun _ _ => .pure _ _
    · exact .throw _

private theorem paired_multiplyAll :
    (xs : List (Object C)) → Paired (multiplyAll xs) (multiplyAll xs)
  | [] => .pure _ _
  | x :: xs =>
    (paired_multiplyOperand x).bind fun _ _ => .get_bind fun _ _ _ _ =>
      (paired_multiplyAll xs).bind fun _ _ => .get_bind fun _ _ _ _ => .pure _ _

end

end Object

namespace Datum

mutual

/-- A datum without its labels. Broken keywords are told apart by theirs, so they keep them up to a
bound. -/
def blur (n : Nat) : Datum C (Diff C) → Datum C (Diff C)
  | list _ xs => list 0 (blurAll n xs)
  | tuple _ xs => tuple 0 (blurAll n xs)
  | record _ fs => record 0 (blurFields n fs)
  | config _ c p xs => config 0 c p (blurAll n xs)
  | violation _ v => violation 0 v
  | report _ r => report 0 r
  | mismatch l v => mismatch (min l n) v
  | x => x

def blurAll (n : Nat) : List (Datum C (Diff C)) → List (Datum C (Diff C))
  | [] => []
  | x :: xs => blur n x :: blurAll n xs

def blurFields (n : Nat) : List (String × Datum C (Diff C)) → List (String × Datum C (Diff C))
  | [] => []
  | (k, x) :: fs => (k, blur n x) :: blurFields n fs

end

theorem blurFields_eq_map (n : Nat) (fs : List (String × Datum C (Diff C))) :
    blurFields n fs = fs.map fun f => (f.1, blur n f.2) := by
  induction fs with
  | nil => rfl
  | cons f fs ih => rw [blurFields, ih, List.map_cons]

private theorem lookupField_blurFields (n : Nat) (k : String)
    (fs : List (String × Datum C (Diff C))) :
    lookupField k (blurFields n fs) = (lookupField k fs).map (blur n) := by
  rw [lookupField, lookupField, blurFields_eq_map, ← List.map_reverse, List.find?_map, Option.map_map,
    Option.map_map]
  rfl

variable {n : Nat}

mutual

/-- Data with labels below a bound are compared to what a datum is without the labels beyond it. -/
theorem same_blur : (u : Value C) → u.Below n → ∀ y, same u.values (blur n y) = same u.values y
  | list _ xs, h, y => by
    cases y with
    | list _ ys => exact sameAll_blurAll xs (labelled_list.mp h).2 ys
    | _ => rfl
  | tuple _ xs, h, y => by
    cases y with
    | tuple _ ys => exact sameAll_blurAll xs (labelled_tuple.mp h).2 ys
    | _ => rfl
  | record _ fs, h, y => by
    cases y with
    | record _ gs =>
      have hlength : (blurFields n gs).length = gs.length := by
        rw [blurFields_eq_map, List.length_map]
      have hfields := sameFields_blurFields fs (labelled_record.mp h).2 gs
      exact congrArg₂ (fun m b => (mapFields DiffView.value fs).length == m && b) hlength hfields
    | _ => rfl
  | config _ c p xs, h, y => by
    cases y with
    | config _ d q ys =>
      exact congrArg (c == d && p == q && ·) (sameAll_blurAll xs (labelled_config.mp h).2 ys)
    | _ => rfl
  | mismatch l v, h, y => by
    cases y with
    | mismatch m w =>
      have hl : l < n := (labelled_mismatch (P := (· < n))).mp h
      have hmin : l = min m n ↔ l = m := by omega
      exact beq_eq_beq.mpr hmin
    | _ => rfl
  | null, _, y | bool _, _, y | int _, _, y | real _, _, y | text _, _, y | bytes _, _, y
  | type _, _, y | reference _ _, _, y | violation _ _, _, y | report _ _, _, y | diff _, _, y => by
    cases y <;> rfl

theorem sameAll_blurAll : (us : List (Value C)) → (∀ u ∈ us, u.Below n) → ∀ ys,
    sameAll (mapAll DiffView.value us) (blurAll n ys) = sameAll (mapAll DiffView.value us) ys
  | [], _, ys => by cases ys <;> rfl
  | u :: us, h, [] => rfl
  | u :: us, h, y :: ys => by
    obtain ⟨hu, hus⟩ := List.forall_mem_cons.mp h
    exact congrArg₂ (· && ·) (same_blur u hu y) (sameAll_blurAll us hus ys)

theorem sameFields_blurFields : (fs : List (String × Value C)) → (∀ f ∈ fs, f.2.Below n) → ∀ gs,
    sameFields (mapFields DiffView.value fs) (blurFields n gs) =
      sameFields (mapFields DiffView.value fs) gs
  | [], _, _ => rfl
  | (k, u) :: fs, h, gs => by
    obtain ⟨hu, hfs⟩ := List.forall_mem_cons.mp h
    simp only [mapFields, sameFields, lookupField_blurFields]
    cases lookupField k gs with
    | none => rfl
    | some y => exact congrArg₂ (· && ·) (same_blur u hu y) (sameFields_blurFields fs hfs gs)

end

section

variable {rule : CopyRule C} {d d' : Nat}

mutual

/-- Duplicates of a datum beyond a bound differ in labels only. -/
theorem blur_duplicate (hd : n ≤ d) (hd' : n ≤ d') : (x : Value C) → {y y' : Value C} →
    x.duplicate rule d = .ok y → x.duplicate rule d' = .ok y' →
    blur n y.values = blur n y'.values
  | list _ xs, _, _, h, h' => by
    obtain ⟨ys, hys, h⟩ := bind_eq_ok.mp h
    obtain ⟨ys', hys', h'⟩ := bind_eq_ok.mp h'
    cases h
    cases h'
    exact congrArg (list 0) (blurAll_duplicateAll hd hd' xs hys hys')
  | tuple _ xs, _, _, h, h' => by
    obtain ⟨ys, hys, h⟩ := bind_eq_ok.mp h
    obtain ⟨ys', hys', h'⟩ := bind_eq_ok.mp h'
    cases h
    cases h'
    exact congrArg (tuple 0) (blurAll_duplicateAll hd hd' xs hys hys')
  | config _ c p xs, _, _, h, h' => by
    obtain ⟨ys, hys, h⟩ := bind_eq_ok.mp h
    obtain ⟨ys', hys', h'⟩ := bind_eq_ok.mp h'
    cases h
    cases h'
    exact congrArg (config 0 c p) (blurAll_duplicateAll hd hd' xs hys hys')
  | record _ fs, _, _, h, h' => by
    obtain ⟨gs, hgs, h⟩ := bind_eq_ok.mp h
    obtain ⟨gs', hgs', h'⟩ := bind_eq_ok.mp h'
    cases h
    cases h'
    exact congrArg (record 0) (blurFields_duplicateFields hd hd' fs hgs hgs')
  | diff x, _, _, h, h' => by
    obtain ⟨y, hy, h⟩ := bind_eq_ok.mp h
    obtain ⟨y', hy', h'⟩ := bind_eq_ok.mp h'
    cases h
    cases h'
    obtain rfl := Except.ok.inj (hy.symm.trans hy')
    simp [values, map, DiffView.value]
  | mismatch l v, _, _, h, h' => by
    cases h
    cases h'
    have hmin : min (l + d) n = min (l + d') n := by omega
    exact congrArg (mismatch · v) hmin
  | violation _ _, _, _, h, h' | report _ _, _, _, h, h' => by
    cases h
    cases h'
    rfl
  | null, _, _, h, h' | bool _, _, _, h, h' | int _, _, _, h, h' | real _, _, _, h, h'
  | text _, _, _, h, h' | bytes _, _, _, h, h' | type _, _, _, h, h'
  | reference _ _, _, _, h, h' => by rw [Except.ok.inj (h.symm.trans h')]

theorem blurAll_duplicateAll (hd : n ≤ d) (hd' : n ≤ d') : (xs : List (Value C)) →
    {ys ys' : List (Value C)} → duplicateAll rule d xs = .ok ys →
    duplicateAll rule d' xs = .ok ys' →
    blurAll n (mapAll DiffView.value ys) = blurAll n (mapAll DiffView.value ys')
  | [], _, _, h, h' => by
    cases h
    cases h'
    rfl
  | x :: xs, _, _, h, h' => by
    obtain ⟨y, hy, h⟩ := bind_eq_ok.mp h
    obtain ⟨ys, hys, h⟩ := bind_eq_ok.mp h
    obtain ⟨y', hy', h'⟩ := bind_eq_ok.mp h'
    obtain ⟨ys', hys', h'⟩ := bind_eq_ok.mp h'
    cases h
    cases h'
    exact congrArg₂ List.cons (blur_duplicate hd hd' x hy hy')
      (blurAll_duplicateAll hd hd' xs hys hys')

theorem blurFields_duplicateFields (hd : n ≤ d) (hd' : n ≤ d') : (fs : List (String × Value C)) →
    {gs gs' : List (String × Value C)} → duplicateFields rule d fs = .ok gs →
    duplicateFields rule d' fs = .ok gs' →
    blurFields n (mapFields DiffView.value gs) = blurFields n (mapFields DiffView.value gs')
  | [], _, _, h, h' => by
    cases h
    cases h'
    rfl
  | (k, x) :: fs, _, _, h, h' => by
    obtain ⟨y, hy, h⟩ := bind_eq_ok.mp h
    obtain ⟨gs, hgs, h⟩ := bind_eq_ok.mp h
    obtain ⟨y', hy', h'⟩ := bind_eq_ok.mp h'
    obtain ⟨gs', hgs', h'⟩ := bind_eq_ok.mp h'
    cases h
    cases h'
    exact congrArg₂ (fun y gs => (k, y) :: gs) (blur_duplicate hd hd' x hy hy')
      (blurFields_duplicateFields hd hd' fs hgs hgs')

end

end

/-- Whether a datum can be copied, and why not, does not depend on the labels that are next. -/
theorem deepCopy_cases (v : Value C) (next next' : Nat) :
    (∃ f, v.deepCopy next = .error f ∧ v.deepCopy next' = .error f) ∨
      ∃ p p', v.deepCopy next = .ok p ∧ v.deepCopy next' = .ok p' := by
  cases h : v.deepCopy next with
  | error f => exact .inl ⟨f, rfl, deepCopy_error h⟩
  | ok p =>
    obtain ⟨w, last, hw⟩ := exists_deepCopy h next'
    exact .inr ⟨p, (w, last), rfl, hw⟩

/-- A datum compares to all its deep copies alike, if they are beyond its own labels. -/
theorem same_deepCopy {u v w w' : Value C} {next last next' last' : Nat} (hu : u.Below n)
    (hn : n ≤ next) (hn' : n ≤ next') (h : v.deepCopy next = .ok (w, last))
    (h' : v.deepCopy next' = .ok (w', last')) :
    u.values.same w.values = u.values.same w'.values := by
  obtain ⟨y, hy, h⟩ := bind_eq_ok.mp h
  obtain ⟨y', hy', h'⟩ := bind_eq_ok.mp h'
  cases h
  cases h'
  rw [← same_blur u hu, blur_duplicate hn hn' v hy hy', same_blur u hu]

end Datum

/-- Checking that a multiplication changes nothing comes to the same whichever labels are next, if
it does change nothing. -/
theorem Law.result_checkMultiplyPurity {x v : Value C} {n next next' : Nat}
    (hpure : LawSubject.IsPure ⟨.multiplyPurity, [x, v]⟩) (hx : x.Below n) (hv : v.Below n)
    (hn : n ≤ next) (hn' : n ≤ next') :
    (checkMultiplyPurity x v next).result = (checkMultiplyPurity x v next').result := by
  unfold checkMultiplyPurity
  obtain ⟨f, h, h'⟩ | ⟨⟨before, mid⟩, ⟨before', mid'⟩, h, h'⟩ := x.deepCopy_cases next next'
  · rw [h, h']
  have hbefore := Datum.same_deepCopy hx hn hn' h h'
  have hmid := hn.trans (Datum.le_deepCopy h)
  have hmid' := hn'.trans (Datum.le_deepCopy h')
  rw [h, h']
  dsimp only
  obtain ⟨f, h, h'⟩ | ⟨⟨copy, last⟩, ⟨copy', last'⟩, h, h'⟩ := v.deepCopy_cases mid mid'
  · rw [h, h']
  have hcopy := Datum.same_deepCopy hv hmid hmid' h h'
  rw [h, h']
  dsimp only
  cases hd : x.receiver (Class.declares · .multiply) with
  | error f => rfl
  | ok d =>
    obtain rfl := Datum.eq_diff_of_receiver hd
    dsimp only
    have hfailure : (d.multiply v last).1.map (fun _ => ()) =
      (d.multiply v last').1.map fun _ => () :=
      (Object.paired_multiplyOperand d v [] last last').failure
    have hwrites := hpure d v last rfl
    have hwrites' := hpure d v last' rfl
    generalize d.multiply v last = p, d.multiply v last' = p' at hfailure hwrites hwrites' ⊢
    obtain ⟨product, s⟩ := p
    obtain ⟨product', s'⟩ := p'
    -- nothing is written, so both multiplications leave what they were given
    have hid (u : Value C) : u.writes [] = u := rfl
    dsimp only at hfailure hwrites hwrites' ⊢
    simp only [hwrites, hwrites', hid, hbefore, hcopy]
    cases product <;> cases product' <;> cases hfailure <;> rfl

end DiffAlgebra
