import DiffAlgebra.Proofs.Addition.Spellings
import DiffAlgebra.Proofs.Contract.Forms

/-!
# Loading and coercing

A form of a value that is written without real numbers is one of the ways to spell the value. So
what the contract of a layout accepts is loaded as the value that it is coerced to, and as an
operand it means the same as the value loaded from it.
-/

namespace DiffAlgebra

variable {C : Catalog} {δ : Type}

/-- JSON data without real numbers. -/
inductive Datum.DiscreteJson : Datum C δ → Prop where
  | null : DiscreteJson null
  | bool (b : Bool) : DiscreteJson (bool b)
  | int (n : Int) : DiscreteJson (int n)
  | text (s : String) : DiscreteJson (text s)
  | list (l : Nat) {ds : List (Datum C δ)} (items : ∀ d ∈ ds, DiscreteJson d) :
      DiscreteJson (list l ds)
  | record (l : Nat) {fs : List (String × Datum C δ)} (fields : ∀ f ∈ fs, DiscreteJson f.2) :
      DiscreteJson (record l fs)

/-- Forms without real numbers spell the value whose forms they are. -/
theorem Diff.HasForm.spells [DiffView δ C] {x : Diff C} {d : Datum C δ} (h : x.HasForm d)
    (hd : d.DiscreteJson) : d.Spells x := by
  induction h with
  | int value =>
    cases value with
    | int n => exact .int (.inl rfl)
    | real value => cases hd
  | present => exact .present
  | tuple length_eq _ ih =>
    cases hd with
    | list l items =>
      refine .tuple_of_forall₂ (.list _ _) (List.Forall₂.flip ?_)
      exact forall₂_of_forall_mem_zip length_eq fun p hp =>
        ih p hp (items _ (List.of_mem_zip hp).2)
  | vec length_eq _ ih =>
    cases hd with
    | list l items =>
      refine .vec_of_forall₂ (.list _ _) (List.Forall₂.flip ?_)
      exact forall₂_of_forall_mem_zip length_eq fun p hp =>
        ih p hp (items _ (List.of_mem_zip hp).2)

namespace Session

/-- Loading agrees with coercing. JSON data without real numbers that the contract of a layout
accepts are loaded as the value to which the class of the layout coerces them. Adding the data in
place to an object of that class comes to the same as adding an object that is loaded from them. -/
theorem load_eq_coerce {l : Value C} {t : DiffType C} (hl : layoutType l = .ok t) (ht : t.Concrete)
    {d : Value C} (hd : d.DiscreteJson) (known : Schemas C) (next : Nat)
    (haccepts : (Operation.accepts.call [l, d] known next).result = .ok (.bool true)) :
    ∃ (c : Value C) (o p : Object C), (Operation.layout.call [l] known next).result = .ok c ∧
      (Operation.load.call [l, d] known next).result = .ok (.diff o) ∧
      (Operation.coerce.call [c, d] known next).result = .ok (.diff p) ∧
      o.typeOf = t ∧ o.value = p.value ∧
      ∀ {s s' : Session C} {a b : Command C} {x x' y : Object C} {out out' : Outcome C},
        s.Reachable → s'.Reachable → a.operation = .plusEquals → b.operation = .plusEquals →
        s.attempt a = .ok ([.diff x, d], out) → s'.attempt b = .ok ([.diff x', .diff y], out') →
        x.typeOf = t → x'.value = x.value → y.value = o.value → out.leaves x = out'.leaves x' := by
  rw [result_accepts hl] at haccepts
  rcases ht.load_cases d with ⟨-, -, y, hload, hy, hform⟩ | ⟨-, hrejects, -⟩
  · have hspells := hform.spells hd
    obtain ⟨p, hp, hvalue⟩ := exists_result_coerce hy hspells known next
    have hlayout : (Operation.layout.call [l] known next).result = .ok (.type (.diff t)) := by
      change (layoutType l >>= fun t => Except.ok (Datum.type (.diff t))) = _
      rw [hl, ok_bind]
    refine ⟨_, (Object.ofDiff y next).1, p, hlayout, ?_, hp, ?_, ?_, ?_⟩
    · rw [result_load hl, hload, ok_map]
    · rw [Object.typeOf, Object.value_ofDiff, hy.typeOf_eq]
    · rw [Object.value_ofDiff, hvalue]
    · rintro s s' a b x x' z out out' hs hs' ha hb hout hout' rfl hx hz
      rw [Object.value_ofDiff] at hz
      rw [hs.leaves_plusEquals_datum ha hout, hs'.leaves_plusEquals hb hout', hx, hz]
      exact Diff.plus_eq_of_spells hy hspells
  · rw [hrejects] at haccepts
    cases haccepts

def oneLoaded : Session specimens :=
  let byte : DiffType specimens := .int ⟨.unsigned, .w8⟩
  let layout : Expr specimens := .tuple [.type (.diff byte), .list [.type (.diff .present)]]
  let new : Expr specimens := .new (.type (.diff (.tuple [byte, .vec .present])))
    [.int 250, .list [.null]]
  let s := (empty.step ⟨.evaluate, [new], some "x"⟩).1
  (s.step ⟨.load, [layout, .list [.int 7, .list [.null, .null]]], some "y"⟩).1

/-- The integers of the data and of the loaded value overflow alike. -/
theorem load_eq_coerce_overflow :
    let s := oneLoaded
    let byte : IntKind := ⟨.unsigned, .w8⟩
    let l : Value specimens := .tuple 0 [.type (.diff (.int byte)), .list 0 [.type (.diff .present)]]
    let x : Object specimens := .tuple 1 (some [.int byte, .vec .present])
      [.int 2 byte 250, .vec 3 (some .present) [.present]]
    let y : Object specimens := .tuple 8 (some [.int byte, .vec .present])
      [.int 9 byte 7, .vec 10 (some .present) [.present, .present]]
    ∃ c d o p out out',
      (Operation.layout.call [l] [] 11).result = .ok c ∧
      (Operation.load.call [l, d] [] 11).result = .ok (.diff o) ∧
      (Operation.coerce.call [c, d] [] 11).result = .ok (.diff p) ∧
      o.value = p.value ∧ y.value = o.value ∧
      s.attempt ⟨.plusEquals, [.var "x", .list [.int 7, .list [.null, .null]]], none⟩ =
        .ok ([.diff x, d], out) ∧
      s.attempt ⟨.plusEquals, [.var "x", .var "y"], none⟩ = .ok ([.diff x, .diff y], out') ∧
      out.leaves x = out'.leaves x ∧ out.leaves x = .error (.overflow .add byte 257) := by
  intro s byte l x y
  have hs : s.Reachable := .step (.step .empty _) _
  have hl : layoutType l = .ok (.tuple [.int byte, .vec .present]) := rfl
  have ht : (DiffType.tuple [.int byte, .vec .present] : DiffType specimens).Concrete :=
    .pair (.int byte) (.vec .present)
  let d : Value specimens := .list 11 [.int 7, .list 12 [.null, .null]]
  have hd : d.DiscreteJson := by
    refine .list _ fun e he => ?_
    simp only [List.mem_cons, List.not_mem_nil, or_false] at he
    rcases he with rfl | rfl
    · exact .int 7
    · exact .list _ (by simpa using .null)
  obtain ⟨c, o, p, hc, ho, hp, -, hvalue, hsame⟩ := load_eq_coerce hl ht hd [] 11 rfl
  have hy : y.value = o.value := by
    cases ho
    rfl
  let a : Command specimens :=
    ⟨.plusEquals, [.var "x", .list [.int 7, .list [.null, .null]]], none⟩
  let b : Command specimens := ⟨.plusEquals, [.var "x", .var "y"], none⟩
  have hleaves := hs.leaves_plusEquals (c := b) (x := x) (y := y) rfl rfl
  have hequal := hsame (a := a) (b := b) hs hs rfl rfl rfl rfl rfl rfl hy
  refine ⟨c, d, o, p, _, _, hc, ho, hp, hvalue, hy, rfl, rfl, hequal, ?_⟩
  exact hequal.trans (hleaves.trans rfl)

end Session

end DiffAlgebra
