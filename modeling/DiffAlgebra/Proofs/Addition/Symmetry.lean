import DiffAlgebra.Proofs.Sharing.Aliasing

/-!
# Addition is symmetric

Adding one value to another comes to what adding the other to the one comes to. Where sequences are
of different lengths the sum keeps elements of its receiver in the one case and takes clones from
its operand in the other, and the same leaf is the first one to overflow in both.
-/

namespace DiffAlgebra

variable {C : Catalog}

/-- Placing the result of an operation does not touch what the operation leaves an object with. -/
theorem Outcome.leaves_settle (o : Outcome C) (x : Object C) : o.settle.leaves x = o.leaves x := by
  unfold leaves
  rw [writes_settle]
  cases hr : o.result with
  | error f => rw [result_settle_of_error hr]
  | ok v => rw [result_settle_of_ok hr, ok_map, ok_map]

/-- Both orders of a sum check one and the same merge. -/
theorem Diff.Shaped.plus_comm {t : DiffType C} {x y : Diff C} (hx : Shaped IntKind.Holds t x)
    (hy : Shaped IntKind.Holds t y) : x.plus (.diff y) = y.plus (.diff x) := by
  rw [hx.plus_eq hy, hy.plus_eq hx, hx.merge_comm hy]

namespace Session

variable {s : Session C} {x y : Object C}

/-- Adding a datum in place leaves the receiver with the sum of its value and the datum, in every
session that commands lead to. -/
theorem Reachable.leaves_plusEquals_datum (hs : s.Reachable) {c : Command C}
    (hc : c.operation = .plusEquals) {v : Value C} {out : Outcome C}
    (hout : s.attempt c = .ok ([.diff x, v], out)) : out.leaves x = x.value.plus v.values := by
  obtain ⟨next, -, rfl, hpool⟩ := hs.isCoherent.attempt hout
  have hcall : c.call [.diff x, v] s.schemas next = plusEquals (.diff x) v next :=
    Command.call_of_ne_same hc (by decide) _ _ _
  have hv : Progress.Settled ⟨[], next⟩ v.nodes :=
    hpool.settled.mono (Datum.nodes_subset_nodesAll (by simp))
  rw [hcall, Outcome.leaves_settle]
  exact leaves_inPlace (x.renews_plusEquals (Progress.valid_start next) hv)

theorem Reachable.leaves_plusEquals (hs : s.Reachable) {c : Command C}
    (hc : c.operation = .plusEquals) {out : Outcome C}
    (hout : s.attempt c = .ok ([.diff x, .diff y], out)) :
    out.leaves x = x.value.plus (.diff y.value) :=
  hs.leaves_plusEquals_datum hc hout

theorem Reachable.exists_plusEquals_clone (hs : s.Reachable) {n m a : String}
    (hn : s.bindings.get? n = some (.diff x)) (hm : s.bindings.get? m = some (.diff y))
    (hx : x.typeOf.Concrete) (ham : a ≠ m) :
    ∃ z out,
      (s.step ⟨.clone, [.var n], some a⟩).1.attempt ⟨.plusEquals, [.var a, .var m], none⟩ =
        .ok ([.diff z, .diff y], out) ∧
      z.value = x.value ∧ out.leaves z = x.value.plus (.diff y.value) := by
  have hbindings := hs.bindings_clone hn hx a
  have ha : (s.step ⟨.clone, [.var n], some a⟩).1.bindings.get? a =
      some (.diff (Object.ofDiff x.value s.next).1) := by
    rw [hbindings, Bindings.get?_set, if_pos rfl]
  have hm' : (s.step ⟨.clone, [.var n], some a⟩).1.bindings.get? m = some (.diff y) := by
    rw [hbindings, Bindings.get?_set, if_neg ham, hm]
  obtain ⟨out, hout⟩ := attempt_vars .plusEquals none ha hm'
  have hleaves := (hs.step ⟨.clone, [.var n], some a⟩).leaves_plusEquals rfl hout
  rw [Object.value_ofDiff] at hleaves
  exact ⟨_, out, hout, Object.value_ofDiff _ _, hleaves⟩

/-- Addition is symmetric, failures included. Of any two objects of one type that commands lead to,
adding either of them to a clone of the other succeeds and leaves the clones with equal values, or
both additions are refused with the same overflow, at the same kind and the same exact result. -/
theorem Reachable.plusEquals_symmetric (hs : s.Reachable) {t : DiffType C} (ht : t.Concrete)
    {n m a : String} (hn : s.bindings.get? n = some (.diff x))
    (hm : s.bindings.get? m = some (.diff y)) (hx : Diff.Exact t x.value)
    (hy : Diff.Exact t y.value) (han : a ≠ n) (ham : a ≠ m) :
    ∃ z z' out out',
      (s.step ⟨.clone, [.var n], some a⟩).1.attempt ⟨.plusEquals, [.var a, .var m], none⟩ =
        .ok ([.diff z, .diff y], out) ∧
      (s.step ⟨.clone, [.var m], some a⟩).1.attempt ⟨.plusEquals, [.var a, .var n], none⟩ =
        .ok ([.diff z', .diff x], out') ∧
      z.value = x.value ∧ z'.value = y.value ∧
      ((∃ d, out.leaves z = .ok d ∧ out'.leaves z' = .ok d) ∨
        ∃ k i, out.result = .error (.overflow .add k i) ∧
          out'.result = .error (.overflow .add k i)) := by
  have hxs := hx.shaped_holds ht
  have hys := hy.shaped_holds ht
  have hxt : x.typeOf.Concrete := by
    rw [Object.typeOf, hx.typeOf_eq]
    exact ht
  have hyt : y.typeOf.Concrete := by
    rw [Object.typeOf, hy.typeOf_eq]
    exact ht
  obtain ⟨z, out, hout, hz, hleaves⟩ := hs.exists_plusEquals_clone hn hm hxt ham
  obtain ⟨z', out', hout', hz', hleaves'⟩ := hs.exists_plusEquals_clone hm hn hyt han
  refine ⟨z, z', out, out', hout, hout', hz, hz', ?_⟩
  rw [hys.plus_comm hxs] at hleaves'
  rcases hxs.plus_cases hys with ⟨h, -⟩ | ⟨-, k, i, h⟩
  · exact Or.inl ⟨_, hleaves.trans h, hleaves'.trans h⟩
  · exact Or.inr ⟨k, i, map_eq_error.mp (hleaves.trans h), map_eq_error.mp (hleaves'.trans h)⟩

def twoNested (xs ys : List (List Int)) : Session specimens :=
  let bytes : DiffType specimens := .vec (.vec (.int ⟨.signed, .w8⟩))
  let nested (zs : List (List Int)) : Expr specimens :=
    .new (.type (.diff bytes)) [.list (zs.map fun ns => .list (ns.map .int))]
  let s := (empty.step ⟨.evaluate, [nested xs], some "x"⟩).1
  (s.step ⟨.evaluate, [nested ys], some "y"⟩).1

/-- Each of the sequences is the longer one at some depth, and the second of their inner sequences
is where both orders overflow. -/
theorem plusEquals_symmetric_ragged :
    let s := twoNested [[1], [-100, 1], [5]] [[2, 3], [-90]]
    let k : IntKind := ⟨.signed, .w8⟩
    ∃ x y z z' out out',
      s.bindings.get? "x" = some (.diff x) ∧ s.bindings.get? "y" = some (.diff y) ∧
      (s.step ⟨.clone, [.var "x"], some "z"⟩).1.attempt
        ⟨.plusEquals, [.var "z", .var "y"], none⟩ = .ok ([.diff z, .diff y], out) ∧
      (s.step ⟨.clone, [.var "y"], some "z"⟩).1.attempt
        ⟨.plusEquals, [.var "z", .var "x"], none⟩ = .ok ([.diff z', .diff x], out') ∧
      out.result = .error (.overflow .add k (-190)) ∧
      out'.result = .error (.overflow .add k (-190)) := by
  intro s k
  let t : DiffType specimens := .vec (.int k)
  let x : Object specimens := .vec 1 (some t) [.vec 2 (some (.int k)) [.int 3 k 1],
    .vec 4 (some (.int k)) [.int 5 k (-100), .int 6 k 1], .vec 7 (some (.int k)) [.int 8 k 5]]
  let y : Object specimens := .vec 9 (some t) [.vec 10 (some (.int k)) [.int 11 k 2, .int 12 k 3],
    .vec 13 (some (.int k)) [.int 14 k (-90)]]
  have hexact (zs : List (List Int)) (h : ∀ ns ∈ zs, ∀ n ∈ ns, k.Holds n) : Diff.Exact (.vec t)
      (.vec (some t) (zs.map fun ns => .vec (some (.int k)) (ns.map (.int k)))) := by
    refine .vec (List.forall_mem_map.mpr fun ns hns => .vec (List.forall_mem_map.mpr fun n hn => ?_))
    exact .int (h ns hns n hn)
  have hs : s.Reachable := .step (.step .empty _) _
  have hx : Diff.Exact (.vec t) x.value := hexact [[1], [-100, 1], [5]] (by decide)
  have hy : Diff.Exact (.vec t) y.value := hexact [[2, 3], [-90]] (by decide)
  obtain ⟨z, z', out, out', hout, hout', hz, -, h⟩ := hs.plusEquals_symmetric (n := "x") (m := "y")
    (a := "z") (.vec (.vec (.int k))) rfl rfl hx hy (by decide) (by decide)
  refine ⟨x, y, z, z', out, out', rfl, rfl, hout, hout', ?_⟩
  have hsum : out.leaves z = .error (.overflow .add k (-190)) := by
    rw [(hs.step _).leaves_plusEquals rfl hout, hz]
    rfl
  have hresult := map_eq_error.mp hsum
  rcases h with ⟨d, hd, -⟩ | ⟨l, i, h, h'⟩
  · cases hsum.symm.trans hd
  · cases hresult.symm.trans h
    exact ⟨hresult, h'⟩

end Session

end DiffAlgebra
