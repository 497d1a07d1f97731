import DiffAlgebra.Proofs.Addition.Symmetry
import DiffAlgebra.Proofs.Integer.Residues
import DiffAlgebra.Proofs.Sharing.Frames

/-!
# Operands in raw form

An operand may be written as raw data, independently at each of its places: an integer by an integer
that names it, the presence marker by null, a tuple or a sequence by a list or a tuple of what its
components are written as, and anything by a difference that is it. However it is written, it is
coerced to the same value, and adding it comes to the same. The objects that the raw data hold stay
as they are: none of them can contain the receiver, whose type is as large as theirs.
-/

namespace DiffAlgebra

variable {C : Catalog}

/-- An integer stands for a value of a kind, among wrapping kinds modulo the number of values. -/
def IntKind.Names (k : IntKind) (m n : Int) : Prop :=
  m = n ∨ k.family = .wrapping ∧ m ≡ n [ZMOD 2 ^ k.bits]

theorem IntKind.Names.ofInt_eq {k : IntKind} {m n : Int} (h : k.Names m n) (hn : k.Holds n) :
    k.ofInt m = .ok n := by
  rcases h with rfl | ⟨hk, hmod⟩
  · exact fit_of_holds hn
  · rw [← cardinality_eq_two_pow] at hmod
    rw [eq_wrap_of_modEq hn hmod.symm]
    exact fit_wrapping hk

namespace Datum

variable {δ : Type}

inductive Lists : Datum C δ → List (Datum C δ) → Prop where
  | list (l : Nat) (vs : List (Datum C δ)) : Lists (list l vs) vs
  | tuple (l : Nat) (vs : List (Datum C δ)) : Lists (tuple l vs) vs

/-- The datum is one of the forms in which a value may be given where its type is known. -/
inductive Spells [DiffView δ C] : Datum C δ → Diff C → Prop where
  | itself {d : δ} {x : Diff C} (value_eq : DiffView.value d = x) : Spells (diff d) x
  | int {k : IntKind} {m n : Int} (names : k.Names m n) : Spells (int m) (.int k n)
  | bool {k : IntKind} {b : Bool} {n : Int} (names : k.Names (if b then 1 else 0) n) :
      Spells (bool b) (.int k n)
  | present : Spells null .present
  | tuple {v : Datum C δ} {vs : List (Datum C δ)} {ts : Option (List (DiffType C))}
      {xs : List (Diff C)} (lists : v.Lists vs) (length_eq : vs.length = xs.length)
      (components : ∀ p ∈ vs.zip xs, Spells p.1 p.2) : Spells v (.tuple ts xs)
  | vec {v : Datum C δ} {vs : List (Datum C δ)} {t : Option (DiffType C)} {xs : List (Diff C)}
      (lists : v.Lists vs) (length_eq : vs.length = xs.length)
      (elements : ∀ p ∈ vs.zip xs, Spells p.1 p.2) : Spells v (.vec t xs)

namespace Spells

variable [DiffView δ C] {v : Datum C δ} {vs : List (Datum C δ)} {xs : List (Diff C)}

theorem tuple_of_forall₂ {ts : Option (List (DiffType C))} (hv : v.Lists vs)
    (h : List.Forall₂ Spells vs xs) : v.Spells (.tuple ts xs) :=
  .tuple hv h.length_eq fun _ hp => List.forall₂_zip h hp

theorem vec_of_forall₂ {t : Option (DiffType C)} (hv : v.Lists vs)
    (h : List.Forall₂ Spells vs xs) : v.Spells (.vec t xs) :=
  .vec hv h.length_eq fun _ hp => List.forall₂_zip h hp

end Spells

end Datum

namespace Draft

open Datum (Lists Spells)

variable {δ : Type} [DiffView δ C]

private theorem coerce_diff {t : DiffType C} {d : δ} (h : (DiffView.value d).isA t = true) :
    coerce t (.diff d) = .ok (given d) := by
  obtain ⟨build, hbuild⟩ := Diff.exists_coerce_eq_keepOr t (Datum.diff d)
  simp [hbuild, keepOr, h]

private theorem coerce_int {k : IntKind} {v : Datum C δ} {m n : Int} (hraw : ∀ d, v ≠ .diff d)
    (hv : v.toInteger = .ok m) (hm : k.ofInt m = .ok n) : coerce (.int k) v = .ok (int k n) := by
  cases v with
  | diff d => exact absurd rfl (hraw d)
  | _ => simp [coerce, keepOr, refuse, ofInteger, hv, hm]

private theorem coerce_tuple {ts : List (DiffType C)} {v : Datum C δ} {vs : List (Datum C δ)}
    (hv : v.Lists vs) (hlength : vs.length = ts.length) :
    coerce (.tuple ts) v = (coerceAll ts vs).map (tuple (some ts)) := by
  cases hv <;>
    simp only [coerce, keepOr, refuse, Datum.items, Datum.checkFields, Datum.sequence, ok_bind,
      hlength, if_true] <;>
    cases coerceAll ts vs <;> rfl

private theorem mapM_coerce_eq (t : DiffType C) (vs : List (Datum C δ)) :
    vs.mapM (coerce t) = coerceAll (List.replicate vs.length t) vs := by
  induction vs with
  | nil => rfl
  | cons v vs ih =>
    rw [List.mapM_cons, ih]
    rfl

private theorem coerce_vec {t : DiffType C} {v : Datum C δ} {vs : List (Datum C δ)}
    (hv : v.Lists vs) :
    coerce (.vec t) v =
      (coerceAll (List.replicate vs.length t) vs).map (vec (some t)) := by
  rw [← mapM_coerce_eq]
  cases hv <;>
    simp only [coerce, keepOr, refuse, Datum.items, Datum.checkFields, Datum.sequence, ok_bind] <;>
    cases vs.mapM (coerce t) <;> rfl

theorem coerceAll_of_spells {ts : List (DiffType C)} {xs : List (Diff C)} {vs : List (Datum C δ)}
    (hts : ts.length = xs.length) (hvs : List.Forall₂ Spells vs xs)
    (h : ∀ p ∈ ts.zip xs, ∀ v : Datum C δ, v.Spells p.2 → (coerce p.1 v).map value = .ok p.2) :
    (coerceAll ts vs).map valueAll = .ok xs := by
  induction hvs generalizing ts with
  | nil =>
    cases ts with
    | nil => rfl
    | cons t ts => cases hts
  | cons hv _ ih =>
    cases ts with
    | nil => cases hts
    | cons t ts =>
      rw [List.zip_cons_cons, List.forall_mem_cons] at h
      obtain ⟨d, hd, hvalue⟩ := map_eq_ok.mp (h.1 _ hv)
      obtain ⟨ds, hds, hvalues⟩ := map_eq_ok.mp (ih (Nat.succ.inj hts) h.2)
      simp [coerceAll, hd, hds, valueAll, hvalue, hvalues]

/-- Every form of a value is coerced to it. -/
theorem value_coerce_of_spells {t : DiffType C} {y : Diff C} (hy : Diff.Shaped IntKind.Holds t y)
    {v : Datum C δ} (hv : v.Spells y) : (coerce t v).map value = .ok y := by
  have hitself {t : DiffType C} {y : Diff C} (hy : Diff.Shaped IntKind.Holds t y) {d : δ}
      (hd : DiffView.value d = y) : (coerce t (.diff d)).map value = .ok y := by
    have hisA : (DiffView.value d).isA t = true := by
      rw [hd, Diff.isA, hy.typeOf_eq]
      exact DiffType.isSub_self t
    rw [coerce_diff hisA, ok_map, value, hd]
  induction hy generalizing v with
  | int holds =>
    cases hv with
    | itself hd => exact hitself (.int holds) hd
    | int names => rw [coerce_int (by simp) rfl (names.ofInt_eq holds), ok_map, value]
    | bool names => rw [coerce_int (by simp) rfl (names.ofInt_eq holds), ok_map, value]
  | present =>
    cases hv with
    | itself hd => exact hitself .present hd
    | present => rfl
  | tuple length_eq components ih =>
    cases hv with
    | itself hd => exact hitself (.tuple length_eq components) hd
    | tuple lists hlength spelled =>
      have hall := coerceAll_of_spells length_eq (forall₂_of_forall_mem_zip hlength spelled)
        fun p hp v hv => ih p hp hv
      obtain ⟨ds, hds, hvalues⟩ := map_eq_ok.mp hall
      rw [coerce_tuple lists (hlength.trans length_eq.symm), hds, ok_map, ok_map, value, hvalues]
  | @vec t xs elements ih =>
    cases hv with
    | itself hd => exact hitself (.vec elements) hd
    | @vec _ vs _ _ lists hlength spelled =>
      have hlengths : (List.replicate vs.length t).length = xs.length := by
        rw [List.length_replicate, hlength]
      have hall := coerceAll_of_spells hlengths (forall₂_of_forall_mem_zip hlength spelled)
        fun p hp v hv => by
          obtain ⟨hleft, hright⟩ := List.of_mem_zip hp
          rw [List.eq_of_mem_replicate hleft]
          exact ih _ hright hv
      obtain ⟨ds, hds, hvalues⟩ := map_eq_ok.mp hall
      rw [coerce_vec lists, hds, ok_map, ok_map, value, hvalues]

end Draft

/-- A value takes every form of an operand as it takes the operand. -/
theorem Diff.plus_eq_of_spells {x y : Diff C} (hy : Shaped IntKind.Holds x.typeOf y) {δ : Type}
    [DiffView δ C] {v : Datum C δ} (hv : v.Spells y) : x.plus v.values = x.plus (.diff y) := by
  have hcoerce : Diff.coerce x.typeOf v.values = .ok y :=
    (Draft.coerce_values x.typeOf v).trans (Draft.value_coerce_of_spells hy hv)
  have hisA : y.isA x.typeOf = true := by
    rw [Diff.isA, hy.typeOf_eq]
    exact DiffType.isSub_self x.typeOf
  rw [plus, plus, hcoerce, coerce_of_isA hisA]

namespace Diff.Shaped

variable {P : IntKind → Int → Prop} {t : DiffType C}

/-- The components of a value have smaller types. -/
theorem exists_of_mem_parts {y : Diff C} (hy : Shaped P t y) {a : Diff C} (ha : a ∈ y.parts) :
    ∃ u, Shaped P u a ∧ sizeOf u < sizeOf t := by
  cases hy with
  | int | present => cases ha
  | tuple length_eq components =>
    obtain ⟨u, hu⟩ := exists_mem_zip length_eq ha
    have hlt := List.sizeOf_lt_of_mem (List.of_mem_zip hu).1
    refine ⟨u, components _ hu, ?_⟩
    simp only [DiffType.tuple.sizeOf_spec]
    omega
  | @vec t xs elements =>
    refine ⟨t, elements a ha, ?_⟩
    simp only [DiffType.vec.sizeOf_spec]
    omega

/-- The nodes of an object have smaller types, but for the object itself. -/
theorem exists_of_mem_nodes {x : Object C} (hx : Shaped P t x.value) {z : Object C}
    (hz : z ∈ x.nodes) : ∃ u, Shaped P u z.value ∧ (z = x ∨ sizeOf u < sizeOf t) := by
  induction x using Object.parts_induction generalizing t with
  | step x ih =>
    rcases Object.mem_nodes_iff.mp hz with rfl | ⟨p, hp, hzp⟩
    · exact ⟨t, hx, .inl rfl⟩
    · have hpart : p.value ∈ x.value.parts := by
        rw [Object.parts_value, Object.valueAll_eq_map]
        exact List.mem_map_of_mem hp
      obtain ⟨u, hu, hlt⟩ := hx.exists_of_mem_parts hpart
      obtain ⟨w, hw, hor⟩ := ih p hp hu hzp
      refine ⟨w, hw, .inr ?_⟩
      rcases hor with rfl | hlt'
      · obtain rfl : w = u := hw.typeOf_eq.symm.trans hu.typeOf_eq
        exact hlt
      · exact hlt'.trans hlt

private theorem not_mem_nodes {x z : Object C} (hz : Shaped P t z.value)
    (hle : sizeOf t ≤ sizeOf x.typeOf) (hne : x ≠ z) : x ∉ z.nodes := by
  intro hmem
  obtain ⟨w, hw, rfl | hlt⟩ := hz.exists_of_mem_nodes hmem
  · exact hne rfl
  · rw [Object.typeOf, hw.typeOf_eq] at hle
    omega

/-- The objects that spell a value and its components have no larger types. -/
theorem exists_of_spells {y : Diff C} (hy : Shaped P t y) {v : Value C} (hv : v.Spells y)
    {z : Object C} (hz : z ∈ v.nodes) : ∃ u, Shaped P u z.value ∧ sizeOf u ≤ sizeOf t := by
  have hitself {x : Object C} {t : DiffType C} (hx : Shaped P t x.value) (hz : z ∈ x.nodes) :
      ∃ u, Shaped P u z.value ∧ sizeOf u ≤ sizeOf t := by
    obtain ⟨u, hu, rfl | hlt⟩ := hx.exists_of_mem_nodes hz
    · obtain rfl : u = t := hu.typeOf_eq.symm.trans hx.typeOf_eq
      exact ⟨u, hu, Nat.le_refl _⟩
    · exact ⟨u, hu, hlt.le⟩
  -- what is listed spells a component, whose type is smaller
  have hlisted {t : DiffType C} {v : Value C} {vs : List (Value C)} {y : Diff C}
      (hy : Shaped P t y) (hv : v.Lists vs) (hlength : vs.length = y.parts.length)
      (ih : ∀ p ∈ vs.zip y.parts, ∀ {u : DiffType C}, Shaped P u p.2 → z ∈ p.1.nodes →
        ∃ w, Shaped P w z.value ∧ sizeOf w ≤ sizeOf u) (hz : z ∈ v.nodes) :
      ∃ w, Shaped P w z.value ∧ sizeOf w ≤ sizeOf t := by
    have hzvs : z ∈ Datum.nodesAll vs := by cases hv <;> exact hz
    obtain ⟨d, hd, hzd⟩ := Datum.mem_nodesAll.mp hzvs
    obtain ⟨i, hi⟩ := List.getElem?_of_mem hd
    obtain ⟨a, ha⟩ := exists_getElem?_eq hlength.symm hi
    obtain ⟨u, hu, hlt⟩ := hy.exists_of_mem_parts (List.mem_of_getElem? ha)
    obtain ⟨w, hw, hle⟩ := ih _ (mem_zip_of_getElem? hi ha) hu hzd
    exact ⟨w, hw, hle.trans hlt.le⟩
  induction hv generalizing t with
  | itself value_eq =>
    subst value_eq
    exact hitself hy hz
  | int | bool | present => cases hz
  | tuple lists length_eq _ ih =>
    exact hlisted hy lists length_eq (fun p hp _ hu hzp => ih p hp hu hzp) hz
  | vec lists length_eq _ ih =>
    exact hlisted hy lists length_eq (fun p hp _ hu hzp => ih p hp hu hzp) hz

end Diff.Shaped

namespace Session

variable {s s' : Session C}

theorem exists_result_coerce {t : DiffType C} {y : Diff C} (hy : Diff.Shaped IntKind.Holds t y)
    {v : Value C} (hv : v.Spells y) (known : Schemas C) (next : Nat) :
    ∃ z, (Operation.coerce.call [.type (.diff t), v] known next).result = .ok (.diff z) ∧
      z.value = y := by
  obtain ⟨d, hd, hvalue⟩ := map_eq_ok.mp (Draft.value_coerce_of_spells hy hv)
  refine ⟨(Object.ofDraft d next).1, ?_, (Object.value_ofDraft d next).trans hvalue⟩
  change (coerce (.type (.diff t)) v next).result = _
  simp [coerce, classOf, hd, Outcome.made, Outcome.shown]

/-- Every form of an operand means the same. Whatever spells a value of the type is coerced to that
value, and adding it in place to an object of the type leaves the object with the same value as
adding the value itself, or fails with the same fault. The objects in it stay as they are, but for
the receiver. -/
theorem Reachable.plusEquals_spells (hs : s.Reachable) (hs' : s'.Reachable) {t : DiffType C}
    (ht : t.Concrete) {b c : Command C} (hc : c.operation = .plusEquals)
    (hb : b.operation = .plusEquals) {x x' y : Object C} {v : Value C} {out out' : Outcome C}
    (hout : s.attempt c = .ok ([.diff x, v], out))
    (hout' : s'.attempt b = .ok ([.diff x', .diff y], out')) (hx : x.typeOf = t)
    (hx' : x'.value = x.value) (hy : Diff.Exact t y.value) (hv : v.Spells y.value) :
    (∀ known next, ∃ z, (Operation.coerce.call [.type (.diff t), v] known next).result =
      .ok (.diff z) ∧ z.value = y.value) ∧
    out.leaves x = out'.leaves x' ∧
    ∀ z ∈ v.nodes, z ≠ x → z.writes out.writes = z := by
  subst hx
  have hys := hy.shaped_holds ht
  refine ⟨exists_result_coerce hys hv, ?_, fun z hz hzx => ?_⟩
  · rw [hs.leaves_plusEquals_datum hc hout, hs'.leaves_plusEquals hb hout', hx']
    exact Diff.plus_eq_of_spells hys hv
  · have hheld : Coherent s.next (Datum.nodesAll (s.data ++ [])) := by
      rw [List.append_nil]
      exact hs.isCoherent
    obtain ⟨next, hpool, hrenews⟩ := attempt_renews hheld (.inl hc) hout
    have hnodes : v.nodes ⊆ Datum.nodesAll (s.data ++ [] ++ [.diff x, v]) :=
      Datum.nodes_subset_nodesAll (by simp)
    have hxnodes : x ∈ Datum.nodesAll (s.data ++ [] ++ [.diff x, v]) :=
      Datum.mem_nodesAll.mpr ⟨.diff x, by simp, Object.mem_nodes_self x⟩
    have hznodes : z.nodes ⊆ Datum.nodesAll (s.data ++ [] ++ [.diff x, v]) :=
      fun w hw => hnodes (Datum.mem_nodes_trans hz hw)
    obtain ⟨u, hu, hle⟩ := hys.exists_of_spells hv hz
    refine hrenews.writes_eq_self hpool hznodes fun x' rest hargs l hl hlz => ?_
    obtain ⟨rfl, -⟩ := by simpa using hargs
    -- an object with the label of the receiver is the receiver, which no operand contains
    obtain ⟨w, hw, hwl⟩ := Object.mem_labels_iff.mp hlz
    obtain rfl := hpool.eq_of_label (hznodes hw) hxnodes hwl hl
    exact hu.not_mem_nodes hle (Ne.symm hzx) hw

def sharedByte : Session specimens :=
  let byte : DiffType specimens := .int ⟨.unsigned, .w8⟩
  let whole : DiffType specimens := .tuple [.int ⟨.wrapping, .w8⟩, .vec byte, .present]
  let new (n : Int) (es : List (Expr specimens)) : Expr specimens :=
    .new (.type (.diff whole)) [.int n, .list es, .null]
  let s := (empty.step ⟨.evaluate, [.new (.type (.diff byte)) [.int 5]], some "byte"⟩).1
  let s := (s.step ⟨.evaluate, [new 100 [.int 250]], some "x"⟩).1
  (s.step ⟨.evaluate, [new 44 [.var "byte", .int 1]], some "y"⟩).1

/-- Raw data at every level stand for the second value, an integer beyond the range among them. -/
theorem plusEquals_spells_sharedByte :
    let s := sharedByte
    let byte : IntKind := ⟨.unsigned, .w8⟩
    let sum : Diff specimens := .tuple (some [.int ⟨.wrapping, .w8⟩, .vec (.int byte), .present])
      [.int ⟨.wrapping, .w8⟩ (-112), .vec (some (.int byte)) [.int byte 255, .int byte 1], .present]
    ∃ x y v out out',
      s.attempt ⟨.plusEquals,
        [.var "x", .list [.int 300, .tuple [.var "byte", .bool true], .null]], none⟩ =
          .ok ([.diff x, v], out) ∧
      s.attempt ⟨.plusEquals, [.var "x", .var "y"], none⟩ = .ok ([.diff x, .diff y], out') ∧
      out'.leaves x = .ok sum ∧ out.leaves x = .ok sum ∧
      (Object.int 1 byte 5).writes out.writes = .int 1 byte 5 := by
  intro s byte sum
  let wrapping : IntKind := ⟨.wrapping, .w8⟩
  let t : DiffType specimens := .tuple [.int wrapping, .vec (.int byte), .present]
  let b : Object specimens := .int 1 byte 5
  let x : Object specimens := .tuple 2 (some [.int wrapping, .vec (.int byte), .present])
    [.int 3 wrapping 100, .vec 4 (some (.int byte)) [.int 5 byte 250], .present]
  let y : Object specimens := .tuple 6 (some [.int wrapping, .vec (.int byte), .present])
    [.int 7 wrapping 44, .vec 8 (some (.int byte)) [b, .int 9 byte 1], .present]
  have hs : s.Reachable := .step (.step (.step .empty _) _) _
  have ht : t.Concrete := by
    refine .tuple (show 3 ≤ Fault.maxArity by decide) fun u hu => ?_
    simp only [List.mem_cons, List.not_mem_nil, or_false] at hu
    rcases hu with rfl | rfl | rfl
    · exact .int wrapping
    · exact .vec (.int byte)
    · exact .present
  have hexact (n : Int) (ns : List Int) (hn : wrapping.Holds n) (hns : ∀ m ∈ ns, byte.Holds m) :
      Diff.Exact t (.tuple (some [.int wrapping, .vec (.int byte), .present])
        [.int wrapping n, .vec (some (.int byte)) (ns.map (.int byte)), .present]) := by
    have helements : Diff.Shaped IntKind.Holds (.vec (.int byte))
        (.vec (some (.int byte)) (ns.map (Diff.int (C := specimens) byte))) :=
      .vec (List.forall_mem_map.mpr fun m hm => .int (hns m hm))
    exact (Diff.Shaped.tuple_of_forall₂ (.cons (.int hn) (.cons helements
      (.cons .present .nil)))).exact
  have hy : Diff.Exact t y.value := hexact 44 [5, 1] (by decide) (by decide)
  let v : Value specimens := .list 10 [.int 300, .tuple 11 [.diff b, .bool true], .null]
  have hv : v.Spells y.value := by
    have helements : (Datum.tuple 11 [.diff b, .bool true] : Value specimens).Spells
        (.vec (some (.int byte)) [.int byte 5, .int byte 1]) :=
      .vec_of_forall₂ (.tuple _ _) (.cons (.itself rfl) (.cons (.bool (.inl rfl)) .nil))
    refine .tuple_of_forall₂ (.list _ _) (.cons (.int (.inr ⟨rfl, ?_⟩)) (.cons helements
      (.cons .present .nil)))
    decide
  obtain ⟨-, hsame, hframe⟩ := hs.plusEquals_spells hs ht
    (c := ⟨.plusEquals, [.var "x", .list [.int 300, .tuple [.var "byte", .bool true], .null]], none⟩)
    (b := ⟨.plusEquals, [.var "x", .var "y"], none⟩) (v := v) rfl rfl rfl rfl rfl rfl hy hv
  have hsum : x.value.plus (.diff y.value) = .ok sum := by
    simp only [x, y, b, sum, byte, wrapping]
    rfl
  have hleaves := (hs.leaves_plusEquals (c := ⟨.plusEquals, [.var "x", .var "y"], none⟩) (x := x)
    (y := y) rfl rfl).trans hsum
  have hb : b ∈ v.nodes := by simp [v, Datum.nodes, Datum.nodesAll, Object.nodes, b]
  exact ⟨x, y, v, _, _, rfl, rfl, hleaves, hsame.trans hleaves, hframe b hb nofun⟩

end Session

end DiffAlgebra
