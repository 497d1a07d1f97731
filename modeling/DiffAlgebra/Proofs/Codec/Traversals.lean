import DiffAlgebra.Proofs.Codec.RoundTrip
import DiffAlgebra.Proofs.Contract.RoundTrip
import DiffAlgebra.Proofs.Typing.Reachable

/-!
# Writing, measuring and exporting values

A value is written to bytes, its bytes are counted, and its JSON form is built, each by a traversal
of its own. The three agree on which values they take: all but those with a custom component, which
has neither form. Each of them stops at the first such component in depth-first order. What is
counted is what is written, and an integer in its range always has room in its bytes.
-/

namespace DiffAlgebra

variable {C : Catalog}

namespace Object

/-- Whether an object has no form of its own, neither in bytes nor in JSON. -/
def isFormless : Object C → Bool
  | custom _ _ _ => true
  | int _ _ _ | present | tuple _ _ _ | vec _ _ _ => false

/-- What the traversals of some objects come to: all of them give a result, and bytes are counted as
they are written, or all of them fail and name the type of the first object without a form. -/
inductive Agree {α : Type} (ys : List (Object C)) :
    Except Fault (List UInt8) → Except Fault Nat → Except Fault α → Prop where
  | ok {bs : List UInt8} {a : α} (none : ys.find? isFormless = none) :
      Agree ys (.ok bs) (.ok bs.length) (.ok a)
  | error {y : Object C} (first : ys.find? isFormless = some y) :
      Agree ys (.error (.noBinaryForm y.typeOf.name)) (.error (.noBinaryForm y.typeOf.name))
        (.error (.noJsonForm y.typeOf.name))

namespace Agree

variable {α β γ : Type} {ys zs : List (Object C)} {b b' : Except Fault (List UInt8)}
  {n n' : Except Fault Nat} {a : Except Fault α} {a' : Except Fault β}

theorem append (h : Agree ys b n a) (h' : Agree zs b' n' a') (f : α → β → γ) :
    Agree (ys ++ zs) (b >>= fun bs => b' >>= fun cs => .ok (bs ++ cs))
      (n >>= fun k => n' >>= fun l => .ok (k + l)) (a >>= fun u => a' >>= fun v => .ok (f u v)) := by
  cases h with
  | @ok bs _ hys =>
    cases h' with
    | @ok cs _ hzs =>
      simp only [ok_bind, ← List.length_append]
      exact .ok (by rw [List.find?_append, hys, hzs]; rfl)
    | error hzs => exact .error (by rw [List.find?_append, hys, hzs]; rfl)
  | error hys => exact .error (by rw [List.find?_append, hys]; rfl)

/-- An object with a form of its own gives it to the forms of its components. -/
theorem compose {x : Object C} (hx : x.isFormless = false) (h : Agree ys b n a) (f : α → γ) :
    Agree (x :: ys) b n (a >>= fun u => .ok (f u)) := by
  have hfirst : (x :: ys).find? isFormless = ys.find? isFormless :=
    List.find?_cons_of_neg (by simp [hx])
  cases h with
  | ok hys => exact .ok (hfirst.trans hys)
  | error hys => exact .error (hfirst.trans hys)

theorem after (h : Agree ys b n a) (head : List UInt8) :
    Agree ys (b >>= fun bs => .ok (head ++ bs)) (n >>= fun k => .ok (head.length + k)) a := by
  cases h with
  | ok hys =>
    simp only [ok_bind, ← List.length_append]
    exact .ok hys
  | error hys => exact .error hys

end Agree

mutual

/-- Writing an object, counting its bytes and building its JSON form agree, if its integers lie in
their ranges and its sequences can be counted in eight bytes. -/
theorem agree {δ : Type} : (x : Object C) → AllFit x.nodes →
    (∀ n ∈ x.value.sequenceLengths, n < Bytes.capacity lengthBytes) →
    Agree x.nodes x.value.encode x.value.encodedSize (x.value.toForm : Except Fault (Datum C δ))
  | int l k n, hfit, _ => by
    have holds : k.Holds n := hfit _ List.mem_cons_self
    have hnone : [int (C := C) l k n].find? isFormless = none := rfl
    have h : Agree [int l k n] (.ok (Bytes.ofInt k.width.bytes n))
        (.ok (Bytes.ofInt k.width.bytes n).length) (.ok (Datum.int n : Datum C δ)) := .ok hnone
    rw [Bytes.length_ofInt, ← IntKind.encode_of_holds holds] at h
    exact h
  | present, _, _ => by
    change Agree [present] (.ok []) (.ok ([] : List UInt8).length) (.ok Datum.null)
    exact .ok rfl
  | custom l n s, _, _ => by
    have hfirst : [custom l n s].find? isFormless = some (custom l n s) := rfl
    exact .error hfirst
  | tuple l ts xs, hfit, hlengths => by
    have hxs := agreeAll (δ := δ) xs (hfit.mono (List.subset_cons_self _ _)) hlengths
    exact hxs.compose (x := tuple l ts xs) rfl (Datum.list 0)
  | vec l t xs, hfit, hlengths => by
    have hhead : Diff.encodeLength (valueAll xs).length = .ok _ :=
      if_pos (hlengths _ List.mem_cons_self)
    have hxs := agreeAll (δ := δ) xs (hfit.mono (List.subset_cons_self _ _))
      fun n hn => hlengths n (List.mem_cons_of_mem _ hn)
    have h := (hxs.compose (x := vec l t xs) rfl (Datum.list 0)).after
      (Bytes.ofNat lengthBytes (valueAll xs).length)
    rw [Bytes.length_ofNat] at h
    simp only [value, Diff.encode, hhead, ok_bind]
    exact h

theorem agreeAll {δ : Type} : (xs : List (Object C)) → AllFit (nodesAll xs) →
    (∀ n ∈ Diff.sequenceLengthsAll (valueAll xs), n < Bytes.capacity lengthBytes) →
    Agree (nodesAll xs) (Diff.encodeAll (valueAll xs)) (Diff.encodedSizeAll (valueAll xs))
      (Diff.toForms (valueAll xs) : Except Fault (List (Datum C δ)))
  | [], _, _ => by
    change Agree [] (.ok []) (.ok ([] : List UInt8).length) (.ok [])
    exact .ok rfl
  | x :: xs, hfit, hlengths => by
    have hx := agree (δ := δ) x (hfit.mono (List.subset_append_left _ _))
      fun n hn => hlengths n (List.mem_append_left _ hn)
    have hxs := agreeAll (δ := δ) xs (hfit.mono (List.subset_append_right _ _))
      fun n hn => hlengths n (List.mem_append_right _ hn)
    exact hx.append hxs List.cons

end

end Object

namespace Session

open Datum (nodesAll)

/-- Writing a value of a reachable session, counting its bytes and building its JSON form agree, if
its sequences can be counted in eight bytes. All three succeed, and as many bytes are counted as are
written, or else they all fail as an error of type: they name the type of the first component, in
depth-first order, that has no form. An integer never goes beyond its bytes. -/
theorem Reachable.traversals_agree {s : Session C} (hs : s.Reachable) {x : Object C}
    (hx : x ∈ nodesAll s.data) (hlengths : ∀ n ∈ x.value.sequenceLengths, n < 2 ^ 64)
    (known : Schemas C) (next : Nat) :
    let encoded := (Operation.encode.call [.diff x] known next).result
    let size := (Operation.encodedSize.call [.diff x] known next).result
    let form := (Operation.toForm.call [.diff x] known next).result
    (x.nodes.find? Object.isFormless = none ∧ ∃ bs d,
      encoded = .ok (.bytes bs) ∧ size = .ok (.int bs.length) ∧ form = .ok d) ∨
    ∃ y, x.nodes.find? Object.isFormless = some y ∧
      encoded = .error (.noBinaryForm y.typeOf.name) ∧
      size = .error (.noBinaryForm y.typeOf.name) ∧ form = .error (.noJsonForm y.typeOf.name) ∧
      (Fault.noBinaryForm y.typeOf.name).kind = .type ∧
      (Fault.noJsonForm y.typeOf.name).kind = .type := by
  have hfit : AllFit x.nodes := AllFit.mono hs.isWellTyped (Datum.nodes_subset_of_mem_nodesAll hx)
  have hcapacity : Bytes.capacity lengthBytes = 2 ^ 64 := by decide
  have h := Object.agree (δ := Object C) x hfit (by rwa [hcapacity])
  have hencoded : (Operation.encode.call [.diff x] known next).result =
    x.value.encode >>= fun bs => .ok (.bytes bs) := rfl
  have hsize : (Operation.encodedSize.call [.diff x] known next).result =
    x.value.encodedSize >>= fun n => .ok (.int n) := rfl
  rw [hencoded, hsize, result_toForm]
  generalize x.value.encode = b, x.value.encodedSize = n, x.value.toForm = d at h
  cases h with
  | ok hnone => exact .inl ⟨hnone, _, _, rfl, rfl, rfl⟩
  | error hfirst => exact .inr ⟨_, hfirst, rfl, rfl, rfl, rfl, rfl⟩

def pairWithSpecimen (t : Specimen) (n : Int) : Session specimens :=
  let word : Expr specimens := .type (.diff (.int ⟨.signed, .w16⟩))
  let leaf : Expr specimens := .type (.diff (.custom t))
  let row : Expr specimens := .new (.vecType leaf) [.list [.new leaf [.int n]]]
  (empty.step ⟨.evaluate, [.new (.tupleType [word, .vecType leaf]) [.new word [.int n], row]],
    some "pair"⟩).1

private theorem reachable_pairWithSpecimen (t : Specimen) (n : Int) :
    (pairWithSpecimen t n).Reachable :=
  .step .empty _

/-- Behind an integer, a component without a form stops all three. The integer alone has its two
bytes. -/
theorem traversals_agree_pairWithSpecimen :
    ∃ x y, (pairWithSpecimen .last (-2)).data = [.diff x] ∧ y ∈ x.nodes ∧
      (Operation.encode.call [.diff x] [] 9).result = .error (.noBinaryForm "Last") ∧
      (Operation.encodedSize.call [.diff x] [] 9).result = .error (.noBinaryForm "Last") ∧
      (Operation.toForm.call [.diff x] [] 9).result = .error (.noJsonForm "Last") ∧
      (Operation.encode.call [.diff y] [] 9).result = .ok (.bytes [254, 255]) ∧
      (Operation.encodedSize.call [.diff y] [] 9).result = .ok (.int 2) ∧
      ∃ d, (Operation.toForm.call [.diff y] [] 9).result = .ok d := by
  let leaf : Object specimens := .custom 2 .last (.number (-2))
  let y : Object specimens := .int 1 ⟨.signed, .w16⟩ (-2)
  let x : Object specimens := .tuple 4 (some [y.typeOf, .vec leaf.typeOf])
    [y, .vec 3 (some leaf.typeOf) [leaf]]
  have hs := reachable_pairWithSpecimen .last (-2)
  have hy : y ∈ x.nodes := List.mem_cons_of_mem _ List.mem_cons_self
  have hx : x ∈ nodesAll (pairWithSpecimen .last (-2)).data := List.mem_cons_self
  refine ⟨x, y, rfl, hy, ?_⟩
  have hleaf : x.nodes.find? Object.isFormless = some leaf := rfl
  obtain ⟨hnone, -⟩ | ⟨z, hz, hencoded, hsize, hform, -⟩ :=
    hs.traversals_agree hx (by decide) [] 9
  · exact nomatch hleaf.symm.trans hnone
  obtain rfl : z = leaf := Option.some.inj (hz.symm.trans hleaf)
  refine ⟨hencoded, hsize, hform, ?_⟩
  have hbelow : y ∈ nodesAll (pairWithSpecimen .last (-2)).data :=
    Datum.nodes_subset_of_mem_nodesAll hx hy
  obtain ⟨-, bs, d, hencoded, hsize, hform⟩ | ⟨z, hz, -⟩ :=
    hs.traversals_agree hbelow (by decide) [] 9
  · obtain rfl : [254, 255] = bs := by cases hencoded; rfl
    exact ⟨hencoded, hsize, d, hform⟩
  · cases hz

end Session

end DiffAlgebra
