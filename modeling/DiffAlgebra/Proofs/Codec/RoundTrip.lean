import DiffAlgebra.Proofs.Codec.Bytes
import DiffAlgebra.Proofs.Shape
import DiffAlgebra.Session.Exchange
import DiffAlgebra.Specimens
import Mathlib.Algebra.Group.Nat.Defs

/-!
# Reading what was written

Every exact value whose sequences are not too long to be counted in eight bytes is written, and what
is read from its bytes is the value again, wherever the bytes stand in the input. Reading comes upon
the sequences of a value in the order in which they begin, and stops at the first that has more
elements than the limit.
-/

namespace DiffAlgebra

variable {C : Catalog}

namespace Diff

mutual

/-- The numbers of elements of all sequences in a value, in the order in which they begin. -/
def sequenceLengths : Diff C → List Nat
  | int _ _ | present | custom _ _ => []
  | tuple _ xs => sequenceLengthsAll xs
  | vec _ xs => xs.length :: sequenceLengthsAll xs

def sequenceLengthsAll : List (Diff C) → List Nat
  | [] => []
  | x :: xs => sequenceLengths x ++ sequenceLengthsAll xs

end

theorem mem_sequenceLengthsAll {n : Nat} {xs : List (Diff C)} {x : Diff C} (hx : x ∈ xs)
    (hn : n ∈ x.sequenceLengths) : n ∈ sequenceLengthsAll xs := by
  induction hx with
  | head => exact List.mem_append_left _ hn
  | tail y _ ih => exact List.mem_append_right _ ih

def checkLengths (limit : Int) : List Nat → Except Fault Unit
  | [] => .ok ()
  | n :: ns => if limit < n then .error (.sequenceLimit n limit) else checkLengths limit ns

private theorem checkLengths_append (limit : Int) (ms ns : List Nat) :
    checkLengths limit (ms ++ ns) = checkLengths limit ms >>= fun _ => checkLengths limit ns := by
  induction ms with
  | nil => rfl
  | cons m ms ih =>
    simp only [List.cons_append, checkLengths, ih]
    split <;> rfl

theorem checkLengths_eq_ok {limit : Int} {ns : List Nat} (h : ∀ n ∈ ns, (n : Int) ≤ limit) :
    checkLengths limit ns = .ok () := by
  induction ns with
  | nil => rfl
  | cons n ns ih =>
    have hn := h n List.mem_cons_self
    rw [checkLengths, if_neg (by omega)]
    exact ih fun m hm => h m (List.mem_cons_of_mem _ hm)

private theorem checkLengths_eq_error {limit : Int} {ns : List Nat} (h : ∃ n ∈ ns, limit < n) :
    ∃ n ∈ ns, limit < n ∧ checkLengths limit ns = .error (.sequenceLimit n limit) := by
  induction ns with
  | nil => simp at h
  | cons n ns ih =>
    by_cases hn : limit < n
    · exact ⟨n, List.mem_cons_self, hn, if_pos hn⟩
    · have htail : ∃ m ∈ ns, limit < m := by
        obtain ⟨m, hm, hlt⟩ := h
        rcases List.mem_cons.mp hm with rfl | hm
        · exact absurd hlt hn
        · exact ⟨m, hm, hlt⟩
      obtain ⟨m, hm, hlt, herror⟩ := ih htail
      refine ⟨m, List.mem_cons_of_mem _ hm, hlt, ?_⟩
      rw [checkLengths, if_neg hn, herror]

private theorem exists_encodeAll {xs : List (Diff C)} (h : ∀ x ∈ xs, ∃ bs, x.encode = .ok bs) :
    ∃ bs, encodeAll xs = .ok bs := by
  induction xs with
  | nil => exact ⟨[], rfl⟩
  | cons x xs ih =>
    obtain ⟨bs, hbs⟩ := h x List.mem_cons_self
    obtain ⟨rest, hrest⟩ := ih fun y hy => h y (List.mem_cons_of_mem _ hy)
    exact ⟨bs ++ rest, by simp [encodeAll, hbs, hrest]⟩

theorem Shaped.exists_encode {t : DiffType C} {x : Diff C} (h : Shaped IntKind.Holds t x)
    (hlengths : ∀ n ∈ x.sequenceLengths, n < Bytes.capacity lengthBytes) :
    ∃ bs, x.encode = .ok bs := by
  induction h with
  | int leaf => exact ⟨_, IntKind.encode_of_holds leaf⟩
  | present => exact ⟨[], rfl⟩
  | tuple length_eq _ ih =>
    refine exists_encodeAll fun x hx => ?_
    obtain ⟨t, ht⟩ := exists_mem_zip length_eq hx
    exact ih _ ht fun n hn => hlengths n (mem_sequenceLengthsAll hx hn)
  | @vec t xs _ ih =>
    have hhead : encodeLength xs.length = .ok _ := if_pos (hlengths _ List.mem_cons_self)
    obtain ⟨body, hbody⟩ := exists_encodeAll fun x hx => ih x hx fun n hn =>
      hlengths n (List.mem_cons_of_mem _ (mem_sequenceLengthsAll hx hn))
    exact ⟨_, by simp [encode, hhead, hbody]; rfl⟩

/-- A sequence is read like a tuple whose components all have the element type. -/
theorem decodeRepeat_eq_decodeAll (limit : Int) (t : DiffType C) (n : Nat) (c : Cursor) :
    decodeRepeat (decodeFrom limit t) n c = decodeAll limit (List.replicate n t) c := by
  induction n generalizing c with
  | zero => rfl
  | succ n ih => simp only [decodeRepeat, List.replicate_succ, decodeAll, ih]

/-- Reading gives back `x` wherever its bytes stand, if no sequence in it is above the limit. -/
def ReadBack (limit : Int) (t : DiffType C) (x : Diff C) : Prop :=
  ∀ {bs : List UInt8} {c d : Cursor}, x.encode = .ok bs → c.Passes bs d →
    decodeFrom limit t c = checkLengths limit x.sequenceLengths >>= fun _ => .ok (x, d)

theorem decodeAll_of_encodeAll {limit : Int} {ts : List (DiffType C)} {xs : List (Diff C)}
    (hlength : ts.length = xs.length) (h : ∀ p ∈ ts.zip xs, ReadBack limit p.1 p.2)
    {bs : List UInt8} {c d : Cursor} (hbs : encodeAll xs = .ok bs) (hc : c.Passes bs d) :
    decodeAll limit ts c =
      checkLengths limit (sequenceLengthsAll xs) >>= fun _ => .ok (xs, d) := by
  induction ts generalizing xs bs c with
  | nil =>
    cases List.length_eq_zero_iff.mp hlength.symm
    cases hbs
    rw [hc.eq_of_nil]
    rfl
  | cons t ts ih =>
    cases xs with
    | nil => cases hlength
    | cons x xs =>
      obtain ⟨head, hhead, hbs⟩ := bind_eq_ok.mp hbs
      obtain ⟨rest, hrest, hbs⟩ := bind_eq_ok.mp hbs
      cases hbs
      obtain ⟨c', hc₁, hc₂⟩ := hc.split
      have hx := h (t, x) List.mem_cons_self hhead hc₁
      have hxs := ih (Nat.succ.inj hlength) (fun p hp => h p (List.mem_cons_of_mem _ hp)) hrest hc₂
      simp only at hx
      simp only [decodeAll, hx, sequenceLengthsAll, checkLengths_append, bind_assoc, ok_bind, hxs]

theorem Shaped.readBack {limit : Int} {t : DiffType C} {x : Diff C}
    (h : Shaped IntKind.Holds t x) : ReadBack limit t x := by
  induction h with
  | int leaf =>
    intro bs c d hbs hc
    simp [decodeFrom, IntKind.decode_of_encode leaf hbs hc, sequenceLengths, checkLengths]
  | present =>
    intro bs c d hbs hc
    cases hbs
    rw [hc.eq_of_nil]
    rfl
  | tuple length_eq _ ih =>
    intro bs c d hbs hc
    simp only [decodeFrom, decodeAll_of_encodeAll length_eq ih hbs hc, sequenceLengths, bind_assoc,
      ok_bind]
  | @vec t xs _ ih =>
    intro bs c d hbs hc
    obtain ⟨head, hhead, hbs⟩ := bind_eq_ok.mp hbs
    obtain ⟨body, hbody, hbs⟩ := bind_eq_ok.mp hbs
    cases hbs
    obtain ⟨c', hc₁, hc₂⟩ := hc.split
    have helements : ∀ p ∈ (List.replicate xs.length t).zip xs, ReadBack limit p.1 p.2 := by
      intro p hp
      obtain ⟨ht, hx⟩ := List.of_mem_zip hp
      rw [List.eq_of_mem_replicate ht]
      exact ih _ hx
    have hxs := decodeAll_of_encodeAll List.length_replicate helements hbody hc₂
    simp only [decodeFrom, decodeLength_of_encodeLength hhead hc₁, sequenceLengths, checkLengths]
    split
    · rfl
    · simp only [ok_bind, decodeRepeat_eq_decodeAll, hxs, bind_assoc]

theorem Shaped.decode_of_encode {t : DiffType C} {x : Diff C} {bs : List UInt8}
    (h : Shaped IntKind.Holds t x) (hbs : x.encode = .ok bs) (limit : Int) :
    decode limit t bs = checkLengths limit x.sequenceLengths >>= fun _ => .ok x := by
  simp [decode, h.readBack hbs (Cursor.passes_start bs), bind_assoc]

end Diff

namespace Session

theorem result_decode {l : Value C} {t : DiffType C} (hl : layoutType l = .ok t) (bs : List UInt8)
    (limit : Option (Value C)) (next : Nat) :
    (decode l (.bytes bs) limit next).result =
      (decodeWithin t (.spelled bs) (limit.getD (.int Diff.defaultLimit))).map fun x =>
        .diff (Object.ofDiff x next).1 := by
  simp only [decode, hl, toBytes, ok_bind]
  split
  next x hx => rw [Outcome.result_built, hx]
  next f hf => rw [hf, error_map]

/-- Decoding undoes encoding, as long as no sequence in the value has more elements than the
limit. -/
theorem decode_encode {l : Value C} {t : DiffType C} (hl : layoutType l = .ok t) (ht : t.Concrete)
    {o : Object C} (ho : Diff.Exact t o.value)
    (hlengths : ∀ n ∈ o.value.sequenceLengths, n < 2 ^ 64) :
    ∃ bs, encode (.diff o) = .ok (.bytes bs) ∧ ∀ (m : Int) (next : Nat),
      ((∀ n ∈ o.value.sequenceLengths, (n : Int) ≤ m) →
        ∃ p, (decode l (.bytes bs) (some (.int m)) next).result = .ok (.diff p) ∧
          p.value.typeOf = t ∧ p.value = o.value) ∧
      ((∃ n ∈ o.value.sequenceLengths, m < n) →
        ∃ f, (decode l (.bytes bs) (some (.int m)) next).result = .error f ∧
          f.kind = .decode) := by
  have hshape := ho.shaped_holds ht
  obtain ⟨bs, hbs⟩ := hshape.exists_encode hlengths
  refine ⟨bs, by simp [encode, hbs], fun m next => ?_⟩
  have hresult := result_decode hl bs (some (.int m)) next
  simp only [Option.getD_some, decodeWithin, ByteData.decode, hshape.decode_of_encode hbs m]
    at hresult
  constructor
  · intro hwithin
    rw [Diff.checkLengths_eq_ok hwithin] at hresult
    refine ⟨_, hresult, ?_, ?_⟩
    · rw [Object.value_ofDiff, hshape.typeOf_eq]
    · exact Object.value_ofDiff ..
  · intro hbeyond
    obtain ⟨n, hn, hlt, herror⟩ := Diff.checkLengths_eq_error hbeyond
    rw [herror] at hresult
    exact ⟨_, hresult, rfl⟩

/-- An integer beside a sequence of sequences whose elements take no bytes. The limit holds for the
inner sequences as well. -/
theorem decode_encode_nested :
    let k : IntKind := ⟨.signed, .w8⟩
    let s : DiffType specimens := .vec .present
    let l : Value specimens := .tuple 0 [.type (.diff (.int k)), .list 1 [.type (.diff s)]]
    let o : Object specimens := .tuple 2 (some [.int k, .vec s])
      [.int 3 k (-128), .vec 4 (some s) [.vec 5 (some .present) [.present, .present]]]
    ∃ bs, encode (.diff o) = .ok (.bytes bs) ∧
      (∃ p, (decode l (.bytes bs) (some (.int 2)) 6).result = .ok (.diff p) ∧
        p.value = o.value) ∧
      ∃ f, (decode l (.bytes bs) (some (.int 1)) 6).result = .error f ∧ f.kind = .decode := by
  intro k s l o
  have hl : layoutType l = .ok (.tuple [.int k, .vec s]) := rfl
  have ht : (DiffType.tuple [.int k, .vec s] : DiffType specimens).Concrete := by
    refine .tuple (by decide) fun t ht => ?_
    simp only [List.mem_cons, List.not_mem_nil, or_false] at ht
    rcases ht with rfl | rfl
    · exact .int k
    · exact .vec (.vec .present)
  have ho : Diff.Exact (.tuple [.int k, .vec s]) o.value := by
    refine .tuple rfl fun p hp => ?_
    simp only [Object.valueAll, Object.value, List.zip_cons_cons, List.zip_nil_right,
      List.mem_cons, List.not_mem_nil, or_false] at hp
    rcases hp with rfl | rfl
    · exact .int (by decide)
    · refine .vec fun x hx => ?_
      cases List.mem_singleton.mp hx
      refine .vec fun y hy => ?_
      simp only [List.mem_cons, List.not_mem_nil, or_false, or_self] at hy
      cases hy
      exact .present
  have hlengths : ∀ n ∈ o.value.sequenceLengths, n < 2 ^ 64 := by decide
  obtain ⟨bs, hbs, hread⟩ := decode_encode hl ht ho hlengths
  refine ⟨bs, hbs, ?_, ?_⟩
  · obtain ⟨p, hp, _, hvalue⟩ := (hread 2 6).1 (by decide)
    exact ⟨p, hp, hvalue⟩
  · exact (hread 1 6).2 (by decide)

end Session

end DiffAlgebra
