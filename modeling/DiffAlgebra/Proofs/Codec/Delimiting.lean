import DiffAlgebra.Proofs.Codec.Reading
import Mathlib.Algebra.Order.BigOperators.Group.List
import Mathlib.Algebra.Order.Group.Nat

/-!
# Where encodings end

The bytes of a value tell where they end. What is cut off them is missed, since reading would come
to the same end in front of the missing bytes, and what follows them is left over. So no encoding
of a value begins another one of the same type.
-/

namespace DiffAlgebra

variable {C : Catalog}

namespace Diff

open IntKind (Holds)

variable {limit : Int} {t : DiffType C} {x y : Diff C} {bs more : List UInt8}

/-- From the bytes of a value and more bytes, the value is read up to the latter. -/
theorem Shaped.decodeFrom_start (hx : Shaped Holds t x)
    (hlengths : ∀ n ∈ x.sequenceLengths, (n : Int) ≤ limit) (hbs : x.encode = .ok bs)
    (more : List UInt8) :
    decodeFrom limit t (Cursor.start (bs ++ more)) = .ok (x, ⟨bs.length, more⟩) := by
  have hpasses : (Cursor.start (bs ++ more)).Passes bs ⟨bs.length, more⟩ :=
    ⟨rfl, (Nat.zero_add _).symm⟩
  rw [hx.readBack hbs hpasses, checkLengths_eq_ok hlengths, ok_bind]

private theorem Shaped.decode_append (hx : Shaped Holds t x)
    (hlengths : ∀ n ∈ x.sequenceLengths, (n : Int) ≤ limit) (hbs : x.encode = .ok bs)
    (hmore : more ≠ []) :
    decode limit t (bs ++ more) = .error (.trailing t.name more.length) := by
  rw [decode_of_decodeFrom (hx.decodeFrom_start hlengths hbs more), if_neg hmore]

/-- Input ends before the value does if some of the bytes of the value are missing. -/
theorem Shaped.decode_ends (hx : Shaped Holds t x) (ht : t.Concrete)
    (hlengths : ∀ n ∈ x.sequenceLengths, (n : Int) ≤ limit) (hbs : x.encode = .ok (bs ++ more))
    (hmore : more ≠ []) : ∃ f, decode limit t bs = .error f ∧ f.Ends bs.length := by
  have hread := hx.decodeFrom_start hlengths hbs []
  rw [List.append_nil] at hread
  rcases (reads_decodeFrom ht limit).cases (Cursor.start bs) with
    ⟨y, d, -, -, -, hextend⟩ | ⟨f, -, -, hextend⟩ | ⟨f, herror, hends⟩
  · have hrest := congrArg (fun p => p.2.rest) (Except.ok.inj ((hextend more).symm.trans hread))
    exact absurd (List.append_eq_nil_iff.mp hrest).2 hmore
  · cases (hextend more).symm.trans hread
  · rw [Cursor.total_start] at hends
    exact ⟨f, by simp [decode, herror], hends⟩

/-- No encoding of a value begins another one of the type. -/
theorem Shaped.eq_of_encode_append (hx : Shaped Holds t x) (hy : Shaped Holds t y)
    (hbs : x.encode = .ok bs) (hmore : y.encode = .ok (bs ++ more)) : more = [] ∧ x = y := by
  -- reading has to know a limit that no sequence in the two values is above
  let limit : Int := ((x.sequenceLengths ++ y.sequenceLengths).sum : Nat)
  have hlimit (n : Nat) (hn : n ∈ x.sequenceLengths ++ y.sequenceLengths) : (n : Int) ≤ limit :=
    Int.ofNat_le.mpr (List.single_le_sum (fun _ _ => Nat.zero_le _) n hn)
  have hfirst := hx.decodeFrom_start (fun n hn => hlimit n (List.mem_append_left _ hn)) hbs more
  have hsecond := hy.decodeFrom_start (fun n hn => hlimit n (List.mem_append_right _ hn)) hmore []
  rw [List.append_nil, hfirst] at hsecond
  obtain ⟨rfl, hcursor⟩ := Prod.mk.inj (Except.ok.inj hsecond)
  exact ⟨congrArg Cursor.rest hcursor, rfl⟩

end Diff

namespace Session

theorem encode_eq_ok {o : Object C} {bs : List UInt8} :
    encode (.diff o) = .ok (.bytes bs) ↔ o.value.encode = .ok bs := by
  simp [encode]

/-- Encodings are self-delimiting. Decoding fails for want of input if bytes are missing at the end
of an encoding, and reports exactly the bytes that follow it. No encoding of a value begins the
encoding of another value of the type. -/
theorem decode_delimited {l : Value C} {t : DiffType C} (hl : layoutType l = .ok t)
    (ht : t.Concrete) {o : Object C} (ho : Diff.Exact t o.value) {limit : Option Int}
    (hlengths : ∀ n ∈ o.value.sequenceLengths, (n : Int) ≤ limit.getD Diff.defaultLimit)
    (next : Nat) :
    ((∀ n ∈ o.value.sequenceLengths, n < 2 ^ 64) →
      ∃ bs, encode (.diff o) = .ok (.bytes bs)) ∧
    ∀ bs, encode (.diff o) = .ok (.bytes bs) →
      (∀ as, as <+: bs → as ≠ bs → ∃ what size offset rest,
        (decode l (.bytes as) (limit.map .int) next).result =
          .error (.truncated what size offset rest)) ∧
      (∀ more, more ≠ [] → (decode l (.bytes (bs ++ more)) (limit.map .int) next).result =
        .error (.trailing t.name more.length)) ∧
      ∀ p cs, Diff.Exact t p.value → encode (.diff p) = .ok (.bytes cs) → bs <+: cs →
        bs = cs ∧ o.value = p.value := by
  have hshape := ho.shaped_holds ht
  constructor
  · intro hroom
    obtain ⟨bs, hbs⟩ := hshape.exists_encode hroom
    exact ⟨bs, encode_eq_ok.mpr hbs⟩
  intro bs hbs
  rw [encode_eq_ok] at hbs
  refine ⟨?_, ?_, ?_⟩
  · rintro as ⟨more, rfl⟩ hne
    have hmore : more ≠ [] := by
      rintro rfl
      exact hne (List.append_nil as).symm
    obtain ⟨f, hf, hends⟩ := hshape.decode_ends ht hlengths hbs hmore
    cases hends
    exact ⟨_, _, _, _, by rw [result_decode_int hl, hf, error_map]⟩
  · intro more hmore
    rw [result_decode_int hl, hshape.decode_append hlengths hbs hmore, error_map]
  · rintro p cs hp hcs ⟨more, rfl⟩
    obtain ⟨rfl, hvalue⟩ :=
      hshape.eq_of_encode_append (hp.shaped_holds ht) hbs (encode_eq_ok.mp hcs)
    exact ⟨(List.append_nil bs).symm, hvalue⟩

/-- A pair of a wrapping integer and a sequence of presence markers. Its bytes are cut between the
components, where the marker takes none, and followed by what looks like one more marker. -/
theorem decode_delimited_present :
    let k : IntKind := ⟨.wrapping, .w16⟩
    let t : DiffType specimens := .tuple [.int k, .vec .present]
    let o : Object specimens := .tuple 1 (some [.int k, .vec .present])
      [.int 2 k (-2), .vec 3 (some .present) [.present]]
    ∃ bs, encode (.diff o) = .ok (.bytes bs) ∧
      (∃ what size offset rest, (decode (.type (.diff t)) (.bytes [254, 255]) none 4).result =
        .error (.truncated what size offset rest)) ∧
      (decode (.type (.diff t)) (.bytes (bs ++ [1])) none 4).result =
        .error (.trailing t.name 1) := by
  intro k t o
  have ht : t.Concrete := .pair (.int k) (.vec .present)
  have ho : Diff.Exact t o.value := by
    refine .pair (.int (by decide)) (.vec fun x hx => ?_)
    cases List.mem_singleton.mp hx
    exact .present
  have hl : layoutType (.type (.diff t)) = .ok t := rfl
  have hlengths : ∀ n ∈ o.value.sequenceLengths,
      (n : Int) ≤ (none : Option Int).getD Diff.defaultLimit := by decide
  have hbs : encode (.diff o) = .ok (.bytes [254, 255, 1, 0, 0, 0, 0, 0, 0, 0]) :=
    encode_eq_ok.mpr (by decide)
  obtain ⟨hcut, hmore, -⟩ := (decode_delimited hl ht ho hlengths 4).2 _ hbs
  exact ⟨_, hbs, hcut [254, 255] (by decide) (by decide), hmore [1] (by decide)⟩

end Session

end DiffAlgebra
