import DiffAlgebra.Proofs.Codec.Wire

/-!
# Writing what was read

Whatever is read for a type over the standard kinds is an exact value of the type, and it is written
as the very bytes that it was read from. So a value has no second spelling.
-/

namespace DiffAlgebra

variable {C : Catalog}

/-- The standard kinds, whose values are all that their bytes can denote. -/
def IntKind.Standard (k : IntKind) : Prop := k.width ∈ standardWidths

instance (k : IntKind) : Decidable k.Standard := inferInstanceAs (Decidable (_ ∈ _))

namespace Diff

/-- What bytes spell is written as these bytes. -/
theorem Spells.encodeAll_eq {ts : List (DiffType C)} {ws : List (Diff C)} {bs : List UInt8}
    (h : Spells ts ws bs) : encodeAll ws = .ok bs := by
  induction h with
  | nil => rfl
  | int size _ ih => simp [encodeAll, encode, IntKind.encode_toInt size, ih]
  | present _ ih => simp [encodeAll, encode, ih]
  | anyTuple _ ih => simp [encodeAll, encode, ih]
  | tuple _ _ ih ih' => simp [encodeAll, encode, ih, ih']
  | anyVec size length_eq _ ih =>
    have hhead := encodeLength_toNat size
    rw [length_eq] at hhead
    simp [encodeAll, encode, hhead, ih]
  | @vec t ys _ _ head _ _ size elements _ ih ih' =>
    have hlength : ys.length = Bytes.toNat head := by
      rw [elements.length_eq, List.length_replicate]
    simp [encodeAll, encode, hlength, encodeLength_toNat size, ih, ih']

/-- What bytes spell for types over the standard kinds are exact values. -/
theorem Spells.shaped {ts : List (DiffType C)} {ws : List (Diff C)} {bs : List UInt8}
    (h : Spells ts ws bs) (hts : ∀ t ∈ ts, t.Over IntKind.Standard) :
    List.Forall₂ (Shaped IntKind.Holds) ts ws := by
  induction h with
  | nil => exact .nil
  | int size _ ih =>
    obtain ⟨ht, hts⟩ := List.forall_mem_cons.mp hts
    cases ht with
    | int kind => exact .cons (.int (IntKind.holds_toInt kind size)) (ih hts)
  | present _ ih => exact .cons .present (ih (List.forall_mem_cons.mp hts).2)
  | anyTuple | anyVec => cases (List.forall_mem_cons.mp hts).1
  | tuple _ _ ih ih' =>
    obtain ⟨ht, hts⟩ := List.forall_mem_cons.mp hts
    cases ht with
    | tuple components =>
      have hys := ih components
      exact .cons (.tuple_of_forall₂ hys) (ih' hts)
  | @vec t ys _ _ _ _ _ _ _ _ ih ih' =>
    obtain ⟨ht, hts⟩ := List.forall_mem_cons.mp hts
    cases ht with
    | vec element =>
      have hys := ih fun u hu => List.eq_of_mem_replicate hu ▸ element
      exact .cons (.vec (forall_mem_of_forall₂_replicate hys)) (ih' hts)

/-- The binary forms of a type over the standard kinds are those of its exact values, and what is
read from them is no other value. -/
theorem decode_eq_ok_iff {t : DiffType C} (ht : t.Over IntKind.Standard) {limit : Int}
    {bs : List UInt8} {x : Diff C} :
    decode limit t bs = .ok x ↔
      Shaped IntKind.Holds t x ∧ (∀ n ∈ x.sequenceLengths, (n : Int) ≤ limit) ∧
        x.encode = .ok bs := by
  constructor
  · intro h
    obtain ⟨w, hw⟩ := exists_spells_of_decode h
    rw [hw.decode_eq, keep_eq_ok_iff] at h
    obtain ⟨hkept, rfl⟩ := h
    have hall := hw.shaped (by simpa using ht)
    cases hall with
    | cons hshape _ =>
      have hencode : encodeAll [w] = .ok bs := hw.encodeAll_eq
      rw [settle_of_inRange w (hshape.holds_iff_inRange.mp hshape)]
      exact ⟨hshape, hkept.lengths, by simpa [encodeAll] using hencode⟩
  · rintro ⟨hshape, hlimits, hbs⟩
    rw [hshape.decode_of_encode hbs, checkLengths_eq_ok hlimits]
    rfl

end Diff

namespace Session

theorem exists_decode_of_decodeBounded {t : DiffType C} {bs : ByteData} {bound : Int}
    {beyond : Nat → Fault} {x : Diff C} (h : decodeBounded t bs bound beyond = .ok x) :
    ∃ m, bs.decode m t = .ok x := by
  unfold decodeBounded at h
  split at h
  · cases h
  · exact ⟨bound, h⟩

/-- Every limit that reading succeeds with acts as an integer. -/
theorem exists_decode_of_decodeWithin {t : DiffType C} {bs : ByteData} {limit : Value C}
    {x : Diff C} (h : decodeWithin t bs limit = .ok x) : ∃ m, bs.decode m t = .ok x := by
  unfold decodeWithin at h
  split at h
  · exact ⟨_, h⟩
  · exact exists_decode_of_decodeBounded h
  · split at h
    · exact exists_decode_of_decodeBounded h
    · split at h
      · exact exists_decode_of_decodeBounded h
      · exact ⟨_, h⟩
  · exact exists_decode_of_decodeBounded h

theorem encode_of_decode {l : Value C} {t : DiffType C} (hl : layoutType l = .ok t)
    (ht : t.Over IntKind.Standard) {bs : List UInt8} {limit : Option (Value C)} {next : Nat}
    {v : Value C} (h : (decode l (.bytes bs) limit next).result = .ok v) :
    ∃ o, v = .diff o ∧ Diff.Exact t o.value ∧ o.value.encode = .ok bs := by
  rw [result_decode hl] at h
  obtain ⟨x, hx, rfl⟩ := map_eq_ok.mp h
  obtain ⟨m, hm⟩ := exists_decode_of_decodeWithin hx
  obtain ⟨hshape, _, hbs⟩ := (Diff.decode_eq_ok_iff ht).mp hm
  refine ⟨_, rfl, ?_⟩
  rw [Object.value_ofDiff]
  exact ⟨hshape.exact, hbs⟩

/-- The binary form is canonical: what is decoded is a value of the type, its encoding is what it
was decoded from, and no other bytes decode to an equal value. -/
theorem decode_canonical {l : Value C} {t : DiffType C} (hl : layoutType l = .ok t)
    (ht : t.Over IntKind.Standard) {bs : List UInt8} {limit : Option (Value C)} {next : Nat}
    {v : Value C} (h : (decode l (.bytes bs) limit next).result = .ok v) :
    ∃ o, v = .diff o ∧ Diff.Exact t o.value ∧ encode (.diff o) = .ok (.bytes bs) ∧
      ∀ (l' : Value C) (t' : DiffType C), layoutType l' = .ok t' → t'.Over IntKind.Standard →
        ∀ (bs' : List UInt8) (limit' : Option (Value C)) (next' : Nat) (o' : Object C),
          (decode l' (.bytes bs') limit' next').result = .ok (.diff o') → o'.value = o.value →
            bs' = bs := by
  obtain ⟨o, rfl, hexact, hbs⟩ := encode_of_decode hl ht h
  refine ⟨o, rfl, hexact, by simp [encode, hbs], ?_⟩
  intro l' t' hl' ht' bs' limit' next' o' h' hvalue
  obtain ⟨p, hp, _, hbs'⟩ := encode_of_decode hl' ht' h'
  cases hp
  rw [hvalue, hbs] at hbs'
  exact (Except.ok.inj hbs').symm

/-- The greatest pattern of a wrapping kind, which denotes minus one, in a sequence. -/
theorem decode_canonical_wrapping :
    let k : IntKind := ⟨.wrapping, .w16⟩
    let l : Value specimens := .list 0 [.type (.diff (.int k))]
    let bs : List UInt8 := [1, 0, 0, 0, 0, 0, 0, 0, 255, 255]
    ∃ o, (decode l (.bytes bs) none 1).result = .ok (.diff o) ∧
      o.value = .vec (some (.int k)) [.int k (-1)] ∧
      Diff.Exact (.vec (.int k)) o.value ∧ encode (.diff o) = .ok (.bytes bs) := by
  intro k l bs
  have hl : layoutType l = .ok (.vec (.int k)) := rfl
  have ht : (DiffType.vec (.int k) : DiffType specimens).Over IntKind.Standard :=
    .vec (.int (by decide))
  have hread : (decode l (.bytes bs) none 1).result =
      .ok (.diff (.vec 1 (some (.int k)) [.int 2 k (-1)])) := by rfl
  obtain ⟨o, ho, hexact, hencode, _⟩ := decode_canonical hl ht hread
  cases ho
  exact ⟨_, hread, rfl, hexact, hencode⟩

end Session

end DiffAlgebra
