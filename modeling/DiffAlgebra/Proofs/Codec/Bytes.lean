import DiffAlgebra.Codec.Decode
import DiffAlgebra.Proofs.Failure

/-!
# Bytes on both sides

Writing an integer and reading it back are inverse to each other, in either order, and so are taking
input and putting it in front. A standard kind has as many values as its bytes can tell apart, so
that every one of its bit patterns denotes a value.
-/

namespace DiffAlgebra

namespace Bytes

private theorem toNat_ofInt (w : Nat) (n : Int) : (toNat (ofInt w n) : Int) = n % capacity w := by
  have hpos : 0 < capacity w := Nat.pow_pos (by decide)
  have hnonneg : 0 ≤ n % (capacity w : Int) := Int.emod_nonneg _ (by omega)
  have hlt : n % (capacity w : Int) < capacity w := Int.emod_lt_of_pos _ (by omega)
  rw [ofInt, toNat_ofNat, Nat.mod_eq_of_lt (by omega)]
  omega

theorem toInt_ofInt {signed : Bool} {w : Nat} {n : Int} (h : fits signed w n = true) :
    toInt signed (ofInt w n) = n := by
  have hvalue := toNat_ofInt w n
  unfold fits at h
  simp only [toInt, length_ofInt]
  cases signed with
  | false =>
    simp only [Bool.false_eq_true, if_false, Bool.and_eq_true, decide_eq_true_eq] at h
    rw [Int.emod_eq_of_lt h.1 h.2] at hvalue
    simpa using hvalue
  | true =>
    simp only [if_true, Bool.and_eq_true, decide_eq_true_eq] at h
    simp only [Bool.true_and, decide_eq_true_eq]
    rcases Int.lt_or_le n 0 with hneg | hneg
    · -- a negative number is written as the one that is larger by the capacity
      rw [← Int.add_emod_right, Int.emod_eq_of_lt (by omega) (by omega)] at hvalue
      rw [if_pos (by omega)]
      omega
    · rw [Int.emod_eq_of_lt hneg (by omega)] at hvalue
      rw [if_neg (by omega)]
      exact hvalue

theorem ofInt_toInt (signed : Bool) (bs : List UInt8) :
    ofInt bs.length (toInt signed bs) = bs := by
  have hlt := toNat_lt bs
  have hmod : toInt signed bs % capacity bs.length = toNat bs := by
    simp only [toInt]
    split
    · rw [Int.sub_emod_right, Int.emod_eq_of_lt (by omega) (by omega)]
    · rw [Int.emod_eq_of_lt (by omega) (by omega)]
  rw [ofInt, hmod, Int.toNat_natCast, ofNat_toNat]

theorem fits_toInt (signed : Bool) (bs : List UInt8) :
    fits signed bs.length (toInt signed bs) = true := by
  have hlt := toNat_lt bs
  unfold fits toInt
  cases signed with
  | false =>
    simp
    omega
  | true =>
    simp only [if_true, Bool.true_and, decide_eq_true_eq, Bool.and_eq_true]
    split <;> omega

end Bytes

namespace IntKind

variable {k : IntKind} {n : Int}

private theorem cardinality_le_capacity (k : IntKind) :
    k.cardinality ≤ Bytes.capacity k.width.bytes := by
  rw [Bytes.capacity_eq]
  exact Nat.pow_le_pow_right (by decide) k.width.bits_le_bytes

theorem fits_of_holds (h : k.Holds n) : Bytes.fits k.isSigned k.width.bytes n = true := by
  have hroom := k.cardinality_le_capacity
  have hhalf := k.cardinality_eq
  obtain ⟨hmin, hmax⟩ := h
  unfold Bytes.fits
  unfold min at hmin
  unfold max at hmax
  cases hs : k.isSigned
  · simp only [hs, Bool.false_eq_true, if_false] at hmin hmax ⊢
    simp only [Bool.and_eq_true, decide_eq_true_eq]
    omega
  · simp only [hs, if_true] at hmin hmax ⊢
    simp only [Bool.and_eq_true, decide_eq_true_eq]
    omega

private theorem cardinality_eq_capacity (h : k.width ∈ standardWidths) :
    k.cardinality = Bytes.capacity k.width.bytes := by
  have hbits : k.bits = 8 * k.width.bytes := by
    unfold bits
    simp only [standardWidths, List.mem_cons, List.not_mem_nil, or_false] at h
    rcases h with h | h | h | h | h | h <;> rw [h] <;> rfl
  rw [Bytes.capacity_eq, cardinality, hbits]

private theorem holds_of_fits (hk : k.width ∈ standardWidths)
    (h : Bytes.fits k.isSigned k.width.bytes n = true) : k.Holds n := by
  have hroom := cardinality_eq_capacity hk
  have hhalf := k.cardinality_eq
  unfold Bytes.fits at h
  unfold Holds min max
  cases hs : k.isSigned
  · simp only [hs, Bool.false_eq_true, if_false, Bool.and_eq_true, decide_eq_true_eq] at h ⊢
    omega
  · simp only [hs, if_true, Bool.and_eq_true, decide_eq_true_eq] at h ⊢
    omega

end IntKind

namespace Cursor

/-- What is left of `c` once the bytes `bs` are taken from its front. -/
structure Passes (c : Cursor) (bs : List UInt8) (d : Cursor) : Prop where
  rest_eq : c.rest = bs ++ d.rest
  offset_eq : d.offset = c.offset + bs.length

variable {c d e : Cursor} {as bs : List UInt8}

theorem passes_nil (c : Cursor) : c.Passes [] c := ⟨rfl, rfl⟩

theorem passes_start (bs : List UInt8) : (start bs).Passes bs ⟨bs.length, []⟩ := by
  constructor
  · exact (List.append_nil bs).symm
  · exact (Nat.zero_add _).symm

theorem Passes.append (h₁ : c.Passes as d) (h₂ : d.Passes bs e) : c.Passes (as ++ bs) e := by
  constructor
  · rw [h₁.rest_eq, h₂.rest_eq, List.append_assoc]
  · rw [h₂.offset_eq, h₁.offset_eq, List.length_append]
    omega

theorem Passes.split (h : c.Passes (as ++ bs) e) : ∃ d, c.Passes as d ∧ d.Passes bs e := by
  refine ⟨⟨c.offset + as.length, bs ++ e.rest⟩, ⟨?_, rfl⟩, ⟨rfl, ?_⟩⟩
  · rw [h.rest_eq, List.append_assoc]
  · rw [h.offset_eq, List.length_append]
    exact (Nat.add_assoc ..).symm

theorem Passes.eq_of_nil (h : c.Passes [] d) : c = d := by
  obtain ⟨hrest, hoffset⟩ := h
  cases c
  cases d
  simp_all

theorem Passes.take_eq (h : c.Passes bs d) (what : String) :
    c.take bs.length what = .ok (bs, d) := by
  obtain ⟨hrest, hoffset⟩ := h
  have hlength : bs.length ≤ c.rest.length := by
    rw [hrest, List.length_append]
    omega
  rw [take, if_pos hlength, hrest, List.take_left, List.drop_left, ← hoffset]

theorem passes_of_take {size : Nat} {what : String} (h : c.take size what = .ok (bs, d)) :
    bs.length = size ∧ c.Passes bs d := by
  unfold take at h
  split at h
  · rename_i hsize
    cases h
    refine ⟨List.length_take_of_le hsize, ⟨?_, ?_⟩⟩
    · exact (List.take_append_drop size c.rest).symm
    · rw [List.length_take_of_le hsize]
  · cases h

end Cursor

namespace IntKind

variable {k : IntKind} {n : Int} {c d : Cursor} {bs : List UInt8}

theorem encode_of_holds (h : k.Holds n) : k.encode n = .ok (Bytes.ofInt k.width.bytes n) :=
  if_pos (fits_of_holds h)

/-- An integer that was written is read as it is, whatever comes before and after it. -/
theorem decode_of_encode (h : k.Holds n) (hbs : k.encode n = .ok bs) (hc : c.Passes bs d) :
    k.decode c = .ok (n, d) := by
  rw [encode_of_holds h] at hbs
  cases hbs
  have htake := hc.take_eq k.name
  rw [Bytes.length_ofInt] at htake
  simp [decode, htake, Bytes.toInt_ofInt (fits_of_holds h), ofInt, fit_of_holds h]

theorem encode_toInt (size : bs.length = k.width.bytes) :
    k.encode (Bytes.toInt k.isSigned bs) = .ok bs := by
  rw [encode, ← size, if_pos (Bytes.fits_toInt ..), Bytes.ofInt_toInt]

/-- The bytes of a standard kind denote no other numbers than its values. -/
theorem holds_toInt (hk : k.width ∈ standardWidths) (size : bs.length = k.width.bytes) :
    k.Holds (Bytes.toInt k.isSigned bs) := by
  have hfits := Bytes.fits_toInt k.isSigned bs
  rw [size] at hfits
  exact holds_of_fits hk hfits

end IntKind

namespace Diff

variable {c d : Cursor} {bs : List UInt8} {n : Nat} {limit : Int}

private theorem toNat_of_encodeLength (h : encodeLength n = .ok bs) :
    bs.length = lengthBytes ∧ Bytes.toNat bs = n := by
  unfold encodeLength at h
  split at h
  · rename_i hroom
    cases h
    refine ⟨Bytes.length_ofNat .., ?_⟩
    rw [Bytes.toNat_ofNat, Nat.mod_eq_of_lt hroom]
  · cases h

theorem encodeLength_toNat (size : bs.length = lengthBytes) :
    encodeLength (Bytes.toNat bs) = .ok bs := by
  have hroom := Bytes.toNat_lt bs
  rw [size] at hroom
  rw [encodeLength, if_pos hroom, ← size, Bytes.ofNat_toNat]

/-- The length of a sequence is read, and then held against the limit. -/
theorem decodeLength_of_passes (size : bs.length = lengthBytes) (hc : c.Passes bs d) :
    decodeLength limit c =
      if limit < Bytes.toNat bs then .error (.sequenceLimit (Bytes.toNat bs) limit)
      else .ok (Bytes.toNat bs, d) := by
  simp only [decodeLength, ← size, hc.take_eq, ok_bind]

theorem decodeLength_of_encodeLength (h : encodeLength n = .ok bs) (hc : c.Passes bs d) :
    decodeLength limit c = if limit < n then .error (.sequenceLimit n limit) else .ok (n, d) := by
  obtain ⟨hlength, rfl⟩ := toNat_of_encodeLength h
  exact decodeLength_of_passes hlength hc

theorem passes_of_decodeLength (h : decodeLength limit c = .ok (n, d)) :
    ∃ bs : List UInt8, bs.length = lengthBytes ∧ Bytes.toNat bs = n ∧ c.Passes bs d := by
  obtain ⟨⟨bs, d'⟩, htake, h⟩ := bind_eq_ok.mp h
  obtain ⟨hlength, hpasses⟩ := Cursor.passes_of_take htake
  dsimp only at h
  split at h
  · cases h
  · cases h
    exact ⟨bs, hlength, rfl, hpasses⟩

end Diff

end DiffAlgebra
