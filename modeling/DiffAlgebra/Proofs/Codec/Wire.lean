import DiffAlgebra.Proofs.Addition.Leaves
import DiffAlgebra.Proofs.Codec.RoundTrip

/-!
# Numbers on the wire

Bytes spell a value of a type whose integers are the numbers that their bytes denote, whether or not
their kinds hold them: a pointer-sized integer takes eight bytes, however wide a pointer is. Reading
gives that value with every integer fitted to its kind. So an integer of a trapping kind is the
number on the wire, and where such a kind does not hold the number, nothing is read at all. A
wrapping kind takes another number instead.
-/

namespace DiffAlgebra

namespace IntKind

variable {k : IntKind} {n : Int}

/-- A number that is in range once it is stored was in range before, or else its kind wraps. -/
theorem settle_of_holds_settle (h : k.Holds (k.settle n)) :
    if k.Holds n then k.settle n = n else k.family = .wrapping ∧ k.settle n = k.wrap n := by
  split
  next hn => exact settle_of_holds hn
  next hn =>
    by_cases hk : k.family = .wrapping
    · exact ⟨hk, by simp [settle, hk]⟩
    · rw [settle_of_family_ne hk] at h
      exact absurd h hn

end IntKind

variable {C : Catalog}

namespace Diff

/-- Bytes spell values of types, one after the other. Every integer is the number that its bytes
denote. -/
inductive Spells : List (DiffType C) → List (Diff C) → List UInt8 → Prop where
  | nil : Spells [] [] []
  | int {k ts xs bs rest} (size : bs.length = k.width.bytes) (others : Spells ts xs rest) :
      Spells (.int k :: ts) (.int k (Bytes.toInt k.isSigned bs) :: xs) (bs ++ rest)
  | present {ts xs rest} (others : Spells ts xs rest) :
      Spells (.present :: ts) (.present :: xs) rest
  | anyTuple {ts xs rest} (others : Spells ts xs rest) :
      Spells (.anyTuple :: ts) (.tuple none [] :: xs) rest
  | tuple {us ys ts xs bs rest} (components : Spells us ys bs) (others : Spells ts xs rest) :
      Spells (.tuple us :: ts) (.tuple (some us) ys :: xs) (bs ++ rest)
  | anyVec {ts xs head rest} (size : head.length = lengthBytes) (length_eq : Bytes.toNat head = 0)
      (others : Spells ts xs rest) : Spells (.anyVec :: ts) (.vec none [] :: xs) (head ++ rest)
  | vec {t ys ts xs head bs rest} (size : head.length = lengthBytes)
      (elements : Spells (List.replicate (Bytes.toNat head) t) ys bs) (others : Spells ts xs rest) :
      Spells (.vec t :: ts) (.vec (some t) ys :: xs) (head ++ bs ++ rest)

theorem Spells.length_eq {ts : List (DiffType C)} {xs : List (Diff C)} {bs : List UInt8}
    (h : Spells ts xs bs) : xs.length = ts.length := by
  induction h <;> simp_all

theorem spells_int {k : IntKind} {bs : List UInt8} {n : Int} (size : bs.length = k.width.bytes)
    (value_eq : Bytes.toInt k.isSigned bs = n) : Spells [.int k] [(.int k n : Diff C)] bs := by
  subst value_eq
  simpa using Spells.int size .nil

theorem Spells.append {ts us : List (DiffType C)} {xs ys : List (Diff C)} {bs cs : List UInt8}
    (h : Spells ts xs bs) (h' : Spells us ys cs) : Spells (ts ++ us) (xs ++ ys) (bs ++ cs) := by
  induction h with
  | nil => exact h'
  | int size _ ih =>
    rw [List.append_assoc]
    exact .int size ih
  | present _ ih => exact .present ih
  | anyTuple _ ih => exact .anyTuple ih
  | tuple components _ _ ih =>
    rw [List.append_assoc]
    exact .tuple components ih
  | anyVec size length_eq _ ih =>
    rw [List.append_assoc]
    exact .anyVec size length_eq ih
  | vec size elements _ _ ih =>
    rw [List.append_assoc]
    exact .vec size elements ih

mutual

/-- The value whose integers are what their kinds store them as. -/
def settle : Diff C → Diff C
  | int k n => int k (k.settle n)
  | present => present
  | custom n s => custom n s
  | tuple ts xs => tuple ts (settleAll xs)
  | vec t xs => vec t (settleAll xs)

def settleAll : List (Diff C) → List (Diff C)
  | [] => []
  | x :: xs => settle x :: settleAll xs

end

theorem settleAll_eq_map (xs : List (Diff C)) : settleAll xs = xs.map settle := by
  induction xs with
  | nil => rfl
  | cons x xs ih => simp [settleAll, ih]

private theorem parts_settle (x : Diff C) : x.settle.parts = x.parts.map settle := by
  cases x <;> simp [settle, parts, settleAll_eq_map]

theorem leafAt_settle (x : Diff C) (path : List Nat) :
    x.settle.leafAt path = (x.leafAt path).map fun a => (a.1, a.1.settle a.2) := by
  induction path generalizing x with
  | nil => cases x <;> rfl
  | cons i path ih =>
    simp only [leafAt_cons, parts_settle, List.getElem?_map]
    cases x.parts[i]? with
    | none => rfl
    | some y => exact ih y

mutual

theorem settle_of_inRange : (x : Diff C) → x.InRange → x.settle = x
  | int k n, h => by rw [settle, IntKind.settle_of_holds (inRange_int.mp h)]
  | present, _ | custom _ _, _ => rfl
  | tuple ts xs, h => by
    rw [settle, settleAll_of_inRange xs ((inRange_iff_parts (by simp)).mp h)]
  | vec t xs, h => by
    rw [settle, settleAll_of_inRange xs ((inRange_iff_parts (by simp)).mp h)]

theorem settleAll_of_inRange : (xs : List (Diff C)) → (∀ x ∈ xs, x.InRange) → settleAll xs = xs
  | [], _ => rfl
  | x :: xs, h => by
    obtain ⟨hx, hxs⟩ := List.forall_mem_cons.mp h
    rw [settleAll, settle_of_inRange x hx, settleAll_of_inRange xs hxs]

end

mutual

/-- The value that is read where bytes spell the given one: every integer is stored as its kind
stores it, which has to be in range, and no sequence has more elements than the limit. -/
def keep (limit : Int) : Diff C → Except Fault (Diff C)
  | int k n =>
    if k.Holds (k.settle n) then .ok (int k (k.settle n)) else .error (.outOfRange k.name n)
  | present => .ok present
  | custom n s => .ok (custom n s)
  | tuple ts xs => do
    let ys ← keepAll limit xs
    .ok (tuple ts ys)
  | vec t xs =>
    if limit < xs.length then .error (.sequenceLimit xs.length limit)
    else do
      let ys ← keepAll limit xs
      .ok (vec t ys)

def keepAll (limit : Int) : List (Diff C) → Except Fault (List (Diff C))
  | [] => .ok []
  | x :: xs => do
    let y ← keep limit x
    let ys ← keepAll limit xs
    .ok (y :: ys)

end

/-- A value whose stored integers are in range and whose sequences are not above the limit. -/
@[mk_iff] structure Kept (limit : Int) (x : Diff C) : Prop where
  inRange : x.settle.InRange
  lengths : ∀ n ∈ x.sequenceLengths, (n : Int) ≤ limit

section Kept

variable {limit : Int} {xs : List (Diff C)}

theorem forall_mem_sequenceLengthsAll {P : Nat → Prop} :
    (∀ n ∈ sequenceLengthsAll xs, P n) ↔ ∀ x ∈ xs, ∀ n ∈ x.sequenceLengths, P n := by
  induction xs with
  | nil => simp [sequenceLengthsAll]
  | cons x xs ih => simp [sequenceLengthsAll, or_imp, forall_and, ih]

theorem kept_int {k : IntKind} {n : Int} :
    Kept limit (int k n : Diff C) ↔ k.Holds (k.settle n) := by
  simp [kept_iff, settle, inRange_int, sequenceLengths]

private theorem kept_present : Kept limit (present : Diff C) := by
  simp [kept_iff, inRange_iff_parts, settle, parts, sequenceLengths]

private theorem kept_custom (n : C.Name) (s : C.State) : Kept limit (custom n s) := by
  simp [kept_iff, inRange_iff_parts, settle, parts, sequenceLengths]

theorem kept_tuple {ts : Option (List (DiffType C))} :
    Kept limit (tuple ts xs) ↔ ∀ x ∈ xs, Kept limit x := by
  simp [kept_iff, inRange_iff_parts, settle, settleAll_eq_map, parts, sequenceLengths,
    forall_mem_sequenceLengthsAll, forall_and]

theorem kept_vec {t : Option (DiffType C)} :
    Kept limit (vec t xs) ↔ (xs.length : Int) ≤ limit ∧ ∀ x ∈ xs, Kept limit x := by
  simp [kept_iff, inRange_iff_parts, settle, settleAll_eq_map, parts, sequenceLengths,
    forall_mem_sequenceLengthsAll, forall_and]
  tauto

end Kept

mutual

/-- Values are kept with their integers as they are stored, or reading fails. -/
theorem keep_cases (limit : Int) : (x : Diff C) → (Kept limit x ∧ keep limit x = .ok x.settle) ∨
    (¬ Kept limit x ∧ ∃ f, keep limit x = .error f ∧ f.kind = .decode)
  | int k n => by
    rw [kept_int]
    by_cases h : k.Holds (k.settle n)
    · exact Or.inl ⟨h, by simp [keep, settle, h]⟩
    · exact Or.inr ⟨h, _, by simp [keep, h]; rfl, rfl⟩
  | present => Or.inl ⟨kept_present, rfl⟩
  | custom n s => Or.inl ⟨kept_custom n s, rfl⟩
  | tuple ts xs => by
    rw [kept_tuple]
    rcases keepAll_cases limit xs with ⟨hxs, h⟩ | ⟨hxs, f, h, hf⟩
    · exact Or.inl ⟨hxs, by simp [keep, settle, h]⟩
    · exact Or.inr ⟨hxs, f, by simp [keep, h], hf⟩
  | vec t xs => by
    rw [kept_vec]
    by_cases hlength : (xs.length : Int) ≤ limit
    · have hlt : ¬ limit < xs.length := Int.not_lt.mpr hlength
      rcases keepAll_cases limit xs with ⟨hxs, h⟩ | ⟨hxs, f, h, hf⟩
      · exact Or.inl ⟨⟨hlength, hxs⟩, by simp [keep, settle, hlt, h]⟩
      · exact Or.inr ⟨fun hkept => hxs hkept.2, f, by simp [keep, hlt, h], hf⟩
    · have hlt : limit < xs.length := Int.not_le.mp hlength
      exact Or.inr ⟨fun hkept => hlength hkept.1, _, by simp [keep, hlt]; rfl, rfl⟩

theorem keepAll_cases (limit : Int) : (xs : List (Diff C)) →
    ((∀ x ∈ xs, Kept limit x) ∧ keepAll limit xs = .ok (settleAll xs)) ∨
    (¬ (∀ x ∈ xs, Kept limit x) ∧ ∃ f, keepAll limit xs = .error f ∧ f.kind = .decode)
  | [] => Or.inl ⟨by simp, rfl⟩
  | x :: xs => by
    rw [List.forall_mem_cons]
    rcases keep_cases limit x with ⟨hx, h⟩ | ⟨hx, f, h, hf⟩
    · rcases keepAll_cases limit xs with ⟨hxs, h'⟩ | ⟨hxs, f, h', hf⟩
      · exact Or.inl ⟨⟨hx, hxs⟩, by simp [keepAll, settleAll, h, h']⟩
      · exact Or.inr ⟨fun hall => hxs hall.2, f, by simp [keepAll, h, h'], hf⟩
    · exact Or.inr ⟨fun hall => hx hall.1, f, by simp [keepAll, h], hf⟩

end

theorem keep_eq_ok_iff {limit : Int} {x y : Diff C} :
    keep limit x = .ok y ↔ Kept limit x ∧ y = x.settle := by
  rcases keep_cases limit x with ⟨hx, h⟩ | ⟨hx, f, h, -⟩
  · simp [h, hx, eq_comm]
  · simp [h, hx]

private theorem exists_keep_eq_error {limit : Int} {x : Diff C} (hx : ¬ Kept limit x) :
    ∃ f, keep limit x = .error f ∧ f.kind = .decode :=
  (keep_cases limit x).elim (fun h => absurd h.1 hx) And.right

/-- What is kept at a place is the number that stood there, or what a wrapping kind makes of it. -/
theorem leafAt_of_keep {limit : Int} {x y : Diff C} (h : keep limit x = .ok y) {path : List Nat}
    {k : IntKind} {m : Int} (hleaf : y.leafAt path = some (k, m)) :
    ∃ n, x.leafAt path = some (k, n) ∧
      if k.Holds n then m = n else k.family = .wrapping ∧ m = k.wrap n := by
  obtain ⟨hkept, rfl⟩ := keep_eq_ok_iff.mp h
  have hholds := hkept.inRange path k m hleaf
  rw [leafAt_settle] at hleaf
  obtain ⟨⟨l, n⟩, hn, heq⟩ := Option.map_eq_some_iff.mp hleaf
  cases heq
  exact ⟨n, hn, IntKind.settle_of_holds_settle hholds⟩

/-- Where a trapping kind does not hold the number that stands there, nothing is kept. -/
theorem not_kept_of_leafAt {limit : Int} {x : Diff C} {path : List Nat} {k : IntKind} {n : Int}
    (hleaf : x.leafAt path = some (k, n)) (hk : k.family ≠ .wrapping) (hn : ¬ k.Holds n) :
    ¬ Kept limit x := by
  intro hkept
  refine hn (hkept.inRange path k n ?_)
  rw [leafAt_settle, hleaf, Option.map_some, IntKind.settle_of_family_ne hk]

private theorem keep_of_inRange {limit : Int} {x : Diff C} (hrange : x.InRange)
    (hlengths : ∀ n ∈ x.sequenceLengths, (n : Int) ≤ limit) : keep limit x = .ok x := by
  have hsettle := settle_of_inRange x hrange
  exact keep_eq_ok_iff.mpr ⟨⟨hsettle.symm ▸ hrange, hlengths⟩, hsettle.symm⟩

end Diff

private theorem IntKind.decode_of_passes {k : IntKind} {bs : List UInt8} {c d : Cursor}
    (size : bs.length = k.width.bytes) (hc : c.Passes bs d) :
    k.decode c =
      if k.Holds (k.settle (Bytes.toInt k.isSigned bs)) then
        .ok (k.settle (Bytes.toInt k.isSigned bs), d)
      else .error (.outOfRange k.name (Bytes.toInt k.isSigned bs)) := by
  simp only [decode, ← size, hc.take_eq, ok_bind, ofInt, fit_eq]
  by_cases h : k.Holds (k.settle (Bytes.toInt k.isSigned bs)) <;> simp [h]

namespace Diff

/-- Where bytes spell values, reading keeps what fits of them and goes on behind the bytes. -/
theorem Spells.decodeAll_eq {ts : List (DiffType C)} {xs : List (Diff C)} {bs : List UInt8}
    {c d : Cursor} (h : Spells ts xs bs) (hc : c.Passes bs d) (limit : Int) :
    decodeAll limit ts c = keepAll limit xs >>= fun ys => .ok (ys, d) := by
  induction h generalizing c d with
  | nil =>
    rw [hc.eq_of_nil]
    rfl
  | int size _ ih =>
    obtain ⟨c', hc₁, hc₂⟩ := hc.split
    simp only [decodeAll, decodeFrom, IntKind.decode_of_passes size hc₁, keepAll, keep]
    split
    · simp only [ok_bind, bind_assoc, ih hc₂]
    · rfl
  | present _ ih => simp only [decodeAll, decodeFrom, keepAll, keep, ok_bind, bind_assoc, ih hc]
  | anyTuple _ ih =>
    simp only [decodeAll, decodeFrom, keepAll, keep, ok_bind, bind_assoc, ih hc]
  | tuple _ _ ih ih' =>
    obtain ⟨c', hc₁, hc₂⟩ := hc.split
    simp only [decodeAll, decodeFrom, keepAll, keep, ok_bind, bind_assoc, ih hc₁, ih' hc₂]
  | anyVec size length_eq _ ih =>
    obtain ⟨c', hc₁, hc₂⟩ := hc.split
    simp only [decodeAll, decodeFrom, decodeLength_of_passes size hc₁, length_eq, keepAll, keep,
      List.length_nil]
    split
    · rfl
    · simp only [ok_bind, bind_assoc, if_pos, ih hc₂]
  | @vec t ys ts xs head bs rest size elements _ ih ih' =>
    obtain ⟨c', hc', hc₃⟩ := hc.split
    obtain ⟨c₁, hc₁, hc₂⟩ := hc'.split
    have hlength : ys.length = Bytes.toNat head := by
      rw [elements.length_eq, List.length_replicate]
    simp only [decodeAll, decodeFrom, decodeLength_of_passes size hc₁, decodeRepeat_eq_decodeAll,
      keepAll, keep, hlength]
    split
    · rfl
    · simp only [ok_bind, bind_assoc, ih hc₂, ih' hc₃]

theorem Spells.decodeFrom_eq {t : DiffType C} {x : Diff C} {bs : List UInt8} {c d : Cursor}
    (h : Spells [t] [x] bs) (hc : c.Passes bs d) (limit : Int) :
    decodeFrom limit t c = keep limit x >>= fun y => .ok (y, d) := by
  have hall := h.decodeAll_eq hc limit
  simp only [decodeAll, keepAll] at hall
  cases hread : decodeFrom limit t c <;> cases hkeep : keep limit x <;>
    simp_all [Prod.ext_iff]

theorem Spells.decode_eq {t : DiffType C} {x : Diff C} {bs : List UInt8}
    (h : Spells [t] [x] bs) (limit : Int) : decode limit t bs = keep limit x := by
  rw [decode, h.decodeFrom_eq (Cursor.passes_start bs)]
  cases keep limit x <;> rfl

private theorem exists_spells_of_decodeRepeat {t : DiffType C}
    {read : Cursor → Except Fault (Diff C × Cursor)}
    (hread : ∀ {c x d}, read c = .ok (x, d) → ∃ w bs, Spells [t] [w] bs ∧ c.Passes bs d) {n : Nat}
    {c d : Cursor} {xs : List (Diff C)} (h : decodeRepeat read n c = .ok (xs, d)) :
    ∃ ws bs, Spells (List.replicate n t) ws bs ∧ c.Passes bs d := by
  induction n generalizing c xs with
  | zero =>
    cases h
    exact ⟨[], [], .nil, Cursor.passes_nil _⟩
  | succ n ih =>
    obtain ⟨⟨x, c₁⟩, hx, h⟩ := bind_eq_ok.mp h
    obtain ⟨⟨ys, c₂⟩, hys, h⟩ := bind_eq_ok.mp h
    cases h
    obtain ⟨w, bs, hw, hc⟩ := hread hx
    obtain ⟨ws, rest, hws, hc'⟩ := ih hys
    exact ⟨w :: ws, bs ++ rest, hw.append hws, hc.append hc'⟩

mutual

/-- The bytes that are taken for a type spell a value of it. -/
theorem exists_spells_of_decodeFrom {limit : Int} : (t : DiffType C) → {c d : Cursor} →
    {x : Diff C} → decodeFrom limit t c = .ok (x, d) → ∃ w bs, Spells [t] [w] bs ∧ c.Passes bs d
  | .int k, _, _, _, h => by
    obtain ⟨⟨n, c₁⟩, hn, h⟩ := bind_eq_ok.mp h
    obtain ⟨⟨bs, c₂⟩, htake, hn⟩ := bind_eq_ok.mp hn
    obtain ⟨hlength, hc⟩ := Cursor.passes_of_take htake
    cases h
    dsimp only at hn
    split at hn
    · cases hn
      exact ⟨_, _, .int hlength .nil, by rwa [List.append_nil]⟩
    · cases hn
  | .anyInt _, _, _, _, h | .tier _, _, _, _, h | .custom _, _, _, _, h => nomatch h
  | .present, _, _, _, h => by
    cases h
    exact ⟨_, _, .present .nil, Cursor.passes_nil _⟩
  | .anyTuple, _, _, _, h => by
    cases h
    exact ⟨_, _, .anyTuple .nil, Cursor.passes_nil _⟩
  | .tuple ts, _, _, _, h => by
    obtain ⟨⟨xs, c₁⟩, hxs, h⟩ := bind_eq_ok.mp h
    cases h
    obtain ⟨ws, bs, hws, hc⟩ := exists_spells_of_decodeAll ts hxs
    exact ⟨_, _, .tuple hws .nil, by rwa [List.append_nil]⟩
  | .anyVec, _, _, _, h => by
    obtain ⟨⟨n, c₁⟩, hn, h⟩ := bind_eq_ok.mp h
    obtain ⟨head, hlength, hvalue, hc⟩ := passes_of_decodeLength hn
    dsimp only at h
    split at h
    · cases h
      exact ⟨_, _, .anyVec hlength (by omega) .nil, by rwa [List.append_nil]⟩
    · cases h
  | .vec t, _, _, _, h => by
    obtain ⟨⟨n, c₁⟩, hn, h⟩ := bind_eq_ok.mp h
    obtain ⟨⟨xs, c₂⟩, hxs, h⟩ := bind_eq_ok.mp h
    cases h
    obtain ⟨head, hlength, rfl, hc⟩ := passes_of_decodeLength hn
    obtain ⟨ws, bs, hws, hc'⟩ := exists_spells_of_decodeRepeat (exists_spells_of_decodeFrom t) hxs
    exact ⟨_, _, .vec hlength hws .nil, by simpa using hc.append hc'⟩

private theorem exists_spells_of_decodeAll {limit : Int} :
    (ts : List (DiffType C)) → {c d : Cursor} →
    {xs : List (Diff C)} → decodeAll limit ts c = .ok (xs, d) →
      ∃ ws bs, Spells ts ws bs ∧ c.Passes bs d
  | [], _, _, _, h => by
    cases h
    exact ⟨[], [], .nil, Cursor.passes_nil _⟩
  | t :: ts, _, _, _, h => by
    obtain ⟨⟨x, c₁⟩, hx, h⟩ := bind_eq_ok.mp h
    obtain ⟨⟨xs, c₂⟩, hxs, h⟩ := bind_eq_ok.mp h
    cases h
    obtain ⟨w, bs, hw, hc⟩ := exists_spells_of_decodeFrom t hx
    obtain ⟨ws, rest, hws, hc'⟩ := exists_spells_of_decodeAll ts hxs
    exact ⟨w :: ws, bs ++ rest, hw.append hws, hc.append hc'⟩

end

theorem exists_spells_of_decode {limit : Int} {t : DiffType C} {bs : List UInt8} {x : Diff C}
    (h : decode limit t bs = .ok x) : ∃ w, Spells [t] [w] bs := by
  obtain ⟨⟨y, d⟩, hread, h⟩ := bind_eq_ok.mp h
  dsimp only at h
  split at h
  next hrest =>
    obtain ⟨w, bs', hw, hc⟩ := exists_spells_of_decodeFrom t hread
    have hbs : bs = bs' ++ d.rest := hc.rest_eq
    rw [List.isEmpty_iff.mp hrest, List.append_nil] at hbs
    exact ⟨w, hbs ▸ hw⟩
  · cases h

end Diff

namespace Session

theorem result_decode_int {l : Value C} {t : DiffType C} (hl : layoutType l = .ok t)
    (bs : List UInt8) (limit : Option Int) (next : Nat) :
    (decode l (.bytes bs) (limit.map .int) next).result =
      (Diff.decode (limit.getD Diff.defaultLimit) t bs).map fun x =>
        .diff (Object.ofDiff x next).1 := by
  rw [result_decode hl]
  cases limit <;> rfl

/-- What is decoded is the value that the bytes spell, other than integers of wrapping kinds that do
not hold the number on the wire. Where an integer of a trapping kind does not hold it, decoding
fails. -/
theorem decode_spelled {l : Value C} {t : DiffType C} (hl : layoutType l = .ok t)
    (bs : List UInt8) (limit : Option Int) (next : Nat) :
    (∀ v, (decode l (.bytes bs) (limit.map .int) next).result = .ok v →
      ∃ w, Diff.Spells [t] [w] bs) ∧
    ∀ w, Diff.Spells [t] [w] bs →
      (∀ v, (decode l (.bytes bs) (limit.map .int) next).result = .ok v →
        ∃ o, v = .diff o ∧ ∀ path k m, o.value.leafAt path = some (k, m) →
          ∃ n, w.leafAt path = some (k, n) ∧
            if k.Holds n then m = n else k.family = .wrapping ∧ m = k.wrap n) ∧
      ((∃ path k n, w.leafAt path = some (k, n) ∧ k.family ≠ .wrapping ∧ ¬ k.Holds n) →
        ∃ f, (decode l (.bytes bs) (limit.map .int) next).result = .error f ∧
          f.kind = .decode) ∧
      (w.InRange → (∀ n ∈ w.sequenceLengths, (n : Int) ≤ limit.getD Diff.defaultLimit) →
        ∃ o, (decode l (.bytes bs) (limit.map .int) next).result = .ok (.diff o) ∧
          o.value = w) := by
  rw [result_decode_int hl]
  constructor
  · intro v hv
    obtain ⟨x, hx, -⟩ := map_eq_ok.mp hv
    exact Diff.exists_spells_of_decode hx
  intro w hw
  rw [hw.decode_eq]
  refine ⟨fun v hv => ?_, fun h => ?_, fun hrange hlengths => ?_⟩
  · obtain ⟨x, hx, rfl⟩ := map_eq_ok.mp hv
    refine ⟨_, rfl, fun path k m hleaf => ?_⟩
    rw [Object.value_ofDiff] at hleaf
    exact Diff.leafAt_of_keep hx hleaf
  · obtain ⟨path, k, n, hleaf, hk, hn⟩ := h
    obtain ⟨f, hf, hkind⟩ := Diff.exists_keep_eq_error (Diff.not_kept_of_leafAt hleaf hk hn)
    exact ⟨f, by rw [hf, error_map], hkind⟩
  · rw [Diff.keep_of_inRange hrange hlengths]
    exact ⟨_, rfl, Object.value_ofDiff ..⟩

/-- An integer of a narrow trapping kind, in a sequence, whose bytes spell the number just above its
range. -/
theorem decode_spelled_narrow :
    let k : IntKind := ⟨.signed, .narrow 32 (by decide) (by decide)⟩
    let l : Value specimens := .list 0 [.type (.diff (.int k))]
    let bs : List UInt8 := [1, 0, 0, 0, 0, 0, 0, 0, 0, 0, 0, 128, 0, 0, 0, 0]
    Diff.Spells [.vec (.int k)] [(.vec (some (.int k)) [.int k 2147483648] : Diff specimens)] bs ∧
      ∃ f, (decode l (.bytes bs) none 1).result = .error f ∧ f.kind = .decode := by
  intro k l bs
  have hl : layoutType l = .ok (.vec (.int k)) := rfl
  have helement : Diff.Spells [.int k] [(.int k 2147483648 : Diff specimens)]
      [0, 0, 0, 128, 0, 0, 0, 0] := Diff.spells_int rfl (by decide)
  have hlength : ([1, 0, 0, 0, 0, 0, 0, 0] : List UInt8).length = lengthBytes := rfl
  have hw : Diff.Spells [.vec (.int k)] [(.vec (some (.int k)) [.int k 2147483648])] bs :=
    .vec hlength helement .nil
  have htrap := ((decode_spelled hl bs none 1).2 _ hw).2.1
  exact ⟨hw, htrap ⟨[0], k, 2147483648, rfl, by decide, by decide⟩⟩

/-- A narrow wrapping kind reads the number just above its range as the least number in it. -/
theorem decode_wraps_narrow :
    let k : IntKind := ⟨.wrapping, .narrow 32 (by decide) (by decide)⟩
    let l : Value specimens := .type (.diff (.int k))
    let bs : List UInt8 := [0, 0, 0, 128, 0, 0, 0, 0]
    Bytes.toInt k.isSigned bs = 2147483648 ∧ ¬ k.Holds 2147483648 ∧
      (decode l (.bytes bs) none 1).result = .ok (.diff (.int 1 k (-2147483648))) := by
  intro k l bs
  have hw : Diff.Spells [.int k] [(.int k 2147483648 : Diff specimens)] bs :=
    Diff.spells_int rfl (by decide)
  have hsettle : k.settle 2147483648 = -2147483648 := by decide
  have hkeep : Diff.keep Diff.defaultLimit (.int k 2147483648 : Diff specimens) =
      .ok (.int k (-2147483648)) := by
    rw [Diff.keep, hsettle, if_pos (by decide)]
  have hl : layoutType l = .ok (.int k) := rfl
  refine ⟨by decide, by decide, ?_⟩
  have hread := result_decode_int hl bs none 1
  rw [Option.getD_none, hw.decode_eq, hkeep] at hread
  exact hread

end Session

end DiffAlgebra
