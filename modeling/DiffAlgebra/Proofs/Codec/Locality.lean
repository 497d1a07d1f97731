import DiffAlgebra.Proofs.Codec.Canonical

/-!
# Where reading looks

Reading a type at some place of a buffer takes as many bytes as the value that it gives takes when
it is written, and the value is decided by these bytes alone. The same bytes give the same value at
any place of any other buffer, whatever stands before and behind them.
-/

namespace DiffAlgebra

variable {C : Catalog}

namespace Diff

private theorem Spells.encodedSizeAll_eq {ts : List (DiffType C)} {xs : List (Diff C)}
    {bs : List UInt8}
    (h : Spells ts xs bs) : encodedSizeAll xs = .ok bs.length := by
  induction h with
  | nil => rfl
  | int size _ ih => simp [encodedSizeAll, encodedSize, ih, size]
  | present _ ih => simp [encodedSizeAll, encodedSize, ih]
  | anyTuple _ ih => simp [encodedSizeAll, encodedSize, ih]
  | tuple _ _ ih ih' => simp [encodedSizeAll, encodedSize, ih, ih']
  | anyVec size _ _ ih => simp [encodedSizeAll, encodedSize, ih, size]
  | vec size _ _ ih ih' => simp [encodedSizeAll, encodedSize, ih, ih', size, Nat.add_assoc]

private theorem Spells.encodedSize_eq {t : DiffType C} {x : Diff C} {bs : List UInt8}
    (h : Spells [t] [x] bs) : x.encodedSize = .ok bs.length := by
  simpa [encodedSizeAll] using h.encodedSizeAll_eq

mutual

/-- The size of a value does not depend on its integers. -/
theorem encodedSize_settle : (x : Diff C) → x.settle.encodedSize = x.encodedSize
  | int _ _ | present | custom _ _ => rfl
  | tuple ts xs => encodedSizeAll_settleAll xs
  | vec t xs => by rw [settle, encodedSize, encodedSizeAll_settleAll xs, encodedSize]

theorem encodedSizeAll_settleAll : (xs : List (Diff C)) →
    encodedSizeAll (settleAll xs) = encodedSizeAll xs
  | [] => rfl
  | x :: xs => by
    rw [settleAll, encodedSizeAll, encodedSize_settle x, encodedSizeAll_settleAll xs,
      encodedSizeAll]

end

/-- What is kept of a value takes as many bytes as spell the value. -/
theorem Spells.encodedSize_of_keep {t : DiffType C} {w x : Diff C} {bs : List UInt8}
    (h : Spells [t] [w] bs) {limit : Int} (hx : keep limit w = .ok x) :
    x.encodedSize = .ok bs.length := by
  obtain ⟨-, rfl⟩ := keep_eq_ok_iff.mp hx
  rw [encodedSize_settle, h.encodedSize_eq]

/-- Reading takes some bytes from the front of the input, as many as the value takes, and gives the
value wherever it comes upon these bytes. -/
theorem exists_passes_of_decodeFrom {limit : Int} {t : DiffType C} {c d : Cursor} {x : Diff C}
    (h : decodeFrom limit t c = .ok (x, d)) :
    ∃ bs, c.Passes bs d ∧ x.encodedSize = .ok bs.length ∧
      ∀ c' d' : Cursor, c'.Passes bs d' → decodeFrom limit t c' = .ok (x, d') := by
  obtain ⟨w, bs, hw, hc⟩ := exists_spells_of_decodeFrom t h
  have hkeep : keep limit w = .ok x := by
    rw [hw.decodeFrom_eq hc] at h
    obtain ⟨y, hy, h⟩ := bind_eq_ok.mp h
    cases h
    exact hy
  refine ⟨bs, hc, hw.encodedSize_of_keep hkeep, fun c' d' hc' => ?_⟩
  rw [hw.decodeFrom_eq hc', hkeep, ok_bind]

end Diff

namespace Cursor

variable {buffer bs : List UInt8} {offset : Nat} {d : Cursor}

def within (buffer : List UInt8) (offset : Nat) : Cursor := ⟨offset, buffer.drop offset⟩

/-- The bytes that are taken at a place are those that stand there. -/
theorem passes_within_iff :
    (within buffer offset).Passes bs d ↔
      buffer.extract offset (offset + bs.length) = bs ∧
        d = within buffer (offset + bs.length) := by
  have hextract : buffer.extract offset (offset + bs.length) =
      (buffer.drop offset).take bs.length := by
    rw [List.extract_eq_take_drop, Nat.add_sub_cancel_left]
  rw [hextract]
  constructor
  · rintro ⟨hrest, hoffset⟩
    obtain ⟨stop, rest⟩ := d
    dsimp only [within] at hrest hoffset ⊢
    subst hoffset
    rw [← List.drop_drop, hrest, List.take_left, List.drop_left]
    exact ⟨rfl, rfl⟩
  · rintro ⟨hbs, rfl⟩
    refine ⟨?_, rfl⟩
    calc buffer.drop offset
        = (buffer.drop offset).take bs.length ++ (buffer.drop offset).drop bs.length :=
          (List.take_append_drop _ _).symm
      _ = bs ++ buffer.drop (offset + bs.length) := by rw [hbs, List.drop_drop]

end Cursor

namespace Diff

/-- Reading is local and tells how far it has come. It stops inside the buffer, as many bytes behind
its start as the value takes, and it gives the same value and takes as many bytes at any place of
any buffer where these bytes stand. -/
theorem decodeFrom_local {limit : Int} {t : DiffType C} {buffer : List UInt8} {offset : Nat}
    (hoffset : offset ≤ buffer.length) {x : Diff C} {d : Cursor}
    (h : decodeFrom limit t (.within buffer offset) = .ok (x, d)) :
    ∃ stop, d = .within buffer stop ∧ offset ≤ stop ∧ stop ≤ buffer.length ∧
      x.encodedSize = .ok (stop - offset) ∧
      ∀ (other : List UInt8) (start : Nat),
        other.extract start (start + (stop - offset)) = buffer.extract offset stop →
          decodeFrom limit t (.within other start) =
            .ok (x, .within other (start + (stop - offset))) := by
  obtain ⟨bs, hpasses, hsize, hlocal⟩ := exists_passes_of_decodeFrom h
  obtain ⟨hbs, rfl⟩ := Cursor.passes_within_iff.mp hpasses
  have hrest : buffer.drop offset = bs ++ _ := hpasses.rest_eq
  have hlength := congrArg List.length hrest
  rw [List.length_drop, List.length_append] at hlength
  refine ⟨offset + bs.length, rfl, Nat.le_add_right _ _, by omega, ?_, ?_⟩
  · rwa [Nat.add_sub_cancel_left]
  · intro other start hother
    rw [Nat.add_sub_cancel_left] at hother ⊢
    exact hlocal _ _ (Cursor.passes_within_iff.mpr ⟨hother.trans hbs, rfl⟩)

/-- An integer and a sequence of two, inside a buffer. The same bytes give them at the front of
another buffer, where nothing stands around them. -/
theorem decodeFrom_local_pair :
    let t : DiffType specimens := .tuple [.int ⟨.signed, .w16⟩, .vec (.int ⟨.wrapping, .w8⟩)]
    let buffer : List UInt8 := [7, 7, 254, 255, 2, 0, 0, 0, 0, 0, 0, 0, 1, 128, 9]
    let other : List UInt8 := [254, 255, 2, 0, 0, 0, 0, 0, 0, 0, 1, 128]
    ∃ x, 2 ≤ buffer.length ∧
      decodeFrom 2 t (.within buffer 2) = .ok (x, .within buffer 14) ∧
      x.encodedSize = .ok 12 ∧
      decodeFrom 2 t (.within other 0) = .ok (x, .within other 12) := by
  intro t buffer other
  let x : Diff specimens := .tuple (some [.int ⟨.signed, .w16⟩, .vec (.int ⟨.wrapping, .w8⟩)])
    [.int ⟨.signed, .w16⟩ (-2),
      .vec (some (.int ⟨.wrapping, .w8⟩)) [.int ⟨.wrapping, .w8⟩ 1, .int ⟨.wrapping, .w8⟩ (-128)]]
  have hread : decodeFrom 2 t (.within buffer 2) = .ok (x, .within buffer 14) := by decide
  obtain ⟨stop, hstop, -, -, hsize, hlocal⟩ :=
    decodeFrom_local (show 2 ≤ buffer.length by decide) hread
  obtain rfl : 14 = stop := congrArg Cursor.offset hstop
  exact ⟨x, by decide, hread, hsize, hlocal other 0 (by decide)⟩

end Diff

end DiffAlgebra
