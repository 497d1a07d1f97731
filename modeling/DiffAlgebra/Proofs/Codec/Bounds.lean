import DiffAlgebra.Proofs.Addition.Spellings
import DiffAlgebra.Proofs.Codec.Locality
import DiffAlgebra.Proofs.Codec.Reading
import Mathlib.Algebra.Order.BigOperators.Group.List

/-!
# How large a decoded value is

Each sequence of a value pays eight bytes for its length, and each of its elements pays at least
what the values of the element type take. So the input bounds how many sequences there are, and how
many elements a sequence has whose elements take bytes. Elements without bytes are bounded by the
limit alone, which holds for each sequence apart. The limit decides whether a value is read, but not
which.
-/

namespace DiffAlgebra

variable {C : Catalog}

def DiffType.TakesAtLeast (t : DiffType C) (k : Nat) : Prop :=
  ∀ (x : Diff C) (n : Nat), Diff.Exact t x → x.encodedSize = .ok n → k ≤ n

namespace Diff

open DiffType (minimalSize minimalSizeAll)
open IntKind (Holds)

variable {P : IntKind → Int → Prop} {t : DiffType C} {x : Diff C} {xs : List (Diff C)} {n : Nat}

private theorem minimalSizeAll_le {ts : List (DiffType C)} (hlength : ts.length = xs.length)
    (h : ∀ p ∈ ts.zip xs, ∀ {n}, p.2.encodedSize = .ok n → p.1.minimalSize ≤ n)
    (hn : encodedSizeAll xs = .ok n) : minimalSizeAll ts ≤ n := by
  induction ts generalizing xs n with
  | nil => exact Nat.zero_le n
  | cons t ts ih =>
    cases xs with
    | nil => cases hlength
    | cons x xs =>
      obtain ⟨a, ha, hn⟩ := bind_eq_ok.mp hn
      obtain ⟨b, hb, hn⟩ := bind_eq_ok.mp hn
      cases hn
      exact Nat.add_le_add (h (t, x) List.mem_cons_self ha)
        (ih (Nat.succ.inj hlength) (fun p hp => h p (List.mem_cons_of_mem _ hp)) hb)

private theorem Shaped.minimalSize_le (h : Shaped P t x) (hn : x.encodedSize = .ok n) :
    t.minimalSize ≤ n := by
  induction h generalizing n with
  | int =>
    cases hn
    exact Nat.le_refl _
  | present => exact Nat.zero_le n
  | tuple length_eq _ ih => exact minimalSizeAll_le length_eq ih hn
  | vec =>
    obtain ⟨m, -, hn⟩ := bind_eq_ok.mp hn
    cases hn
    exact Nat.le_add_right _ _

private theorem exists_minimalAll {ts : List (DiffType C)}
    (h : ∀ t ∈ ts, ∃ x, Shaped Holds t x ∧ x.encodedSize = .ok t.minimalSize) :
    ∃ xs, List.Forall₂ (Shaped Holds) ts xs ∧ encodedSizeAll xs = .ok (minimalSizeAll ts) := by
  induction ts with
  | nil => exact ⟨[], .nil, rfl⟩
  | cons t ts ih =>
    obtain ⟨⟨x, hx, hsize⟩, hts⟩ := List.forall_mem_cons.mp h
    obtain ⟨xs, hxs, hsizes⟩ := ih hts
    exact ⟨x :: xs, .cons hx hxs, by simp [encodedSizeAll, hsize, hsizes, minimalSizeAll]⟩

/-- Some value takes no more bytes than the type needs. -/
theorem exists_minimal (ht : t.Concrete) :
    ∃ x, Shaped Holds t x ∧ x.encodedSize = .ok t.minimalSize := by
  induction ht with
  | int k => exact ⟨.int k 0, .int k.holds_zero, rfl⟩
  | present => exact ⟨.present, .present, rfl⟩
  | @tuple ts _ _ ih =>
    obtain ⟨xs, hxs, hsize⟩ := exists_minimalAll ih
    exact ⟨.tuple (some ts) xs, .tuple_of_forall₂ hxs, hsize⟩
  | @vec t _ _ => exact ⟨.vec (some t) [], .vec (by simp), rfl⟩

private theorem takesAtLeast_iff (ht : t.Concrete) {k : Nat} :
    t.TakesAtLeast k ↔ k ≤ t.minimalSize := by
  constructor
  · intro h
    obtain ⟨x, hx, hsize⟩ := exists_minimal ht
    exact h x _ hx.exact hsize
  · intro hk x n hx hn
    exact hk.trans ((hx.shaped_holds ht).minimalSize_le hn)

private theorem mul_length_le_encodedSizeAll {k : Nat}
    (h : ∀ x ∈ xs, ∀ n, x.encodedSize = .ok n → k ≤ n) (hn : encodedSizeAll xs = .ok n) :
    k * xs.length ≤ n := by
  induction xs generalizing n with
  | nil => exact Nat.zero_le n
  | cons x xs ih =>
    obtain ⟨a, ha, hn⟩ := bind_eq_ok.mp hn
    obtain ⟨b, hb, hn⟩ := bind_eq_ok.mp hn
    cases hn
    obtain ⟨hx, hxs⟩ := List.forall_mem_cons.mp h
    have hhead := hx a ha
    have htail := ih hxs hb
    rw [List.length_cons, Nat.mul_succ]
    omega

mutual

/-- Each sequence in a value takes the bytes of its length. -/
theorem mul_length_sequenceLengths_le : (x : Diff C) → {n : Nat} → x.encodedSize = .ok n →
    lengthBytes * x.sequenceLengths.length ≤ n
  | int _ _, _, _ | present, _, _ => Nat.zero_le _
  | custom _ _, _, h => by cases h
  | tuple _ xs, _, h => mul_length_sequenceLengthsAll_le xs h
  | vec _ xs, n, h => by
    obtain ⟨m, hm, h⟩ := bind_eq_ok.mp h
    cases h
    have hxs := mul_length_sequenceLengthsAll_le xs hm
    rw [sequenceLengths, List.length_cons, Nat.mul_succ]
    omega

theorem mul_length_sequenceLengthsAll_le : (xs : List (Diff C)) → {n : Nat} →
    encodedSizeAll xs = .ok n → lengthBytes * (sequenceLengthsAll xs).length ≤ n
  | [], _, _ => Nat.zero_le _
  | x :: xs, n, h => by
    obtain ⟨a, ha, h⟩ := bind_eq_ok.mp h
    obtain ⟨b, hb, h⟩ := bind_eq_ok.mp h
    cases h
    have hx := mul_length_sequenceLengths_le x ha
    have hxs := mul_length_sequenceLengthsAll_le xs hb
    rw [sequenceLengthsAll, List.length_append, Nat.mul_add]
    omega

end

/-- The elements of all sequences in a value, if no sequence has more than `m` of them. -/
theorem sum_sequenceLengths_le {m : Nat} (hm : ∀ k ∈ x.sequenceLengths, k ≤ m)
    (hn : x.encodedSize = .ok n) : x.sequenceLengths.sum ≤ m * (n / lengthBytes) := by
  have hcount : x.sequenceLengths.length ≤ n / lengthBytes := by
    rw [Nat.le_div_iff_mul_le (by decide), Nat.mul_comm]
    exact mul_length_sequenceLengths_le x hn
  calc x.sequenceLengths.sum
      ≤ x.sequenceLengths.length * m := List.sum_le_card_nsmul _ m hm
    _ = m * x.sequenceLengths.length := Nat.mul_comm _ _
    _ ≤ m * (n / lengthBytes) := Nat.mul_le_mul_left m hcount

private theorem exists_encodedSize_of_mem (hn : encodedSizeAll xs = .ok n) (hx : x ∈ xs) :
    ∃ m, x.encodedSize = .ok m ∧ m ≤ n := by
  induction xs generalizing n with
  | nil => cases hx
  | cons y ys ih =>
    obtain ⟨a, ha, hn⟩ := bind_eq_ok.mp hn
    obtain ⟨b, hb, hn⟩ := bind_eq_ok.mp hn
    cases hn
    rcases List.mem_cons.mp hx with rfl | hx
    · exact ⟨a, ha, Nat.le_add_right a b⟩
    · obtain ⟨m, hm, hle⟩ := ih hb hx
      exact ⟨m, hm, hle.trans (Nat.le_add_left b a)⟩

private theorem exists_encodedSize_of_mem_parts {p : Diff C} (hn : x.encodedSize = .ok n)
    (hp : p ∈ x.parts) : ∃ m, p.encodedSize = .ok m ∧ m ≤ n := by
  cases x with
  | int | present | custom => cases hp
  | tuple => exact exists_encodedSize_of_mem hn hp
  | vec =>
    obtain ⟨b, hb, hn⟩ := bind_eq_ok.mp hn
    cases hn
    obtain ⟨m, hm, hle⟩ := exists_encodedSize_of_mem hb hp
    exact ⟨m, hm, hle.trans (Nat.le_add_left b lengthBytes)⟩

private theorem exists_encodedSize_of_mem_nodes {o y : Object C} (hn : o.value.encodedSize = .ok n)
    (hy : y ∈ o.nodes) : ∃ m, y.value.encodedSize = .ok m ∧ m ≤ n := by
  induction o using Object.parts_induction generalizing n with
  | step o ih =>
    rcases Object.mem_nodes_iff.mp hy with rfl | ⟨p, hp, hyp⟩
    · exact ⟨n, hn, Nat.le_refl n⟩
    · have hpart : p.value ∈ o.value.parts := by
        rw [Object.parts_value, Object.valueAll_eq_map]
        exact List.mem_map_of_mem hp
      obtain ⟨a, ha, hle⟩ := exists_encodedSize_of_mem_parts hn hpart
      obtain ⟨m, hm, hle'⟩ := ih p hp ha hyp
      exact ⟨m, hm, hle'.trans hle⟩

private theorem Shaped.length_le_of_mem_nodes {o : Object C} (ho : Shaped Holds t o.value)
    (hn : o.value.encodedSize = .ok n) {l : Nat} {u : DiffType C} {ys : List (Object C)}
    (hy : .vec l (some u) ys ∈ o.nodes) {k : Nat} (hpos : 0 < k) (hk : u.TakesAtLeast k) :
    ys.length ≤ (n - lengthBytes) / k := by
  obtain ⟨w, hw, -⟩ := ho.exists_of_mem_nodes hy
  obtain ⟨m, hm, hle⟩ := exists_encodedSize_of_mem_nodes hn hy
  obtain ⟨b, hb, hm⟩ := bind_eq_ok.mp hm
  cases hm
  cases hw with
  | vec elements =>
    have hbody := mul_length_le_encodedSizeAll
      (fun z hz size => hk z size (elements z hz).exact) hb
    rw [Object.valueAll_eq_map, List.length_map] at hbody
    rw [Nat.le_div_iff_mul_le hpos, Nat.mul_comm]
    omega

mutual

theorem sequenceLengths_settle : (x : Diff C) → x.settle.sequenceLengths = x.sequenceLengths
  | int _ _ | present | custom _ _ => rfl
  | tuple _ xs => sequenceLengthsAll_settleAll xs
  | vec _ xs => by
    rw [settle, sequenceLengths, sequenceLengthsAll_settleAll xs, settleAll_eq_map, List.length_map,
      sequenceLengths]

theorem sequenceLengthsAll_settleAll : (xs : List (Diff C)) →
    sequenceLengthsAll (settleAll xs) = sequenceLengthsAll xs
  | [] => rfl
  | x :: xs => by
    rw [settleAll, sequenceLengthsAll, sequenceLengths_settle x, sequenceLengthsAll_settleAll xs,
      sequenceLengthsAll]

end

theorem Kept.mono {limit limit' : Int} (h : Kept limit x) (hle : limit ≤ limit') :
    Kept limit' x :=
  ⟨h.inRange, fun k hk => (h.lengths k hk).trans hle⟩

section Decode

variable {limit : Int} {bs : List UInt8} (h : decode limit t bs = .ok x)

include h

/-- What is decoded takes all bytes of the input, and none of its sequences is above the limit. -/
theorem size_of_decode :
    x.encodedSize = .ok bs.length ∧ ∀ k ∈ x.sequenceLengths, (k : Int) ≤ limit := by
  obtain ⟨w, hw⟩ := exists_spells_of_decode h
  rw [hw.decode_eq] at h
  refine ⟨hw.encodedSize_of_keep h, ?_⟩
  obtain ⟨hkept, rfl⟩ := keep_eq_ok_iff.mp h
  rw [sequenceLengths_settle]
  exact hkept.lengths

/-- Under another limit the same value is decoded, or decoding fails. -/
theorem decode_of_decode (limit' : Int) :
    decode limit' t bs = .ok x ∨
      limit' < limit ∧ ∃ f, decode limit' t bs = .error f ∧ f.kind = .decode := by
  obtain ⟨w, hw⟩ := exists_spells_of_decode h
  rw [hw.decode_eq] at h ⊢
  obtain ⟨hkept, rfl⟩ := keep_eq_ok_iff.mp h
  rcases keep_cases limit' w with ⟨-, hkeep⟩ | ⟨hnot, hfail⟩
  · exact .inl hkeep
  · refine .inr ⟨?_, hfail⟩
    by_contra hle
    exact hnot (hkept.mono (Int.not_lt.mp hle))

end Decode

end Diff

namespace Session

/-- The size of what is decoded is bounded by the input and the limit `m`. No sequence has more than
`m` elements, all sequences together have at most `m` for every eight bytes of the input, and a
sequence whose elements take `k` bytes or more has no more of them than the input has room for
behind a length. A larger limit decodes the same value, and a smaller one the same value or nothing.
-/
theorem decode_bounded {l : Value C} {t : DiffType C} (hl : layoutType l = .ok t) (ht : t.Concrete)
    {bs : List UInt8} {m next : Nat} {v : Value C}
    (h : (decode l (.bytes bs) (some (.int m)) next).result = .ok v) :
    ∃ o, v = .diff o ∧
      (∀ n ∈ o.value.sequenceLengths, n ≤ m) ∧
      o.value.sequenceLengths.sum ≤ m * (bs.length / 8) ∧
      (∀ (label : Nat) (u : DiffType C) (xs : List (Object C)), .vec label (some u) xs ∈ o.nodes →
        ∀ k, 0 < k → u.TakesAtLeast k → xs.length ≤ (bs.length - 8) / k) ∧
      ∀ (m' : Int) (next' : Nat),
        let other := (decode l (.bytes bs) (some (.int m')) next').result
        (∃ p, other = .ok (.diff p) ∧ p.value = o.value) ∨
          m' < m ∧ ∃ f, other = .error f ∧ f.kind = .decode := by
  have hresult (m' : Int) (next' : Nat) := result_decode_int hl bs (some m') next'
  simp only [Option.map_some, Option.getD_some] at hresult
  rw [hresult] at h
  obtain ⟨x, hx, rfl⟩ := map_eq_ok.mp h
  have hvalue : (Object.ofDiff x next).1.value = x := Object.value_ofDiff ..
  obtain ⟨hsize, hlengths⟩ := Diff.size_of_decode hx
  have hlengths' : ∀ n ∈ x.sequenceLengths, n ≤ m := fun n hn => Int.ofNat_le.mp (hlengths n hn)
  have hshape : Diff.Shaped IntKind.Holds t x := by
    rcases Diff.decode_cases ht m bs with ⟨y, hy, hshape⟩ | ⟨f, hf, -⟩
    · cases hx.symm.trans hy
      exact hshape
    · cases hx.symm.trans hf
  refine ⟨_, rfl, ?_, ?_, ?_, ?_⟩
  · rwa [hvalue]
  · rw [hvalue]
    exact Diff.sum_sequenceLengths_le hlengths' hsize
  · intro label u xs hxs k hpos hk
    rw [← hvalue] at hshape hsize
    exact hshape.length_le_of_mem_nodes hsize hxs hpos hk
  · intro m' next' other
    rw [hvalue, show other = _ from hresult m' next']
    rcases Diff.decode_of_decode hx m' with hread | ⟨hlt, f, hf, hkind⟩
    · exact .inl ⟨_, by rw [hread, ok_map], Object.value_ofDiff ..⟩
    · exact .inr ⟨hlt, f, by rw [hf, error_map], hkind⟩

/-- Two pairs of an integer and a sequence of markers, in a sequence whose length is all that the
input has room for. The markers of the first pair take no bytes. -/
theorem decode_bounded_markers :
    let u : DiffType specimens := .tuple [.int ⟨.signed, .w16⟩, .vec .present]
    let l : Value specimens := .list 0 [.type (.diff u)]
    let bs : List UInt8 :=
      [2, 0, 0, 0, 0, 0, 0, 0, 1, 0, 2, 0, 0, 0, 0, 0, 0, 0, 255, 255, 0, 0, 0, 0, 0, 0, 0, 0]
    ∃ label xs, (decode l (.bytes bs) (some (.int 2)) 1).result =
        .ok (.diff (.vec label (some u) xs)) ∧
      (Object.vec label (some u) xs).value.sequenceLengths = [2, 2, 0] ∧
      [2, 2, 0].sum ≤ 2 * (bs.length / 8) ∧ xs.length ≤ (bs.length - 8) / 10 ∧
      ∃ p, (decode l (.bytes bs) (some (.int 3)) 1).result = .ok (.diff p) ∧
        p.value = (Object.vec label (some u) xs).value := by
  intro u l bs
  have hl : layoutType l = .ok (.vec u) := rfl
  have hu : u.Concrete := .pair (.int _) (.vec .present)
  have hread : (decode l (.bytes bs) (some (.int (2 : Nat))) 1).result =
      .ok (.diff (.vec 1 (some u)
        [.tuple 2 (some [.int ⟨.signed, .w16⟩, .vec .present])
          [.int 3 ⟨.signed, .w16⟩ 1, .vec 4 (some .present) [.present, .present]],
        .tuple 5 (some [.int ⟨.signed, .w16⟩, .vec .present])
          [.int 6 ⟨.signed, .w16⟩ (-1), .vec 7 (some .present) []]])) := by rfl
  obtain ⟨o, ho, -, hsum, helements, hlimit⟩ := decode_bounded hl (.vec hu) hread
  cases ho
  have hsize : u.TakesAtLeast 10 := (Diff.takesAtLeast_iff hu).mpr (by decide)
  refine ⟨_, _, hread, rfl, hsum, ?_, ?_⟩
  · exact helements _ _ _ (Object.mem_nodes_self _) 10 (by decide) hsize
  · rcases hlimit 3 1 with hp | ⟨hlt, -⟩
    · exact hp
    · exact absurd hlt (by decide)

end Session

end DiffAlgebra
