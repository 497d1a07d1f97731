import DiffAlgebra.Datum.Order
import DiffAlgebra.Object.Basic

/-!
# Hashes of objects

An object is hashed as a tuple of the name of its class and its contents, where the contents of a
composite object are the tuple of its items. Custom objects compare by value and therefore have no
hash.
-/

namespace DiffAlgebra

/-- The hashes of built-in data. -/
structure Hashing where
  text : String → Int
  integer : Int → Int
  /-- The hash of a tuple, from the hashes of its items. -/
  tuple : List Int → Int
  /-- The hash of the class of the presence marker. -/
  presence : Int

namespace Object

variable {C : Catalog}

mutual

def hash (H : Hashing) : Object C → Except Fault Int
  | int _ k n => .ok (H.tuple [H.text k.name, H.integer n])
  | present => .ok H.presence
  | custom _ _ _ => .error .notHashable
  | tuple _ ts xs => do
    let hs ← hashAll H xs
    .ok (H.tuple [H.text (Diff.tupleType ts).name, H.tuple hs])
  | vec _ t xs => do
    let hs ← hashAll H xs
    .ok (H.tuple [H.text (Diff.vecType t).name, H.tuple hs])

def hashAll (H : Hashing) : List (Object C) → Except Fault (List Int)
  | [] => .ok []
  | x :: xs => do
    let h ← hash H x
    let hs ← hashAll H xs
    .ok (h :: hs)

end

mutual

/-- Objects of one value have one hash, or none, whatever their identities are. -/
theorem hash_congr (H : Hashing) : (x : Object C) → {y : Object C} → x.value = y.value →
    hash H x = hash H y
  | int l k n, y, h => by
    cases y <;> simp only [value, reduceCtorEq, Diff.int.injEq] at h
    rw [hash, hash, h.1, h.2]
  | present, y, h => by
    cases y <;> simp only [value, reduceCtorEq] at h
    rfl
  | custom l n s, y, h => by
    cases y <;> simp only [value, reduceCtorEq] at h
    rfl
  | tuple l ts xs, y, h => by
    cases y <;> simp only [value, reduceCtorEq, Diff.tuple.injEq] at h
    rw [hash, hash, h.1, hashAll_congr H xs h.2]
  | vec l t xs, y, h => by
    cases y <;> simp only [value, reduceCtorEq, Diff.vec.injEq] at h
    rw [hash, hash, h.1, hashAll_congr H xs h.2]

theorem hashAll_congr (H : Hashing) : (xs : List (Object C)) → {ys : List (Object C)} →
    valueAll xs = valueAll ys → hashAll H xs = hashAll H ys
  | [], ys, h => by
    cases ys with
    | nil => rfl
    | cons y ys => cases h
  | x :: xs, ys, h => by
    cases ys with
    | nil => cases h
    | cons y ys =>
      obtain ⟨hx, hxs⟩ := List.cons.inj h
      rw [hashAll, hashAll, hash_congr H x hx, hashAll_congr H xs hxs]

end

mutual

/-- An object whose leaves can all be members of a set has a hash. -/
theorem exists_hash (H : Hashing) : (x : Object C) → Datum.diffHashable x.value = true →
    ∃ h, hash H x = .ok h
  | int _ _ _, _ => ⟨_, rfl⟩
  | present, _ => ⟨_, rfl⟩
  | tuple _ _ xs, h => by
    obtain ⟨hs, hhs⟩ := exists_hashAll H xs h
    exact ⟨_, by rw [hash, hhs]; rfl⟩
  | vec _ _ xs, h => by
    obtain ⟨hs, hhs⟩ := exists_hashAll H xs h
    exact ⟨_, by rw [hash, hhs]; rfl⟩

theorem exists_hashAll (H : Hashing) : (xs : List (Object C)) →
    Datum.diffsHashable (valueAll xs) = true → ∃ hs, hashAll H xs = .ok hs
  | [], _ => ⟨_, rfl⟩
  | x :: xs, h => by
    simp only [valueAll, Datum.diffsHashable, Bool.and_eq_true] at h
    obtain ⟨a, ha⟩ := exists_hash H x h.1
    obtain ⟨as, has⟩ := exists_hashAll H xs h.2
    exact ⟨a :: as, by rw [hashAll, ha, has]; rfl⟩

end

end Object

end DiffAlgebra
