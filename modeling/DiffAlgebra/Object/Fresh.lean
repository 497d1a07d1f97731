import DiffAlgebra.Coercion
import DiffAlgebra.Object.Basic

/-!
# New objects

Labels are handed out in order, so a label that has not been handed out belongs to no object. A
value becomes an object of its own by getting a new label at every node; a draft becomes an object
that holds the objects it was given; a datum is placed among others by getting new labels where it
has none.
-/

namespace DiffAlgebra

namespace Object

variable {C : Catalog}

mutual

/-- A new object with the given value, and the next label. -/
def ofDiff : Diff C → Nat → Object C × Nat
  | .int k n => fun next => (int next k n, next + 1)
  | .present => fun next => (present, next)
  | .custom n s => fun next => (custom next n s, next + 1)
  | .tuple ts xs => fun next =>
    let (ys, last) := ofDiffs xs (next + 1)
    (tuple next ts ys, last)
  | .vec t xs => fun next =>
    let (ys, last) := ofDiffs xs (next + 1)
    (vec next t ys, last)

def ofDiffs : List (Diff C) → Nat → List (Object C) × Nat
  | [] => fun next => ([], next)
  | x :: xs => fun next =>
    let (y, next) := ofDiff x next
    let (ys, next) := ofDiffs xs next
    (y :: ys, next)

end

mutual

def ofDraft : Draft C (Object C) → Nat → Object C × Nat
  | .given x => fun next => (x, next)
  | .int k n => fun next => (int next k n, next + 1)
  | .present => fun next => (present, next)
  | .custom n s => fun next => (custom next n s, next + 1)
  | .tuple ts xs => fun next =>
    let (ys, last) := ofDrafts xs (next + 1)
    (tuple next ts ys, last)
  | .vec t xs => fun next =>
    let (ys, last) := ofDrafts xs (next + 1)
    (vec next t ys, last)

def ofDrafts : List (Draft C (Object C)) → Nat → List (Object C) × Nat
  | [] => fun next => ([], next)
  | x :: xs => fun next =>
    let (y, next) := ofDraft x next
    let (ys, next) := ofDrafts xs next
    (y :: ys, next)

end

mutual

@[simp] theorem value_ofDiff : (x : Diff C) → (next : Nat) → (ofDiff x next).1.value = x
  | .int _ _, _ | .present, _ | .custom _ _, _ => rfl
  | .tuple ts xs, next => by simp [ofDiff, value, valueAll_ofDiffs xs]
  | .vec t xs, next => by simp [ofDiff, value, valueAll_ofDiffs xs]

@[simp] theorem valueAll_ofDiffs :
    (xs : List (Diff C)) → (next : Nat) → valueAll (ofDiffs xs next).1 = xs
  | [], _ => rfl
  | x :: xs, next => by simp [ofDiffs, valueAll, value_ofDiff x, valueAll_ofDiffs xs]

end

mutual

@[simp] theorem value_ofDraft :
    (x : Draft C (Object C)) → (next : Nat) → (ofDraft x next).1.value = x.value
  | .given _, _ | .int _ _, _ | .present, _ | .custom _ _, _ => rfl
  | .tuple ts xs, next => by simp [ofDraft, value, Draft.value, valueAll_ofDrafts xs]
  | .vec t xs, next => by simp [ofDraft, value, Draft.value, valueAll_ofDrafts xs]

@[simp] theorem valueAll_ofDrafts :
    (xs : List (Draft C (Object C))) → (next : Nat) →
      valueAll (ofDrafts xs next).1 = Draft.valueAll xs
  | [], _ => rfl
  | x :: xs, next => by
    simp [ofDrafts, valueAll, Draft.valueAll, value_ofDraft x, valueAll_ofDrafts xs]

end

end Object

namespace Datum

variable {C : Catalog}

/-- A label as it is, or the next one in place of none, and the next label after that. -/
def issue (label next : Nat) : Nat × Nat := if label = 0 then (next, next + 1) else (label, next)

mutual

/-- A datum with a new label wherever it has none yet, and the next label. What has a label keeps
it. -/
def settle : Value C → Nat → Value C × Nat
  | list l xs => fun next =>
    let (l, next) := issue l next
    let (ys, next) := settleAll xs next
    (list l ys, next)
  | tuple l xs => fun next =>
    let (l, next) := issue l next
    let (ys, next) := settleAll xs next
    (tuple l ys, next)
  | record l fs => fun next =>
    let (l, next) := issue l next
    let (gs, next) := settleFields fs next
    (record l gs, next)
  | config l c p xs => fun next =>
    let (l, next) := issue l next
    let (ys, next) := settleAll xs next
    (config l c p ys, next)
  | reference l t => fun next =>
    let (l, next) := issue l next
    (reference l t, next)
  | violation l v => fun next =>
    let (l, next) := issue l next
    (violation l v, next)
  | report l r => fun next =>
    let (l, next) := issue l next
    (report l r, next)
  | mismatch l v => fun next =>
    let (l, next) := issue l next
    (mismatch l v, next)
  | diff x => fun next => (diff x, next)
  | null => fun next => (null, next)
  | bool b => fun next => (bool b, next)
  | int n => fun next => (int n, next)
  | real x => fun next => (real x, next)
  | text s => fun next => (text s, next)
  | bytes bs => fun next => (bytes bs, next)
  | type c => fun next => (type c, next)

def settleAll : List (Value C) → Nat → List (Value C) × Nat
  | [] => fun next => ([], next)
  | x :: xs => fun next =>
    let (y, next) := settle x next
    let (ys, next) := settleAll xs next
    (y :: ys, next)

def settleFields : List (String × Value C) → Nat → List (String × Value C) × Nat
  | [] => fun next => ([], next)
  | (k, x) :: fs => fun next =>
    let (y, next) := settle x next
    let (gs, next) := settleFields fs next
    ((k, y) :: gs, next)

end

end Datum

end DiffAlgebra
