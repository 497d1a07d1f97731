import DiffAlgebra.Datum.Basic

/-!
# Shared objects

Differences are changed in place, so two places may hold one and the same difference. An object is a
value with a label at every node but the presence markers: nodes with one label are one object, and
the presence marker is one object everywhere. A pool of data that share objects is kept as data with
labels, and to change an object in place is to write it at every node with its label.
-/

namespace DiffAlgebra

/-- A difference with a label at each of its nodes. -/
inductive Object (C : Catalog) where
  | int (label : Nat) (k : IntKind) (n : Int)
  | present
  | custom (label : Nat) (n : C.Name) (s : C.State)
  | tuple (label : Nat) (types : Option (List (DiffType C))) (items : List (Object C))
  | vec (label : Nat) (type : Option (DiffType C)) (items : List (Object C))

namespace Object

variable {C : Catalog}

/-- The label of an object; the presence marker has none. -/
def label? : Object C → Option Nat
  | int l _ _ | custom l _ _ | tuple l _ _ | vec l _ _ => some l
  | present => none

mutual

def value : Object C → Diff C
  | int _ k n => .int k n
  | present => .present
  | custom _ n s => .custom n s
  | tuple _ ts xs => .tuple ts (valueAll xs)
  | vec _ t xs => .vec t (valueAll xs)

def valueAll : List (Object C) → List (Diff C)
  | [] => []
  | x :: xs => value x :: valueAll xs

end

theorem valueAll_eq_map (xs : List (Object C)) : valueAll xs = xs.map value := by
  induction xs with
  | nil => rfl
  | cons x xs ih => simp [valueAll, ih]

def parts : Object C → List (Object C)
  | tuple _ _ xs | vec _ _ xs => xs
  | int _ _ _ | present | custom _ _ _ => []

instance : DiffView (Object C) C where
  value := value
  parts := parts
  parts_value x := by cases x <;> simp [parts, value, Diff.parts, valueAll_eq_map]

def typeOf (x : Object C) : DiffType C := x.value.typeOf

mutual

def labels : Object C → List Nat
  | int l _ _ => [l]
  | present => []
  | custom l _ _ => [l]
  | tuple l _ xs => l :: labelsAll xs
  | vec l _ xs => l :: labelsAll xs

def labelsAll : List (Object C) → List Nat
  | [] => []
  | x :: xs => labels x ++ labelsAll xs

end

mutual

def nodes : Object C → List (Object C)
  | x@(int _ _ _) => [x]
  | x@present => [x]
  | x@(custom _ _ _) => [x]
  | x@(tuple _ _ xs) => x :: nodesAll xs
  | x@(vec _ _ xs) => x :: nodesAll xs

def nodesAll : List (Object C) → List (Object C)
  | [] => []
  | x :: xs => nodes x ++ nodesAll xs

end

mutual

def write (new : Object C) : Object C → Object C
  | int l k n => if new.label? = some l then new else int l k n
  | present => present
  | custom l n s => if new.label? = some l then new else custom l n s
  | tuple l ts xs => if new.label? = some l then new else tuple l ts (writeAll new xs)
  | vec l t xs => if new.label? = some l then new else vec l t (writeAll new xs)

def writeAll (new : Object C) : List (Object C) → List (Object C)
  | [] => []
  | x :: xs => write new x :: writeAll new xs

end

end Object

/-- Data that may be shared. -/
abbrev Value (C : Catalog) := Datum C (Object C)

inductive Write (C : Catalog) where
  | object (new : Object C)
  | list (label : Nat) (items : List (Value C))

namespace Datum

variable {C : Catalog}

mutual

def write (w : Write C) : Value C → Value C
  | list l xs =>
    match w with
    | .list m ys => if m = l then list l ys else list l (writeAll w xs)
    | .object _ => list l (writeAll w xs)
  | tuple l xs => tuple l (writeAll w xs)
  | record l fs => record l (writeFields w fs)
  | config l c p xs => config l c p (writeAll w xs)
  | diff x =>
    match w with
    | .object new => diff (Object.write new x)
    | .list _ _ => diff x
  | null => null
  | bool b => bool b
  | int n => int n
  | real x => real x
  | text s => text s
  | bytes bs => bytes bs
  | type c => type c
  | reference l t => reference l t
  | violation l v => violation l v
  | report l r => report l r
  | mismatch l v => mismatch l v

def writeAll (w : Write C) : List (Value C) → List (Value C)
  | [] => []
  | x :: xs => write w x :: writeAll w xs

def writeFields (w : Write C) : List (String × Value C) → List (String × Value C)
  | [] => []
  | (k, x) :: fs => (k, write w x) :: writeFields w fs

end

def writes (ws : List (Write C)) (x : Value C) : Value C := ws.foldl (fun x w => x.write w) x

end Datum

end DiffAlgebra
