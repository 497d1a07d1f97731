import DiffAlgebra.Diff.Basic

/-!
# The order of differences

Values of one type are ordered if their leaves are: integers by size, presence markers as equals,
tuples and sequences lexicographically, a proper beginning of a sequence being smaller. Custom
values and values of two types are not ordered. The other relations follow from "less" and equality.
-/

namespace DiffAlgebra

inductive Relation where
  | lt
  | le
  | gt
  | ge
  deriving DecidableEq, Repr

def Relation.holds (r : Relation) (less equal : Bool) : Bool :=
  match r with
  | lt => less
  | le => less || equal
  | gt => !less && !equal
  | ge => !less

namespace Diff

variable {C : Catalog}

mutual

def less? : Diff C → Diff C → Option Bool
  | int k m => fun y =>
    match y with
    | int l n => if k = l then some (m < n) else none
    | _ => none
  | present => fun y =>
    match y with
    | present => some false
    | _ => none
  | custom _ _ => fun _ => none
  | tuple ts xs => fun y =>
    match y with
    | tuple us ys => if ts = us then lessAll? xs ys else none
    | _ => none
  | vec t xs => fun y =>
    match y with
    | vec u ys => if t = u then lessAll? xs ys else none
    | _ => none

def lessAll? : List (Diff C) → List (Diff C) → Option Bool
  | [] => fun ys => some (!ys.isEmpty)
  | x :: xs => fun ys =>
    match ys with
    | [] => some false
    | y :: ys => if x = y then lessAll? xs ys else less? x y

end

def related? (r : Relation) (x y : Diff C) : Option Bool :=
  (less? x y).map fun less => r.holds less (x = y)

end Diff

end DiffAlgebra
