import DiffAlgebra.Datum.Basic
import DiffAlgebra.Diff.Order

/-!
# Equality and order of data

Numbers of different sorts are equal if they are the same number, lists and tuples if their items
are, records if the same keys have equal fields. References and broken keywords are equal to
themselves only. Numbers are ordered by size, text by code points, bytes, lists and tuples
lexicographically.
-/

namespace DiffAlgebra.Datum

variable {C : Catalog}

inductive Number where
  | int (n : Int)
  | real (x : Binary64)

def number? : Datum C (Diff C) → Option Number
  | bool b => some (.int (if b then 1 else 0))
  | int n => some (.int n)
  | real x => some (.real x)
  | _ => none

namespace Number

def same : Number → Number → Bool
  | int m, int n => m == n
  | int m, real y => y.toInt? == some m
  | real x, int n => x.toInt? == some n
  | real x, real y => x.same y

def less : Number → Number → Bool
  | int m, int n => m < n
  | int m, real y => y.gtInt m
  | real x, int n => x.ltInt n
  | real x, real y => x.lt y

end Number

mutual

def same : Datum C (Diff C) → Datum C (Diff C) → Bool
  | null => fun y => match y with
    | null => true
    | _ => false
  | text s => fun y => match y with
    | text t => s == t
    | _ => false
  | bytes as => fun y => match y with
    | bytes bs => as == bs
    | _ => false
  | list _ xs => fun y => match y with
    | list _ ys => sameAll xs ys
    | _ => false
  | tuple _ xs => fun y => match y with
    | tuple _ ys => sameAll xs ys
    | _ => false
  | record _ fs => fun y => match y with
    | record _ gs => fs.length == gs.length && sameFields fs gs
    | _ => false
  | type c => fun y => match y with
    | type d => c == d
    | _ => false
  | reference l _ => fun y => match y with
    | reference m _ => l == m
    | _ => false
  | config _ c p xs => fun y => match y with
    | config _ d q ys => c == d && p == q && sameAll xs ys
    | _ => false
  | violation _ v => fun y => match y with
    | violation _ w => v == w
    | _ => false
  | report _ r => fun y => match y with
    | report _ q => r == q
    | _ => false
  | mismatch l _ => fun y => match y with
    | mismatch m _ => l == m
    | _ => false
  | diff x => fun y => match y with
    | diff y => x == y
    | _ => false
  | bool b => fun y => match number? y with
    | some n => (Number.int (if b then 1 else 0)).same n
    | none => false
  | int m => fun y => match number? y with
    | some n => (Number.int m).same n
    | none => false
  | real x => fun y => match number? y with
    | some n => (Number.real x).same n
    | none => false

def sameAll : List (Datum C (Diff C)) → List (Datum C (Diff C)) → Bool
  | [] => fun ys => ys.isEmpty
  | x :: xs => fun ys => match ys with
    | [] => false
    | y :: ys => same x y && sameAll xs ys

def sameFields : List (String × Datum C (Diff C)) → List (String × Datum C (Diff C)) → Bool
  | [] => fun _ => true
  | (k, x) :: fs => fun gs => match lookupField k gs with
    | some y => same x y && sameFields fs gs
    | none => false

end

mutual

def related? (r : Relation) : Datum C (Diff C) → Datum C (Diff C) → Option Bool
  | text s => fun y => match y with
    | text t => some (r.holds (s < t) (s == t))
    | _ => none
  | bytes as => fun y => match y with
    | bytes bs => some (r.holds (as.map UInt8.toNat < bs.map UInt8.toNat) (as == bs))
    | _ => none
  | list _ xs => fun y => match y with
    | list _ ys => relatedAll? r xs ys
    | _ => none
  | tuple _ xs => fun y => match y with
    | tuple _ ys => relatedAll? r xs ys
    | _ => none
  | diff x => fun y => match y with
    | diff y => x.related? r y
    | _ => none
  | bool b => fun y => (number? y).map fun n =>
    let m := Number.int (if b then 1 else 0)
    r.holds (m.less n) (m.same n)
  | int m => fun y => (number? y).map fun n =>
    r.holds ((Number.int m).less n) ((Number.int m).same n)
  | real x => fun y => (number? y).map fun n =>
    r.holds ((Number.real x).less n) ((Number.real x).same n)
  | null | record _ _ | type _ | reference _ _ | config _ _ _ _ | violation _ _ | report _ _
  | mismatch _ _ => fun _ => none

/-- Lexicographic comparison: the first items that are not equal decide, and the lengths if there
are none. -/
def relatedAll? (r : Relation) : List (Datum C (Diff C)) → List (Datum C (Diff C)) → Option Bool
  | [] => fun ys => some (r.holds (!ys.isEmpty) ys.isEmpty)
  | x :: xs => fun ys => match ys with
    | [] => some (r.holds false false)
    | y :: ys => if same x y then relatedAll? r xs ys else related? r x y

end

/-- Every comparison of two data; a relation between data that are not ordered is left out. -/
structure Comparison where
  eq : Bool
  lt : Option Bool
  le : Option Bool
  gt : Option Bool
  ge : Option Bool

def unordered : String := "TypeError"

def Comparison.toRecord {δ : Type} (c : Comparison) : Datum C δ :=
  let relation (r : Option Bool) : Datum C δ :=
    match r with
    | some b => bool b
    | none => text unordered
  record 0 [("eq", bool c.eq), ("ne", bool !c.eq), ("lt", relation c.lt), ("le", relation c.le),
    ("gt", relation c.gt), ("ge", relation c.ge)]

def compare (x y : Datum C (Diff C)) : Comparison where
  eq := same x y
  lt := related? .lt x y
  le := related? .le x y
  gt := related? .gt x y
  ge := related? .ge x y

def less (x y : Datum C (Diff C)) : Except Fault Bool :=
  match related? .lt x y with
  | some b => .ok b
  | none => .error .notOrdered

variable {δ : Type}

def insertSorted [DiffView δ C] (x : Datum C δ) : List (Datum C δ) → Except Fault (List (Datum C δ))
  | [] => .ok [x]
  | y :: ys => do
    if ← less x.values y.values then .ok (x :: y :: ys)
    else
      let ys ← insertSorted x ys
      .ok (y :: ys)

def sort [DiffView δ C] (xs : List (Datum C δ)) : Except Fault (List (Datum C δ)) :=
  xs.foldlM (fun sorted x => insertSorted x sorted) []

mutual

def diffHashable : Diff C → Bool
  | .int _ _ | .present => true
  | .custom _ _ => false
  | .tuple _ xs | .vec _ xs => diffsHashable xs

def diffsHashable : List (Diff C) → Bool
  | [] => true
  | x :: xs => diffHashable x && diffsHashable xs

end

mutual

def hashable : Datum C (Diff C) → Bool
  | list _ _ | record _ _ => false
  | tuple _ xs | config _ _ _ xs => hashableAll xs
  | diff x => diffHashable x
  | null | bool _ | int _ | real _ | text _ | bytes _ | type _ | reference _ _ | violation _ _
  | report _ _ | mismatch _ _ => true

def hashableAll : List (Datum C (Diff C)) → Bool
  | [] => true
  | x :: xs => hashable x && hashableAll xs

end

/-- The data without those that equal an earlier one. -/
def distinct : List (Datum C (Diff C)) → List (Datum C (Diff C))
  | [] => []
  | x :: xs => x :: (distinct xs).filter fun y => !same x y

def countDistinct (xs : List (Datum C (Diff C))) : Except Fault Nat :=
  if hashableAll xs then .ok (distinct xs).length else .error .notHashable

end DiffAlgebra.Datum
