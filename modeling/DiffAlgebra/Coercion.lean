import DiffAlgebra.Datum.Basic
import DiffAlgebra.Integer.Arithmetic

/-!
# Coercion

An operand is turned into a value of a type by coercion: a difference of the type is kept as it is,
and anything else is built into one. Building a composite value coerces its components, so what
results is a draft, in which differences that were given and differences that are to be made stand
side by side.

A difference of another type is only kept apart from raw data where the type says so: integer types
and tuple and sequence types refuse the differences of their own sort that are not theirs, the
presence marker refuses everything but itself and null, and other types look at a difference as at
any other datum.
-/

namespace DiffAlgebra

/-- A difference under construction, over given differences of representation `δ`. -/
inductive Draft (C : Catalog) (δ : Type) where
  | given (d : δ)
  | int (k : IntKind) (n : Int)
  | present
  | custom (n : C.Name) (s : C.State)
  | tuple (types : Option (List (DiffType C))) (items : List (Draft C δ))
  | vec (type : Option (DiffType C)) (items : List (Draft C δ))

namespace Draft

variable {C : Catalog} {δ : Type}

mutual

def value [DiffView δ C] : Draft C δ → Diff C
  | given d => DiffView.value d
  | int k n => .int k n
  | present => .present
  | custom n s => .custom n s
  | tuple ts xs => .tuple ts (valueAll xs)
  | vec t xs => .vec t (valueAll xs)

def valueAll [DiffView δ C] : List (Draft C δ) → List (Diff C)
  | [] => []
  | x :: xs => value x :: valueAll xs

end

/-- Keeps a difference of the type, and otherwise builds. -/
def keepOr [DiffView δ C] (t : DiffType C) (v : Datum C δ) (build : Except Fault (Draft C δ)) :
    Except Fault (Draft C δ) :=
  match v with
  | .diff d => if (DiffView.value d).isA t then .ok (given d) else build
  | _ => build

def refuse [DiffView δ C] (sort : DiffType C → Bool) (t : DiffType C) (v : Datum C δ) :
    Except Fault Unit :=
  match v with
  | .diff d =>
    if sort (DiffView.value d).typeOf then
      .error (.foreignOperand (DiffView.value d).typeOf.name t.name)
    else .ok ()
  | _ => .ok ()

def ofInteger [DiffView δ C] (k : IntKind) (v : Datum C δ) : Except Fault (Draft C δ) := do
  let n ← v.toInteger
  let n ← k.ofInt n
  .ok (int k n)

def ofArgument [DiffView δ C] (n : C.Name) (v : Datum C δ) : Except Fault (Draft C δ) := do
  let s ← C.build n (some v.argument)
  .ok (custom n s)

mutual

def coerce [DiffView δ C] : DiffType C → Datum C δ → Except Fault (Draft C δ)
  | .tier t => fun v => keepOr (.tier t) v (.error .abstractType)
  | .anyInt g => fun v => keepOr (.anyInt g) v do
    refuse DiffType.isInt (.anyInt g) v
    let _ ← v.toInteger
    .error .missingMember
  | .int k => fun v => keepOr (.int k) v do
    refuse DiffType.isInt (.int k) v
    ofInteger k v
  | .present => fun v => keepOr .present v
    (match v with
      | .null => .ok present
      | _ => .error (.foreignOperand v.typeOf.name (DiffType.present : DiffType C).name))
  | .custom n => fun v => keepOr (.custom n) v (ofArgument n v)
  | .anyTuple => fun v => keepOr .anyTuple v do
    let xs ← v.items
    if xs.isEmpty then .ok (tuple none [])
    else .error (.componentCount (DiffType.anyTuple : DiffType C).name 0 xs.length)
  | .tuple ts => fun v => keepOr (.tuple ts) v do
    refuse DiffType.isTuple (.tuple ts) v
    let xs ← v.items
    if xs.length = ts.length then
      let ys ← coerceAll ts xs
      .ok (tuple (some ts) ys)
    else .error (.componentCount (DiffType.tuple ts).name ts.length xs.length)
  | .anyVec => fun v => keepOr .anyVec v do
    let xs ← v.items
    if xs.isEmpty then .ok (vec none []) else .error .missingMember
  | .vec t => fun v => keepOr (.vec t) v do
    refuse DiffType.isVec (.vec t) v
    let xs ← v.items
    let ys ← xs.mapM (coerce t)
    .ok (vec (some t) ys)

def coerceAll [DiffView δ C] :
    List (DiffType C) → List (Datum C δ) → Except Fault (List (Draft C δ))
  | [] => fun _ => .ok []
  | t :: ts => fun vs =>
    match vs with
    | [] => .ok []
    | v :: vs => do
      let x ← coerce t v
      let xs ← coerceAll ts vs
      .ok (x :: xs)

end

/-- Builds a value of a type from the arguments of a constructor: one integer or none for an integer
kind, none for the presence marker, the components for a tuple, and one sequence of elements or none
for a sequence. -/
def construct [DiffView δ C] : DiffType C → List (Datum C δ) → Except Fault (Draft C δ)
  | .tier _, _ => .error .abstractType
  | .anyInt _, [] => .error .missingMember
  | .anyInt _, [v] => do
    let _ ← v.toInteger
    .error .missingMember
  | .int k, [] => .ok (int k 0)
  | .int k, [v] => ofInteger k v
  | .present, [] => .ok present
  | .custom n, [] => do .ok (custom n (← C.build n none))
  | .custom n, [v] => ofArgument n v
  | .anyTuple, vs => if vs.isEmpty then .ok (tuple none []) else
      .error (.componentCount (DiffType.anyTuple : DiffType C).name 0 vs.length)
  | .tuple ts, vs =>
    if vs.length = ts.length then do
      let xs ← coerceAll ts vs
      .ok (tuple (some ts) xs)
    else .error (.componentCount (DiffType.tuple ts).name ts.length vs.length)
  | .anyVec, [] => .ok (vec none [])
  | .anyVec, [v] => do
    let xs ← v.items
    if xs.isEmpty then .ok (vec none []) else .error .missingMember
  | .vec t, [] => .ok (vec (some t) [])
  | .vec t, [v] => do
    let xs ← v.items
    let ys ← xs.mapM (coerce t)
    .ok (vec (some t) ys)
  | _, _ => .error .badArguments

end Draft

def Diff.coerce {C : Catalog} (t : DiffType C) (v : Datum C (Diff C)) : Except Fault (Diff C) :=
  (Draft.coerce t v).map Draft.value

end DiffAlgebra
