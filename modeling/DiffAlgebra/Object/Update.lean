import DiffAlgebra.Object.Copy

/-!
# Addition and negation in place

An operation in place changes the object it is called on. A composite object leaves its components
alone: it works on clones of them, one after the other and in place, and takes the clones over as
its components once all of that has succeeded. Changes remain where a later step fails, but up to
then they are changes of clones.

Whatever is read is read as the changes so far have left it.
-/

namespace DiffAlgebra

/-- What operations in place have done so far: the objects they have changed, each with the contents
it was given, and the next label. -/
structure Progress (C : Catalog) where
  changes : List (Object C)
  next : Nat

abbrev UpdateM (C : Catalog) := ExceptT Fault (StateM (Progress C))

namespace Object

variable {C : Catalog}

def after (changes : List (Object C)) (x : Object C) : Object C :=
  changes.foldl (fun x new => write new x) x

def read (x : Object C) : UpdateM C (Object C) := do
  let s ← get
  return x.after s.changes

def readAll (xs : List (Object C)) : UpdateM C (List (Object C)) := do
  let s ← get
  return xs.map (after s.changes)

def attempt {α : Type} : Except Fault α → UpdateM C α
  | .ok a => return a
  | .error f => throw f

/-- Gives the object with a label new contents. The presence marker, which has none, does not
change. -/
def change (place : Option Nat) (contents : Nat → Object C) : UpdateM C Unit :=
  match place with
  | some l => modify fun s => { s with changes := s.changes ++ [contents l] }
  | none => return

def clones (ds : List (Diff C)) : UpdateM C (List (Object C)) := do
  let ds ← attempt (Diff.cloneAll ds)
  let s ← get
  let (xs, next) := ofDiffs ds s.next
  set { s with next := next }
  return xs

/-- A datum as an object of a type, which is the very object of the datum if it is of the type. -/
def operand (t : DiffType C) (v : Value C) : UpdateM C (Object C) := do
  let s ← get
  let d ← attempt (Draft.coerce t (v.map (after s.changes)))
  let (y, next) := ofDraft d s.next
  set { s with next := next }
  return y

/-- Works on clones of components, and then makes them the components of the object with a label,
followed by what the work gives. -/
def takeOver (place : Option Nat) (contents : Nat → List (Object C) → Object C)
    (ds : List (Diff C)) (work : List (Object C) → UpdateM C (List (Object C))) :
    UpdateM C Unit := do
  let xs ← clones ds
  let ys ← work xs
  let xs ← readAll xs
  change place fun l => contents l (xs ++ ys)

mutual

def addAt : Diff C → Option Nat → Object C → UpdateM C Unit
  | .int k m => fun place y =>
    match y.value with
    | .int _ n => do
      let r ← attempt (k.add m n)
      change place fun l => int l k r
    | _ => throw .missingMember
  | .present => fun _ _ => return
  | .custom n s => fun place y =>
    match y.value with
    | .custom _ t => do
      let r ← attempt (C.add n s t)
      change place fun l => custom l n r
    | _ => throw .missingMember
  | .tuple ts ds => fun place y =>
    takeOver place (fun l xs => tuple l ts xs) ds fun xs => do
      addEach ds xs y.parts
      return []
  | .vec t ds => fun place y =>
    takeOver place (fun l xs => vec l t xs) ds fun xs => do
      addEach ds xs y.parts
      let rest ← readAll (y.parts.drop ds.length)
      clones (valueAll rest)

def addEach : List (Diff C) → List (Object C) → List (Object C) → UpdateM C Unit
  | [] => fun _ _ => return
  | d :: ds => fun xs ys =>
    match xs, ys with
    | x :: xs, y :: ys => do
      let y ← operand d.typeOf (.diff y)
      addAt d x.label? y
      addEach ds xs ys
    | _, _ => return

end

def plusEquals (x : Object C) (v : Value C) : UpdateM C Unit := do
  let x ← read x
  let y ← operand x.typeOf v
  addAt x.value x.label? y

def plusEqualsEach (x : Object C) : List (Value C) → UpdateM C Unit
  | [] => return
  | v :: vs => do
    plusEquals x v
    plusEqualsEach x vs

def accumulate : List (Value C) → UpdateM C (Object C)
  | [] => throw .nothingToAccumulate
  | .diff x :: vs => do
    let x ← read x
    let d ← attempt x.value.clone
    let s ← get
    let (total, next) := ofDiff d s.next
    set { s with next := next }
    plusEqualsEach total vs
    read total
  | .type (.diff _) :: _ => throw .badArguments
  | _ :: _ => throw .missingMember

mutual

def negateAt : Diff C → Option Nat → UpdateM C Unit
  | .int k n => fun place => do
    let r ← attempt (k.neg n)
    change place fun l => int l k r
  | .present => fun _ => throw .missingMember
  | .custom n s => fun place =>
    if (C.tier n).provides .abelian then do
      let r ← attempt (C.negate n s)
      change place fun l => custom l n r
    else throw .missingMember
  | .tuple ts ds => fun place =>
    if (Diff.tupleType ts).isAbelian then
      takeOver place (fun l xs => tuple l ts xs) ds fun xs => do
        negateEach ds xs
        return []
    else throw .missingMember
  | .vec t ds => fun place =>
    if (Diff.vecType t).isAbelian then
      takeOver place (fun l xs => vec l t xs) ds fun xs => do
        negateEach ds xs
        return []
    else throw .missingMember

def negateEach : List (Diff C) → List (Object C) → UpdateM C Unit
  | [] => fun _ => return
  | d :: ds => fun xs =>
    match xs with
    | [] => return
    | x :: xs => do
      negateAt d x.label?
      negateEach ds xs

end

def negate (x : Object C) : UpdateM C Unit := do
  let x ← read x
  negateAt x.value x.label?

end Object

end DiffAlgebra
