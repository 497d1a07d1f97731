import DiffAlgebra.Contract.Validation
import DiffAlgebra.Integer.Arithmetic

/-!
# The JSON form of differences

Integers are their number, the presence marker is null, tuples and sequences are arrays. Data are
validated before a value is built from them, against the schema of the type itself. The record of a
type's schema that is given out, one and the same every time, holds this schema, so it makes no
difference which of the two the data are held against.
-/

namespace DiffAlgebra

namespace Diff

variable {C : Catalog} {δ : Type}

mutual

def toForm : Diff C → Except Fault (Datum C δ)
  | int _ n => .ok (.int n)
  | present => .ok .null
  | custom n _ => .error (.noJsonForm (C.label n))
  | tuple _ xs => do .ok (.list 0 (← toForms xs))
  | vec _ xs => do .ok (.list 0 (← toForms xs))

def toForms : List (Diff C) → Except Fault (List (Datum C δ))
  | [] => .ok []
  | x :: xs => do
    let d ← toForm x
    let ds ← toForms xs
    .ok (d :: ds)

end

def formInteger : Datum C δ → Except Fault Int
  | .int n => .ok n
  | .real x =>
    match x.truncate? with
    | some n => .ok n
    | none => .error .notInteger
  | _ => .error .notInteger

def formItems (d : Datum C δ) : Except Fault (List (Datum C δ)) :=
  match Contract.arrayItems? d with
  | some xs => .ok xs
  | none => .error .notIterable

mutual

/-- Builds a value of a type from its JSON form. A form that has been validated has one item for
each component, and what is built from the items are instances of the types of the parts, so the
constructor of a composite type would take them as they are (`Draft.construct_tuple`,
`Draft.construct_vec`). -/
def ofForm : DiffType C → Datum C δ → Except Fault (Diff C)
  | .int k => fun d => do
    let n ← formInteger d
    .ok (int k (← k.ofInt n))
  | .present => fun _ => .ok present
  | .anyTuple => fun _ => .ok (tuple none [])
  | .tuple ts => fun d => do
    let ds ← formItems d
    .ok (tuple (some ts) (← ofForms ts ds))
  | .vec t => fun d => do
    let ds ← formItems d
    .ok (vec (some t) (← ds.mapM (ofForm t)))
  | .anyInt _ | .anyVec => fun _ => .error .missingMember
  | .tier t => fun _ => .error (.noSchema t.name)
  | .custom n => fun _ => .error (.noSchema (C.label n))

def ofForms : List (DiffType C) → List (Datum C δ) → Except Fault (List (Diff C))
  | [] => fun _ => .ok []
  | t :: ts => fun ds =>
    match ds with
    | [] => .ok []
    | d :: ds => do
      let x ← ofForm t d
      let xs ← ofForms ts ds
      .ok (x :: xs)

end

end Diff

namespace DiffType

variable {C : Catalog} {δ : Type}

def validate (t : DiffType C) (d : Datum C δ) : Except Fault Unit := do
  let s ← t.schema
  s.validate d

def accepts (t : DiffType C) (d : Datum C δ) : Except Fault Bool := do
  let s ← t.schema
  .ok (s.accepts d)

def violations (t : DiffType C) (d : Datum C δ) : Except Fault (List Contract.Violation) := do
  let s ← t.schema
  .ok (s.violations d)

def load (t : DiffType C) (d : Datum C δ) : Except Fault (Diff C) := do
  t.validate d
  Diff.ofForm t d

end DiffType

end DiffAlgebra
