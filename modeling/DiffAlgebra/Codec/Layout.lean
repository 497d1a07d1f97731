import DiffAlgebra.Datum.Text

/-!
# Layouts

A layout names a type of differences: the type itself, a tuple of layouts for a tuple type, or a
list of one layout for a sequence type. Beside layouts stand the two ways of composing a type from
given data.
-/

namespace DiffAlgebra

namespace DiffType

variable {C : Catalog}

def tupleOf (ts : List (DiffType C)) : Except Fault (DiffType C) :=
  if ts.length ≤ Fault.maxArity then .ok (tuple ts) else .error (.arity ts.length)

end DiffType

namespace Datum

variable {C : Catalog}

def diffType? : Datum C (Diff C) → Option (DiffType C)
  | type (.diff t) => some t
  | _ => none

mutual

def layout : Datum C (Diff C) → Except Fault (DiffType C)
  | tuple _ xs => do
    let ts ← layouts xs
    DiffType.tupleOf ts
  | list l xs =>
    match xs with
    | [x] => do .ok (.vec (← layout x))
    | _ => .error (.elementCount (render (list l xs)))
  | type (.diff t) => .ok t
  | x => .error (.notLayout (render x))

def layouts : List (Datum C (Diff C)) → Except Fault (List (DiffType C))
  | [] => .ok []
  | x :: xs => do
    let t ← layout x
    let ts ← layouts xs
    .ok (t :: ts)

end

end Datum

end DiffAlgebra
