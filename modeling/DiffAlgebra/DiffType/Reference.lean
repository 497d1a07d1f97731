import DiffAlgebra.DiffType.Name

/-!
# References to types

A composite type cannot be looked up by its name, so a reference to it says how it is composed. To
resolve the reference is to compose the type again. References are made of tuples and sequences
with known components only: tuples at large are referred to as the tuple without components, and
sequences at large have no reference.
-/

namespace DiffAlgebra.DiffType

variable {C : Catalog}

mutual

/-- The type that a reference to the given type resolves to. -/
def resolved : DiffType C → Except Fault (DiffType C)
  | anyTuple => .ok (tuple [])
  | anyVec => .error .missingMember
  | tuple ts => do .ok (tuple (← resolvedAll ts))
  | vec t => do .ok (vec (← resolved t))
  | tier t => .ok (tier t)
  | anyInt g => .ok (anyInt g)
  | int k => .ok (int k)
  | present => .ok present
  | custom n => .ok (custom n)

def resolvedAll : List (DiffType C) → Except Fault (List (DiffType C))
  | [] => .ok []
  | t :: ts => do
    let t ← resolved t
    let ts ← resolvedAll ts
    .ok (t :: ts)

end

def isNamed : DiffType C → Bool
  | anyTuple | tuple _ | anyVec | vec _ => false
  | tier _ | anyInt _ | int _ | present | custom _ => true

mutual

def referenceText : DiffType C → String
  | tuple ts =>
    "TypeReference(tuple_of, " ++ Text.parenthesised (referenceTexts ts) ++ ")"
  | vec t => "TypeReference(vec_of, " ++ Text.parenthesised [referenceText t] ++ ")"
  | anyTuple => "TypeReference(tuple_of, " ++ Text.parenthesised [] ++ ")"
  | t => "<class '" ++ t.path ++ "'>"

def referenceTexts : List (DiffType C) → List String
  | [] => []
  | t :: ts => referenceText t :: referenceTexts ts

end

/-- The type that is composed of the components of a reference as they are: a reference is no type,
so each of them has to be named. -/
def recomposed : DiffType C → Except Fault (DiffType C)
  | anyTuple => .ok (tuple [])
  | tuple ts =>
    match ts.find? (!·.isNamed) with
    | some t => .error (.notComponent t.referenceText)
    | none => .ok (tuple ts)
  | vec t => if t.isNamed then .ok (vec t) else .error (.notElement t.referenceText)
  | t => .ok t

end DiffAlgebra.DiffType
