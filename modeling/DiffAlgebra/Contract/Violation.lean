/-!
# Violations of a schema

A violation names the keyword that a datum breaks, the value of that keyword in the schema, and two
paths: the one from the datum to the offending item and the one from the schema to the keyword.
-/

namespace DiffAlgebra.Contract

inductive Keyword where
  | type
  | minimum
  | maximum
  | minItems
  | maxItems
  deriving DecidableEq, Repr

def Keyword.name : Keyword → String
  | type => "type"
  | minimum => "minimum"
  | maximum => "maximum"
  | minItems => "minItems"
  | maxItems => "maxItems"

inductive Expected where
  | word (s : String)
  | number (n : Int)
  deriving DecidableEq, Repr

inductive SchemaStep where
  | key (name : String)
  | index (i : Nat)
  deriving DecidableEq, Repr

structure Violation where
  keyword : Keyword
  expected : Expected
  /-- From the datum to the item that breaks the keyword. -/
  path : List Nat
  /-- From the schema to the keyword. -/
  schemaPath : List SchemaStep
  deriving DecidableEq, Repr

/-- A violation found in the item at the end of `path`, by the part of the schema at the end of
`steps`. -/
def Violation.under (path : List Nat) (steps : List SchemaStep) (v : Violation) : Violation :=
  { v with path := path ++ v.path, schemaPath := steps ++ v.schemaPath }

end DiffAlgebra.Contract
