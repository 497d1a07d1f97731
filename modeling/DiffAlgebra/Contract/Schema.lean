import DiffAlgebra.Contract.Violation
import DiffAlgebra.DiffType.Name

/-!
# Schemas

A schema describes the JSON form of a type: an integer within bounds, null, an array with one
schema for each position, or an array with one schema for all items. It is published as a document.
-/

namespace DiffAlgebra

namespace Contract

inductive Schema where
  | integer (min max : Int)
  | null
  | tuple (items : List Schema)
  | sequence (item : Schema)

inductive Document where
  | word (s : String)
  | number (n : Int)
  | array (items : List Document)
  | object (fields : List (String × Document))

namespace Document

def step? : Document → SchemaStep → Option Document
  | object fields, .key name => (fields.find? (·.1 == name)).map (·.2)
  | array items, .index i => items[i]?
  | _, _ => none

def at? (d : Document) : List SchemaStep → Option Document
  | [] => some d
  | s :: path =>
    match d.step? s with
    | some e => e.at? path
    | none => none

end Document

namespace Schema

def dialect : String := "https://json-schema.org/draft/2020-12/schema"

mutual

/-- The keywords of a schema in the order in which they apply. An array without positions has no
schemas for them. -/
def keywords : Schema → List (String × Document)
  | integer lo hi =>
    [("type", .word "integer"), ("minimum", .number lo), ("maximum", .number hi)]
  | null => [("type", .word "null")]
  | tuple ss =>
    [("type", .word "array"), ("minItems", .number ss.length), ("maxItems", .number ss.length)]
      ++ (if ss.isEmpty then [] else [("prefixItems", .array (fragments ss))])
  | sequence s => [("type", .word "array"), ("items", .object (keywords s))]

def fragments : List Schema → List Document
  | [] => []
  | s :: ss => .object (keywords s) :: fragments ss

end

def document (title : String) (s : Schema) : Document :=
  .object ([("$schema", .word dialect), ("title", .word title)] ++ s.keywords)

end Schema

end Contract

namespace DiffType

variable {C : Catalog}

mutual

/-- The schema of the JSON form of a type. Custom types and the tiers have no JSON form, and the
groups of integer kinds and sequences at large declare too little for one. -/
def schema : DiffType C → Except Fault Contract.Schema
  | int k => .ok (.integer k.min k.max)
  | present => .ok .null
  | tuple ts => do .ok (.tuple (← schemas ts))
  | vec t => do .ok (.sequence (← schema t))
  | anyTuple => .ok (.tuple [])
  | anyInt _ | anyVec => .error .missingMember
  | tier t => .error (.noSchema t.name)
  | custom n => .error (.noSchema (C.label n))

def schemas : List (DiffType C) → Except Fault (List Contract.Schema)
  | [] => .ok []
  | t :: ts => do
    let s ← schema t
    let ss ← schemas ts
    .ok (s :: ss)

end

end DiffType

end DiffAlgebra
