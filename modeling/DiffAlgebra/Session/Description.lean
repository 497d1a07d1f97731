import DiffAlgebra.Codec.Decode
import DiffAlgebra.Contract.Schema
import DiffAlgebra.Datum.Basic

/-!
# Descriptions

What is said about types in general: the document of a schema, what a class declares, and the
published constants. Each description is a datum like any other, without labels so far.
-/

namespace DiffAlgebra

variable {C : Catalog} {δ : Type}

namespace Contract.Document

mutual

def toDatum : Document → Datum C δ
  | word s => .text s
  | number n => .int n
  | array ds => .list 0 (toData ds)
  | object fs => .record 0 (toFields fs)

def toData : List Document → List (Datum C δ)
  | [] => []
  | d :: ds => toDatum d :: toData ds

def toFields : List (String × Document) → List (String × Datum C δ)
  | [] => []
  | (k, d) :: fs => (k, toDatum d) :: toFields fs

end

end Contract.Document

namespace Datum

def words (ws : List String) : Datum C δ := list 0 (ws.map text)

def orNull {α : Type} (f : α → Datum C δ) : Option α → Datum C δ
  | some x => f x
  | none => null

end Datum

def Class.Info.toRecord (i : Class.Info) : Datum C δ :=
  .record 0
    [ ("name", .text i.name), ("capabilities", .words i.capabilities),
      ("commutative", .orNull .bool i.commutative),
      ("bits", .orNull (fun n : Nat => .int n) i.bits), ("signed", .orNull .bool i.signed),
      ("min", .orNull .int i.min), ("max", .orNull .int i.max),
      ("element", .orNull .text i.element), ("components", .orNull .words i.components),
      ("methods", .words i.methods) ]

namespace Session

def constants : Datum C δ :=
  let names (f : Family) : Datum C δ := .words ((IntKind.standard f).map IntKind.name)
  .record 0
    [ ("POINTER_BITS", .int pointerBits),
      ("SIGNED_TYPES", names .signed),
      ("UNSIGNED_TYPES", names .unsigned),
      ("WRAPPING_TYPES", names .wrapping),
      ("MAX_TUPLE_ARITY", .int Fault.maxArity),
      ("BYTE_ORDER", .text "little"),
      ("SIZE_TYPE_BYTES", .int Width.size.bytes),
      ("LENGTH_PREFIX_BYTES", .int lengthBytes),
      ("MAX_SEQUENCE_LENGTH", .int Diff.defaultLimit),
      ("SCHEMA_DIALECT", .text Contract.Schema.dialect) ]

end Session

end DiffAlgebra
