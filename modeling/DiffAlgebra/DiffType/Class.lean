import DiffAlgebra.DiffType.Name

/-!
# Classes

A class is a type of differences, one of the two capabilities that stand beside addition, or a type
of plain data. Only the first kind has values that can be added.
-/

namespace DiffAlgebra

/-- Types of plain data and of the library's own records. -/
inductive PlainType where
  | null
  | bool
  | int
  | real
  | text
  | bytes
  | list
  | tuple
  | record
  | object
  /-- The class of the plain classes. -/
  | type
  /-- The class of the classes with capabilities. -/
  | abstract
  /-- The class of the record classes. -/
  | model
  | reference
  | config
  | report
  | violation
  /-- The class of broken keywords. -/
  | mismatch
  | overflow
  deriving DecidableEq, Repr

namespace PlainType

def name : PlainType → String
  | null => "NoneType"
  | bool => "bool"
  | int => "int"
  | real => "float"
  | text => "str"
  | bytes => "bytes"
  | list => "list"
  | tuple => "tuple"
  | record => "dict"
  | object => "object"
  | type => "type"
  | abstract => "ABCMeta"
  | model => "ModelMetaclass"
  | reference => "TypeReference"
  | config => "LawCheckConfig"
  | report => "LawReport"
  | violation => "LawViolation"
  | mismatch => "ValidationError"
  | overflow => "IntegerOverflowError"

def path (p : PlainType) : String :=
  match p with
  | abstract => "abc." ++ p.name
  | reference => declaredIn "capabilities" p.name
  | config | report | violation => declaredIn "laws" p.name
  | overflow => declaredIn "integers" p.name
  | mismatch => "jsonschema.exceptions." ++ p.name
  | _ => p.name

end PlainType

inductive Class (C : Catalog) where
  | diff (t : DiffType C)
  | isZero
  | multiply
  | plain (p : PlainType)
  deriving DecidableEq

namespace Class

variable {C : Catalog}

def name : Class C → String
  | diff t => t.name
  | isZero => "IsZero"
  | multiply => "Multiply"
  | plain p => p.name

def path : Class C → String
  | diff t => t.path
  | isZero => declaredIn "capabilities" "IsZero"
  | multiply => declaredIn "capabilities" "Multiply"
  | plain p => p.path

def render (c : Class C) : String := "<class '" ++ c.path ++ "'>"

def metaclass : Class C → PlainType
  | diff _ | isZero | multiply => .abstract
  | plain .config | plain .report | plain .violation => .model
  | plain _ => .type

def capabilities : Class C → List (Class C)
  | diff t =>
    ([Tier.abelian, .monoid, .semigroup].filter t.tierOf.provides).map (fun s => diff (.tier s))
      ++ [isZero] ++ (if t.multiplies then [multiply] else [])
  | isZero => [isZero]
  | multiply => [multiply]
  | plain _ => []

def isComposite : Class C → Bool
  | diff (.tuple _) | diff (.vec _) => true
  | _ => false

inductive Method where
  | zero
  | negate
  | multiply
  deriving DecidableEq, Repr

def Method.name : Method → String
  | zero => "zero"
  | negate => "negate"
  | multiply => "multiply"

def declares : Class C → Method → Bool
  | diff t, .zero => t.isMonoid
  | diff t, .negate => t.isAbelian
  | diff t, .multiply => t.multiplies
  | multiply, .multiply => true
  | _, _ => false

structure Info where
  name : String
  capabilities : List String
  commutative : Option Bool
  bits : Option Nat
  signed : Option Bool
  min : Option Int
  max : Option Int
  element : Option String
  components : Option (List String)
  methods : List String

/-- What a class declares; what it lacks is left out. -/
def info (c : Class C) : Info :=
  let kind? : Option IntKind := match c with
    | diff (.int k) => some k
    | _ => none
  { name := c.name
    capabilities := c.capabilities.map name
    commutative := match c with
      | diff t => some t.commutative
      | _ => none
    bits := kind?.map IntKind.bits
    signed := match c with
      | diff (.int k) => some k.isSigned
      | diff (.anyInt .signed) | diff (.anyInt .wrapping) => some true
      | diff (.anyInt .unsigned) => some false
      | _ => none
    min := kind?.map IntKind.min
    max := kind?.map IntKind.max
    element := match c with
      | diff (.vec t) => some t.name
      | _ => none
    components := match c with
      | diff (.tuple ts) => some (DiffType.names ts)
      | diff .anyTuple => some []
      | _ => none
    methods := ([Method.zero, .negate, .multiply].filter c.declares).map Method.name }

end Class

end DiffAlgebra
