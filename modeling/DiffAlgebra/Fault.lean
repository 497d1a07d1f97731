import DiffAlgebra.Contract.Violation
import DiffAlgebra.Integer.Kind

/-!
# Faults

Everything that can go wrong, by cause. A fault belongs to one kind, which is what callers tell
apart, and most causes have a text. Causes of misuse (a value of the wrong sort, a missing
operation) are told apart by their kind only.
-/

namespace DiffAlgebra

inductive ArithOp where
  | construct
  | add
  | negate
  | multiply
  deriving DecidableEq, Repr

def ArithOp.verb : ArithOp → String
  | construct => "construct"
  | add => "add"
  | negate => "negate"
  | multiply => "multiply"

/-- What callers tell apart. -/
inductive FaultKind where
  /-- A result outside the range of its integer kind. -/
  | overflow
  /-- Bytes that are no encoding of the layout. -/
  | decode
  /-- A value of the wrong sort. -/
  | type
  /-- A value of the right sort that is not allowed. -/
  | value
  /-- An operation or a member that the value does not have. -/
  | attribute
  /-- A position outside a sequence. -/
  | index
  /-- A name or a key that is not bound. -/
  | key
  /-- Data that a schema or a configuration rejects. -/
  | validation
  /-- An integer that does not fit its number of bytes. -/
  | wire
  /-- A value that an archive cannot refer to. -/
  | archive
  /-- More data than there is room for. -/
  | memory
  deriving DecidableEq, Repr

inductive Fault where
  /-- The exact result `got` of `op` lies outside the range of `kind`. -/
  | overflow (op : ArithOp) (kind : IntKind) (got : Int)
  /-- A value of type `given` stands where one of type `expected` is needed. -/
  | foreignOperand (given expected : String)
  /-- A tuple got the wrong number of components. -/
  | componentCount (type : String) (expected got : Nat)
  /-- A tuple type got more component types than allowed. -/
  | arity (got : Nat)
  /-- The value so written is no type for a tuple component. -/
  | notComponent (text : String)
  /-- The value so written is no type for the elements of a sequence. -/
  | notElement (text : String)
  /-- The value so written is no layout. -/
  | notLayout (text : String)
  /-- The sequence layout so written has not exactly one element layout. -/
  | elementCount (text : String)
  /-- A value of this type has no binary form. -/
  | noBinaryForm (type : String)
  /-- A value of this type has no JSON form. -/
  | noJsonForm (type : String)
  /-- No schema describes values of this type. -/
  | noSchema (type : String)
  /-- The input ends inside `what`. -/
  | truncated (what : String) (size offset available : Nat)
  /-- The bytes of `type` denote an integer that it cannot hold. -/
  | outOfRange (type : String) (value : Int)
  /-- A sequence announces more elements than the limit. -/
  | sequenceLimit (length : Nat) (limit : Int)
  /-- A sequence announces more elements than the limit so written, whose whole part is given. -/
  | sequenceBound (length : Nat) (limit : String) (whole : Int)
  /-- Input is left over after a value of `type`. -/
  | trailing (type : String) (count : Nat)
  | nothingToAccumulate
  /-- The data break a schema. -/
  | contract (v : Contract.Violation)
  /-- The configuration of a law check is malformed. -/
  | badConfig
  /-- The operation or member does not exist for the value. -/
  | missingMember
  /-- The type has no values of its own. -/
  | abstractType
  | notInteger
  | notIterable
  /-- Values of this sort cannot be members of a set or arguments of a type. -/
  | notHashable
  | notOrdered
  /-- The operation cannot be applied to such values, or not to so many. -/
  | badArguments
  | outOfBounds
  | absentItem
  | zeroStep
  /-- The number is no byte, or no count of bytes. -/
  | notByte
  | notNumeral
  | unbound
  /-- The integer does not fit its bytes. -/
  | tooWide
  | noVersion
  /-- The class has no name that an archive could refer to it by. -/
  | unnamed
  /-- There is no room for so many bytes. -/
  | outOfMemory
  deriving DecidableEq

namespace Fault

def maxArity : Nat := 4

def kind : Fault → FaultKind
  | overflow .. => .overflow
  | truncated .. | outOfRange .. | sequenceLimit .. | sequenceBound .. | trailing .. => .decode
  | foreignOperand .. | notComponent .. | notElement .. | noBinaryForm .. | noJsonForm ..
  | abstractType | notInteger | notIterable | notHashable | notOrdered | badArguments => .type
  | componentCount .. | arity .. | notLayout .. | elementCount .. | noSchema ..
  | nothingToAccumulate | absentItem | zeroStep | notByte | notNumeral | noVersion => .value
  | missingMember => .attribute
  | outOfBounds => .index
  | unbound => .key
  | contract .. | badConfig => .validation
  | tooWide => .wire
  | unnamed => .archive
  | outOfMemory => .memory

def message? : Fault → Option String
  | overflow op k got =>
    some s!"attempt to {op.verb} with overflow: {k.name} range [{k.min}, {k.max}], got {got}"
  | foreignOperand given expected => some s!"cannot use {given} as {expected} operand"
  | componentCount type expected got => some s!"{type} takes {expected} components, got {got}"
  | arity got => some s!"tuple arity {got} unsupported (max {maxArity})"
  | notComponent text => some s!"tuple component must be a Semigroup type: {text}"
  | notElement text => some s!"vector element must be a Semigroup type: {text}"
  | notLayout text => some s!"not a difference layout: {text}"
  | elementCount text => some s!"sequence layout takes exactly one element layout: {text}"
  | noBinaryForm type => some s!"no binary encoding for {type}"
  | noJsonForm type | noSchema type => some s!"no JSON form for {type}"
  | truncated what size offset available =>
    some s!"truncated input: {what} needs {size} bytes at offset {offset}, {available} available"
  | outOfRange type value => some s!"{type} out of range: {value}"
  | sequenceLimit length limit => some s!"sequence length {length} exceeds limit {limit}"
  | sequenceBound length limit _ => some s!"sequence length {length} exceeds limit {limit}"
  | trailing type count => some s!"{count} trailing bytes after {type}"
  | nothingToAccumulate => some "accumulate() requires at least one value"
  | contract .. | badConfig | missingMember | abstractType | notInteger | notIterable
  | notHashable | notOrdered | badArguments | outOfBounds | absentItem | zeroStep | notByte
  | notNumeral | unbound | tooWide | noVersion | unnamed | outOfMemory => none

end Fault

inductive LogLevel where
  | debug
  | warning
  deriving DecidableEq, Repr

structure LogLine where
  level : LogLevel
  text : String
  deriving DecidableEq, Repr

namespace LogLine

def levelName : LogLevel → String
  | .debug => "DEBUG"
  | .warning => "WARNING"

def render (l : LogLine) : String := levelName l.level ++ " " ++ l.text

end LogLine

/-- The line that a failed decoding leaves in the log. Exactly the decoding faults leave one. -/
def Fault.logLine? : Fault → Option LogLine
  | .truncated what _ offset _ =>
    some ⟨.debug, s!"Truncated input for {what} at offset {offset}"⟩
  | .outOfRange type value => some ⟨.debug, s!"Value {value} out of range for {type}"⟩
  | .sequenceLimit length limit => some ⟨.debug, s!"Sequence length {length} above limit {limit}"⟩
  | .sequenceBound length _ whole =>
    some ⟨.debug, s!"Sequence length {length} above limit {whole}"⟩
  | .trailing type count => some ⟨.debug, s!"Trailing bytes after {type}: {count}"⟩
  | _ => none

theorem Fault.logLine?_isSome_iff (f : Fault) : f.logLine?.isSome ↔ f.kind = .decode := by
  cases f <;> simp [logLine?, kind]

end DiffAlgebra
