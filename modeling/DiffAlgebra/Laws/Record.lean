/-!
# Records of law checks

What a check of the algebraic laws reports: each broken law with the operands that break it, and the
number of checks that were made.
-/

namespace DiffAlgebra

inductive Law where
  | zeroIdentity
  | negationInverse
  | associativity
  | commutativity
  | multiplyPurity
  deriving DecidableEq, Repr

def Law.name : Law → String
  | zeroIdentity => "zero_identity"
  | negationInverse => "negation_inverse"
  | associativity => "associativity"
  | commutativity => "commutativity"
  | multiplyPurity => "multiply_purity"

structure LawViolation where
  law : Law
  /-- The type of the first operand. -/
  typeName : String
  operands : List String
  details : String
  deriving DecidableEq, Repr

structure LawReport where
  checksRun : Nat
  violations : List LawViolation
  deriving DecidableEq, Repr

def LawReport.ok (r : LawReport) : Bool := r.violations.isEmpty

end DiffAlgebra
