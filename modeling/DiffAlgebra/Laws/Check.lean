import DiffAlgebra.Datum.Order
import DiffAlgebra.Datum.Text
import DiffAlgebra.Object.Update

/-!
# Checks of the additive laws

Each check carries out both sides of a law in place, on clones, and compares what they lead to. The
operands are data: what is not a difference has no operations to check, but it may stand where an
operand is coerced.
-/

namespace DiffAlgebra

namespace Class

variable {C : Catalog}

def isDiff : Class C → Bool
  | diff _ => true
  | isZero | multiply | plain _ => false

end Class

namespace Datum

variable {C : Catalog} {δ : Type}

/-- The difference that an operation is called on. A class has the operations of its values but
lacks the value; other data have no such operations. -/
def receiver (declares : Class C → Bool) : Datum C δ → Except Fault δ
  | diff d => .ok d
  | type c => .error (if declares c then .badArguments else .missingMember)
  | _ => .error .missingMember

end Datum

namespace Law

variable {C : Catalog}

def violatedBy (law : Law) (operands : List (Datum C (Diff C))) (details : String) :
    LawViolation where
  law := law
  typeName := ((operands.head?.getD .null).typeOf : Class C).name
  operands := operands.map Datum.render
  details := details

def current (s : Progress C) (x : Value C) : Value C := x.map (Object.after s.changes)

def report (law : Law) (operands : List (Value C)) (details : String) :
    UpdateM C (Option LawViolation) := do
  let s ← get
  return some (law.violatedBy (operands.map fun x => (current s x).values) details)

def create (d : Diff C) : UpdateM C (Object C) := do
  let s ← get
  let (x, next) := Object.ofDiff d s.next
  set { s with next := next }
  return x

/-- The sum of data as they are by now. A sum is an operation of its own, so that it begins with
nothing changed. -/
def sum (xs : List (Value C)) : UpdateM C (Object C) := fun s =>
  let (r, t) := (Object.accumulate (xs.map (current s))).run ⟨[], s.next⟩
  (r, ⟨s.changes ++ t.changes, t.next⟩)

def cancel (x : Value C) : UpdateM C (Object C) := do
  let o ← Object.attempt (x.receiver Class.isDiff)
  let o ← o.read
  let d ← Object.attempt o.value.clone
  let c ← create d
  c.negate
  c.plusEquals x
  c.read

def zeroOf (x : Value C) : Except Fault (Diff C) :=
  match x with
  | .diff o => do
    match ← Diff.zero? o.typeOf with
    | some z => .ok z
    | none => .error .missingMember
  | _ => .error .missingMember

/-- The zero of a type is zero, and adding it changes nothing. -/
def checkZeroIdentity (x : Value C) : UpdateM C (Option LawViolation) := do
  let z ← Object.attempt (zeroOf x)
  let o ← create z
  if !z.isZero then
    zeroIdentity.report [x] ("zero() = " ++ z.render ++ " is not is_zero()")
  else
    let r ← sum [x, .diff o]
    let s ← get
    if (current s x).values.same (.diff r.value) then
      return none
    else
      zeroIdentity.report [x] ("x + zero = " ++ r.value.render)

/-- A difference and its additive inverse add up to zero. -/
def checkNegationInverse (x : Value C) : UpdateM C (Option LawViolation) := do
  let r ← cancel x
  if r.value.isZero then
    return none
  else
    negationInverse.report [x] ("-x + x = " ++ r.value.render)

def checkAssociativity (x y z : Value C) : UpdateM C (Option LawViolation) := do
  let l ← sum [x, y, z]
  let i ← sum [y, z]
  let r ← sum [x, .diff i]
  if l.value = r.value then
    return none
  else
    associativity.report [x, y, z]
      ("(x + y) + z = " ++ l.value.render ++ ", x + (y + z) = " ++ r.value.render)

def checkCommutativity (x y : Value C) : UpdateM C (Option LawViolation) := do
  let l ← sum [x, y]
  let r ← sum [y, x]
  if l.value = r.value then
    return none
  else
    commutativity.report [x, y]
      ("x + y = " ++ l.value.render ++ ", y + x = " ++ r.value.render)

end Law

end DiffAlgebra
