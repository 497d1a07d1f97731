import DiffAlgebra.Session.Arithmetic
import DiffAlgebra.Session.Expr

/-!
# Sessions

A session is a pool of named data that share objects. A command evaluates its operands, carries out
an operation on them, and may bind the result to a name. The changes in place that the operation
makes reach every datum of the pool. A command that fails binds nothing, and the next one goes on
from where it stopped.
-/

namespace DiffAlgebra

inductive Operation where
  | evaluate
  | coerce
  | zero
  | plusEquals
  | negate
  | multiply
  | isZero
  | clone
  | render
  | length
  | list
  | integer
  | slice
  | reversed
  | contains
  | count
  | index
  | asTuple
  | compare
  | sorted
  | distinct
  | same
  | copy
  | deepCopy
  /-- A copy by way of an archive of a given version. -/
  | archive
  | typeInfo
  | typeOf
  | capabilities
  | typeReference
  | layout
  | integerWidth
  | encode
  | encodedSize
  | decode
  | toForm
  | schema
  | validator
  | load
  | validate
  | accepts
  | violations
  | accumulate
  | checkZeroIdentity
  | checkNegationInverse
  | checkAssociativity
  | checkCommutativity
  | checkMultiplyPurity
  | verifyLaws
  | constants
  deriving DecidableEq, Repr

namespace Operation

variable {C : Catalog}

/-- Carries out an operation; `known` are the schemas that have been given out and `next` is the
next label. -/
def call (op : Operation) (args : List (Value C)) (known : Schemas C) (next : Nat) : Outcome C :=
  match op, args with
  | evaluate, [x] => .shown next (.ok x)
  | coerce, [t, x] => Session.coerce t x next
  | zero, [t] => Session.zero t next
  | plusEquals, [x, y] => Session.plusEquals x y next
  | negate, [x] => Session.negate x next
  | multiply, [x, y] => Session.multiply x y next
  | isZero, [x] => .shown next (Session.isZero x)
  | clone, [x] => Session.clone x next
  | render, [x] => .shown next (.ok (.text x.render))
  | length, [x] => .shown next (x.length.map fun n => .int n)
  | list, [x] => .listed next x.items
  | integer, [x] => .shown next (x.convertToInteger.map .int)
  | slice, x :: bounds => Session.slice x bounds next
  | reversed, [x] => .listed next x.reversed
  | contains, [x, v] => .shown next ((x.contains v).map .bool)
  | count, [x, v] => .shown next ((x.count v).map fun n => .int n)
  | index, x :: v :: bounds => .shown next (x.index v bounds)
  | asTuple, [x] => .shown next (Session.asTuple x)
  | compare, [x, y] => .shown next (.ok (Datum.compare x.values y.values).toRecord)
  | sorted, [x] => .listed next (do Datum.sort (← x.items))
  | distinct, [x] =>
    .shown next (do .ok (.int (← Datum.countDistinct ((← x.items).map Datum.values))))
  | same, [x, y] => .shown next (.ok (.bool (Session.identical x y)))
  | copy, [x] => .made next (x.copy next)
  | deepCopy, [x] => .made next (x.deepCopy next)
  | archive, [x, version] => .made next do
    Session.checkVersion version
    x.archive next
  | typeInfo, [x] => .shown next (Session.typeInfo x)
  | typeOf, [x] => .shown next (.ok (.type x.typeOf))
  | capabilities, [x] =>
    .shown next (do .ok (.tuple 0 ((← Session.asClass x).capabilities.map .type)))
  | typeReference, [x] => .shown next (do Session.typeReference (← Session.classOf x))
  | layout, [x] => .shown next (do .ok (.type (.diff (← Session.layoutType x))))
  | integerWidth, [x] => .shown next (do .ok (.int (← (← Session.asClass x).integerWidth)))
  | encode, [x] => .shown next (Session.encode x)
  | encodedSize, [x] => .shown next (Session.encodedSize x)
  | decode, [l, bs] => Session.decode l bs none next
  | decode, [l, bs, m] => Session.decode l bs (some m) next
  | toForm, [x] => .shown next (Session.toForm x)
  | schema, [x] => Session.schema known x next
  | validator, [x] => Session.validator known x next
  | load, [l, d] => Session.load l d next
  | validate, [l, d] => .shown next (do
      (← Session.layoutType l).validate d
      .ok .null)
  | accepts, [l, d] => .shown next (do .ok (.bool (← (← Session.layoutType l).accepts d)))
  | violations, [l, d] => .listed next (Session.violations l d)
  | accumulate, [x] => Session.accumulate x next
  | checkZeroIdentity, [x] => Session.checkLaw (Law.checkZeroIdentity x) next
  | checkNegationInverse, [x] => Session.checkLaw (Law.checkNegationInverse x) next
  | checkAssociativity, [x, y, z] => Session.checkLaw (Law.checkAssociativity x y z) next
  | checkCommutativity, [x, y] => Session.checkLaw (Law.checkCommutativity x y) next
  | checkMultiplyPurity, [x, y] => Session.checkMultiplyPurity x y next
  | verifyLaws, [xs] => Session.verifyLaws xs .null next
  | verifyLaws, [xs, c] => Session.verifyLaws xs c next
  | constants, [] => .shown next (.ok Session.constants)
  | _, _ => .failed next .badArguments

end Operation

/-- An operation on operands, whose result may be bound to a name. -/
structure Command (C : Catalog) where
  operation : Operation
  operands : List (Expr C)
  name : Option String

/-- Carries out the operation of a command on its operands. An atom that the command itself writes
out is the same as no other datum. -/
def Command.call {C : Catalog} (c : Command C) (args : List (Value C)) (known : Schemas C)
    (next : Nat) : Outcome C :=
  match c.operation, args with
  | .same, [x, y] =>
    .shown next (.ok (.bool (!c.operands.any Expr.makesAtom && Session.identical x y)))
  | op, args => op.call args known next

/-- A command comes to what its operation does, unless that is comparison by identity. -/
theorem Command.call_of_ne_same {C : Catalog} {c : Command C} {op : Operation}
    (hop : c.operation = op) (hsame : op ≠ .same) (args : List (Value C)) (known : Schemas C)
    (next : Nat) : c.call args known next = op.call args known next := by
  subst hop
  unfold call
  split
  · contradiction
  · rfl

structure Response (C : Catalog) where
  result : Except Fault (Value C)
  log : List LogLine

structure Session (C : Catalog) where
  bindings : Bindings C
  schemas : Schemas C
  next : Nat

namespace Session

variable {C : Catalog}

def empty : Session C := ⟨[], [], 1⟩

def change (s : Session C) (ws : List (Write C)) (next : Nat) : Session C where
  bindings := s.bindings.map fun (n, v) => (n, v.writes ws)
  schemas := s.schemas.map fun (t, d) => (t, d.writes ws)
  next := next

/-- Takes down a schema that has been given out, unless it is known. -/
def keep (s : Session C) (given : Option (DiffType C × Value C)) : Session C :=
  match given with
  | some (t, d) => if s.schemas.any (·.1 == t) then s else { s with schemas := (t, d) :: s.schemas }
  | none => s

def bind (s : Session C) (name : Option String) (result : Except Fault (Value C)) : Session C :=
  match name, result with
  | some n, .ok v => { s with bindings := s.bindings.set n v }
  | _, _ => s

def step (s : Session C) (c : Command C) : Session C × Response C :=
  match Expr.evalAll s.bindings c.operands s.next with
  | .error f => (s, ⟨.error f, []⟩)
  | .ok (args, next) =>
    let (args, next) := Datum.settleAll args next
    let out := (c.call args s.schemas next).settle
    (((s.change out.writes out.next).keep out.schema).bind c.name out.result,
      ⟨out.result, out.log⟩)

def run (s : Session C) : List (Command C) → List (Response C × Session C)
  | [] => []
  | c :: cs =>
    let (t, r) := s.step c
    (r, t) :: run t cs

end Session

end DiffAlgebra
