import DiffAlgebra.Datum.Sequence
import DiffAlgebra.Laws.Check
import DiffAlgebra.Session.Outcome

/-!
# Identity and access to components

Components that are taken out of a composite object one by one stay shared with it; a range of a
sequence is a new sequence of clones.
-/

namespace DiffAlgebra.Session

variable {C : Catalog}

/-- The label of a datum that is told apart from others like it, if it has one. The tuple without
items is one everywhere. -/
def identity? : Value C → Option Nat
  | .tuple _ [] => none
  | .list l _ | .tuple l _ | .record l _ | .reference l _ | .config l _ _ _ | .violation l _
  | .report l _ | .mismatch l _ => some l
  | .diff x => x.label?
  | .null | .bool _ | .int _ | .real _ | .text _ | .bytes _ | .type _ => none

/-- Whether two data are one object. Data without a label of their own are one if they are alike. -/
def identical : Value C → Value C → Bool
  | .null, .null => true
  | .bool a, .bool b => a == b
  | .int m, .int n => m == n
  | .real x, .real y => x == y
  | .text s, .text t => s == t
  | .bytes as, .bytes bs => as == bs
  | .type c, .type d => c == d
  | x, y => (x.typeOf : Class C) == y.typeOf && identity? x == identity? y

/-- The items of a range: a sequence gives a sequence of clones, a tuple a list of its components,
and plain data data of their own sort. All of a plain tuple is that tuple itself. -/
def slice (x : Value C) (bounds : List (Value C)) (next : Nat) : Outcome C :=
  match x with
  | .diff (.vec _ t xs) =>
    .built next do
      let s ← Datum.slice bounds
      let ys := (s.select xs).map Object.value
      let ys ← Diff.cloneAll ys
      if t.isNone && !ys.isEmpty then .error .missingMember else .ok (.vec t ys)
  | .diff (.tuple _ _ xs) =>
    .listed next do
      let s ← Datum.slice bounds
      .ok ((s.select xs).map .diff)
  | .list _ xs => .listed next do .ok ((← Datum.slice bounds).select xs)
  | .tuple l xs => .shown next do
    let s ← Datum.slice bounds
    .ok (.tuple (if s.isWhole xs.length then l else 0) (s.select xs))
  | .text s => .shown next do
    .ok (.text (String.ofList ((← Datum.slice bounds).select s.toList)))
  | .bytes bs => .shown next do .ok (.bytes ((← Datum.slice bounds).select bs))
  | _ => .failed next .badArguments

def isTupleClass : Class C → Bool
  | .diff t => t.isTuple
  | _ => false

def asTuple (x : Value C) : Except Fault (Value C) := do
  match ← x.receiver isTupleClass with
  | .tuple _ _ xs => .ok (.tuple 0 (xs.map .diff))
  | _ => .error .missingMember

end DiffAlgebra.Session
