import DiffAlgebra.Contract.Violation
import DiffAlgebra.Diff.Basic
import DiffAlgebra.Laws.Record
import DiffAlgebra.Number.Binary64

/-!
# Data

Data are what operands, layouts, configurations and results are made of: plain data, classes,
records of law checks, and differences at the leaves. How a difference is represented is a
parameter, so that data can hold values as well as shared objects; a `DiffView` says what
is looked at in it.

A list can be changed in place, so it carries a label that tells it apart from other lists with the
same items. Other data with parts, references and records of checks carry one as well: they do not
change, but two of them may be alike and still be two. The label 0 is never handed out. It stands in
data that have not been placed among others yet, and where nothing is shared.
-/

namespace DiffAlgebra

/-- A datum with differences represented by `δ`. -/
inductive Datum (C : Catalog) (δ : Type) where
  | null
  | bool (b : Bool)
  | int (n : Int)
  | real (x : Binary64)
  | text (s : String)
  | bytes (bs : List UInt8)
  | list (label : Nat) (items : List (Datum C δ))
  | tuple (label : Nat) (items : List (Datum C δ))
  | record (label : Nat) (fields : List (String × Datum C δ))
  | type (c : Class C)
  /-- A reference to a composite type. -/
  | reference (label : Nat) (t : DiffType C)
  /-- Which laws are checked. -/
  | config (label : Nat) (commutativity purity : Bool) (multiplicands : List (Datum C δ))
  /-- A broken law. -/
  | violation (label : Nat) (v : LawViolation)
  | report (label : Nat) (r : LawReport)
  /-- A broken keyword of a schema. -/
  | mismatch (label : Nat) (v : Contract.Violation)
  | diff (d : δ)

/-- A representation of differences: the value that is represented, and the representations of its
components. -/
class DiffView (δ : Type) (C : outParam Catalog) where
  value : δ → Diff C
  parts : δ → List δ
  parts_value : ∀ d, (parts d).map value = (value d).parts

instance (C : Catalog) : DiffView (Diff C) C where
  value x := x
  parts := Diff.parts
  parts_value x := by simp

namespace Datum

variable {C : Catalog} {δ ε : Type}

mutual

def map (f : δ → ε) : Datum C δ → Datum C ε
  | null => null
  | bool b => bool b
  | int n => int n
  | real x => real x
  | text s => text s
  | bytes bs => bytes bs
  | list l xs => list l (mapAll f xs)
  | tuple l xs => tuple l (mapAll f xs)
  | record l fs => record l (mapFields f fs)
  | type c => type c
  | reference l t => reference l t
  | config l c p xs => config l c p (mapAll f xs)
  | violation l v => violation l v
  | report l r => report l r
  | mismatch l v => mismatch l v
  | diff d => diff (f d)

def mapAll (f : δ → ε) : List (Datum C δ) → List (Datum C ε)
  | [] => []
  | x :: xs => map f x :: mapAll f xs

def mapFields (f : δ → ε) : List (String × Datum C δ) → List (String × Datum C ε)
  | [] => []
  | (k, x) :: fs => (k, map f x) :: mapFields f fs

end

theorem mapAll_eq_map (f : δ → ε) (xs : List (Datum C δ)) : mapAll f xs = xs.map (map f) := by
  induction xs with
  | nil => rfl
  | cons x xs ih => simp [mapAll, ih]

def values [DiffView δ C] (x : Datum C δ) : Datum C (Diff C) := x.map DiffView.value

def typeOf [DiffView δ C] : Datum C δ → Class C
  | null => .plain .null
  | bool _ => .plain .bool
  | int _ => .plain .int
  | real _ => .plain .real
  | text _ => .plain .text
  | bytes _ => .plain .bytes
  | list _ _ => .plain .list
  | tuple _ _ => .plain .tuple
  | record _ _ => .plain .record
  | type c => .plain c.metaclass
  | reference _ _ => .plain .reference
  | config _ _ _ _ => .plain .config
  | violation _ _ => .plain .violation
  | report _ _ => .plain .report
  | mismatch _ _ => .plain .mismatch
  | diff d => .diff (DiffView.value d).typeOf

/-- The integer that stands for the datum where one is needed: Booleans and integer differences
count as integers, numbers of other sorts do not. -/
def toInteger [DiffView δ C] : Datum C δ → Except Fault Int
  | bool b => .ok (if b then 1 else 0)
  | int n => .ok n
  | diff d =>
    match (DiffView.value d : Diff C) with
    | .int _ n => .ok n
    | _ => .error .notInteger
  | _ => .error .notInteger

/-- The items of a datum that are counted and reached by position: the items of a list or a tuple,
the characters of text, the bytes as integers, and the components of a composite difference. -/
def sequence [DiffView δ C] : Datum C δ → Except Fault (List (Datum C δ))
  | list _ xs | tuple _ xs => .ok xs
  | text s => .ok (s.toList.map fun c => text (String.singleton c))
  | bytes bs => .ok (bs.map fun b => int b.toNat)
  | diff d =>
    match (DiffView.value d : Diff C) with
    | .tuple _ _ | .vec _ _ => .ok ((DiffView.parts d).map diff)
    | _ => .error .notIterable
  | _ => .error .notIterable

def named (name : String) (x : Datum C δ) : Datum C δ := tuple 0 [text name, x]

/-- The fields of a record of law checks. A sequence that is part of such a record goes by the label
of the record. -/
def checkFields : Datum C δ → Option (List (Datum C δ))
  | config l c p xs =>
    some [named "check_commutativity" (bool c), named "check_multiply_purity" (bool p),
      named "multiplicands" (tuple l xs)]
  | violation l v =>
    some [named "law" (text v.law.name), named "type_name" (text v.typeName),
      named "operands" (tuple l (v.operands.map text)), named "details" (text v.details)]
  | report l r =>
    some [named "checks_run" (int r.checksRun),
      named "violations" (tuple l (r.violations.map (violation 0)))]
  | _ => none

/-- The items of a datum that can be walked through: those of a sequence, the keys of a record, and
the named fields of a record of law checks. -/
def items [DiffView δ C] : Datum C δ → Except Fault (List (Datum C δ))
  | record _ fs => .ok (fs.map fun f => text f.1)
  | x =>
    match x.checkFields with
    | some fields => .ok fields
    | none => x.sequence

mutual

def argument [DiffView δ C] : Datum C δ → Argument
  | bool b => .integer (if b then 1 else 0)
  | int n => .integer n
  | text s => .text s
  | list _ xs => .list (arguments xs)
  | diff d =>
    match (DiffView.value d : Diff C) with
    | .int _ n => .integer n
    | _ => .other
  | _ => .other

def arguments [DiffView δ C] : List (Datum C δ) → List Argument
  | [] => []
  | x :: xs => argument x :: arguments xs

end

/-- The field of a record with the given key, the last one if there are several. -/
def lookupField (key : String) (fields : List (String × Datum C δ)) : Option (Datum C δ) :=
  (fields.reverse.find? (·.1 == key)).map (·.2)

end Datum

end DiffAlgebra
