import DiffAlgebra.Codec.Layout
import DiffAlgebra.Contract.Form
import DiffAlgebra.Datum.Order
import DiffAlgebra.Session.Description
import DiffAlgebra.Session.Outcome

/-!
# Operations on types, bytes and JSON forms

Layouts are resolved before anything else is looked at. A decoded or loaded value is a new object,
but the schema of a type is given out as one and the same record every time. No operation writes to
that record, so data are validated against the schema of the type, which is what the record says.
-/

namespace DiffAlgebra.Session

variable {C : Catalog}

def layoutType (l : Value C) : Except Fault (DiffType C) := l.values.layout

def asClass (x : Value C) : Except Fault (Class C) :=
  match x with
  | .type c => .ok c
  | _ => .error .badArguments

/-- What a class declares. That begins with its name, which other data do not have. -/
def typeInfo (x : Value C) : Except Fault (Value C) :=
  match x with
  | .type c => .ok c.info.toRecord
  | _ => .error .missingMember

def typeReference (t : DiffType C) : Except Fault (Value C) :=
  if t.isNamed then .ok (.type (.diff t))
  else do
    let _ ← t.resolved
    .ok (.reference 0 t)

def tupleType (xs : List (Value C)) : Except Fault (Value C) :=
  let ys := xs.map Datum.values
  if !Datum.hashableAll ys then .error .notHashable
  else if Fault.maxArity < ys.length then .error (.arity ys.length)
  else do
    let ts ← ys.mapM fun y =>
      match y.diffType? with
      | some t => .ok t
      | none => .error (.notComponent y.render)
    .ok (.type (.diff (.tuple ts)))

def vecType (x : Value C) : Except Fault (Value C) :=
  let y := x.values
  if !y.hashable then .error .notHashable
  else
    match y.diffType? with
    | some t => .ok (.type (.diff (.vec t)))
    | none => .error (.notElement y.render)

def encode (x : Value C) : Except Fault (Value C) :=
  match x with
  | .diff o => do .ok (.bytes (← o.value.encode))
  | x => .error (.noBinaryForm (x.typeOf : Class C).name)

def encodedSize (x : Value C) : Except Fault (Value C) :=
  match x with
  | .diff o => do .ok (.int (← o.value.encodedSize))
  | x => .error (.noBinaryForm (x.typeOf : Class C).name)

def toByte (x : Value C) : Except Fault UInt8 := do
  let n ← x.toInteger
  if 0 ≤ n ∧ n < 256 then .ok (UInt8.ofNat n.toNat) else .error .notByte

/-- Most zero bytes that a count may ask for: bytes are counted along with 33 bytes of their own. -/
def maxByteCount : Int := IntKind.max ⟨.signed, .size⟩ - 33

def roomForBytes : Int := 274877906944

/-- Bytes one by one, or a number of zero bytes. -/
inductive ByteData where
  | spelled (bs : List UInt8)
  | zeros (n : Nat)

def ByteData.decode (limit : Int) (t : DiffType C) : ByteData → Except Fault (Diff C)
  | spelled bs => Diff.decode limit t bs
  | zeros n => Diff.decodeZeros limit t n

/-- The bytes that a datum stands for: bytes as they are, an integer as a count of zero bytes, and
other sequences byte by byte. -/
def toBytes (x : Value C) : Except Fault ByteData :=
  match x with
  | .bytes bs => .ok (.spelled bs)
  | .text _ => .error .badArguments
  | x =>
    match x.toInteger with
    | .ok n =>
      if n < 0 then .error .notByte
      else if maxByteCount < n then .error .tooWide
      else if roomForBytes < n then .error .outOfMemory
      else .ok (.zeros n.toNat)
    | .error _ => do .ok (.spelled (← (← x.items).mapM toByte))

/-- Reads a value of a type from bytes. The limit keeps what `bound` keeps, and what goes beyond it
is reported by `beyond`. -/
def decodeBounded (t : DiffType C) (bs : ByteData) (bound : Int) (beyond : Nat → Fault) :
    Except Fault (Diff C) :=
  match bs.decode bound t with
  | .error (.sequenceLimit length _) => .error (beyond length)
  | r => r

/-- Reads a value of a type from bytes. A limit with a fraction keeps what the next integer below it
keeps. The infinite limits keep everything and nothing, the latter without a whole part to report.
What is no number is noticed at the first sequence, as if it kept nothing. -/
def decodeWithin (t : DiffType C) (bs : ByteData) (limit : Value C) : Except Fault (Diff C) :=
  match limit with
  | .int n => bs.decode n t
  | .bool b =>
    let n : Int := if b then 1 else 0
    decodeBounded t bs n fun length => .sequenceBound length (Text.truth b) n
  | .real x =>
    match x.truncate? with
    | some n =>
      decodeBounded t bs (if x.ltInt n then n - 1 else n) fun length =>
        .sequenceBound length x.render n
    | none =>
      if x.ltInt 0 then decodeBounded t bs (-1) fun _ => .tooWide
      else bs.decode (Bytes.capacity lengthBytes) t
  | _ => decodeBounded t bs (-1) fun _ => .notOrdered

def decode (l data : Value C) (limit : Option (Value C)) (next : Nat) : Outcome C :=
  let r := do
    let t ← layoutType l
    let bs ← toBytes data
    decodeWithin t bs (limit.getD (.int Diff.defaultLimit))
  match r with
  | .ok x => .built next (.ok x)
  | .error f => { result := .error f, log := f.logLine?.toList, next := next }

def toForm (x : Value C) : Except Fault (Value C) :=
  match x with
  | .diff o => o.value.toForm
  | x => .error (.noJsonForm (x.typeOf : Class C).name)

/-- The schema of a type: the one that has been given out before, or else a new one. -/
def givenSchema (known : Schemas C) (t : DiffType C) (next : Nat) :
    Except Fault (Value C × Nat) :=
  match known.find? (·.1 == t) with
  | some (_, d) => .ok (d, next)
  | none => do
    let s ← t.schema
    .ok ((s.document t.name).toDatum.settle next)

/-- Gives out the schema of a layout, in the form that `present` makes of the type and it. -/
def giveSchema (present : DiffType C → Value C → Value C) (known : Schemas C) (l : Value C)
    (next : Nat) : Outcome C :=
  let r := do
    let t ← layoutType l
    let (d, next) ← givenSchema known t next
    .ok (t, d, next)
  match r with
  | .ok (t, d, next) => { result := .ok (present t d), schema := some (t, d), next := next }
  | .error f => .failed next f

def schema (known : Schemas C) (l : Value C) (next : Nat) : Outcome C :=
  giveSchema (fun _ d => d) known l next

def validator (known : Schemas C) (l : Value C) (next : Nat) : Outcome C :=
  giveSchema (fun t d => .record 0 [("type", .text t.name), ("schema", d)]) known l next

def violations (l data : Value C) : Except Fault (List (Value C)) := do
  let vs ← (← layoutType l).violations data
  .ok (vs.map (.mismatch 0))

def load (l data : Value C) (next : Nat) : Outcome C :=
  .built next do
    let t ← layoutType l
    t.load data

def maxVersion : Int := 5

/-- Checks the version of an archive. Null stands for the usual one, a negative number for the
highest. -/
def checkVersion (version : Value C) : Except Fault Unit :=
  match version with
  | .null => .ok ()
  | x => do
    let n ← x.toInteger
    if n < IntKind.min ⟨.signed, .size⟩ ∨ IntKind.max ⟨.signed, .size⟩ < n then .error .tooWide
    else if maxVersion < n then .error .noVersion
    else .ok ()

end DiffAlgebra.Session
