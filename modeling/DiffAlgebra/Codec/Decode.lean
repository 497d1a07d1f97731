import DiffAlgebra.Codec.Encode
import DiffAlgebra.Integer.Arithmetic

/-!
# Reading the binary form

Reading is directed by a type. It consumes input from the front and keeps count of what it has
consumed, which only messages show. Bytes that denote an integer outside the range of a narrow
pointer-sized kind are refused, except that a wrapping kind takes the value that agrees with them.
A sequence whose announced length is above the limit is refused before its elements are read, since
elements that take no bytes are not bounded by the input.
-/

namespace DiffAlgebra

/-- Input that is left, and the number of bytes that came before it. -/
structure Cursor where
  offset : Nat
  rest : List UInt8
  deriving DecidableEq, Repr

namespace Cursor

def start (bs : List UInt8) : Cursor := ⟨0, bs⟩

def take (c : Cursor) (size : Nat) (what : String) : Except Fault (List UInt8 × Cursor) :=
  if size ≤ c.rest.length then
    .ok (c.rest.take size, ⟨c.offset + size, c.rest.drop size⟩)
  else .error (.truncated what size c.offset c.rest.length)

end Cursor

namespace IntKind

def decode (k : IntKind) (c : Cursor) : Except Fault (Int × Cursor) := do
  let (bs, c) ← c.take k.width.bytes k.name
  let n := Bytes.toInt k.isSigned bs
  match k.ofInt n with
  | .ok m => .ok (m, c)
  | .error _ => .error (.outOfRange k.name n)

end IntKind

namespace Diff

variable {C : Catalog}

/-- Most elements a sequence may announce where no other limit is given. -/
def defaultLimit : Int := 16777216

def decodeLength (limit : Int) (c : Cursor) : Except Fault (Nat × Cursor) := do
  let (bs, c) ← c.take lengthBytes "sequence length"
  let n := Bytes.toNat bs
  if limit < n then .error (.sequenceLimit n limit) else .ok (n, c)

def decodeRepeat (read : Cursor → Except Fault (Diff C × Cursor)) :
    Nat → Cursor → Except Fault (List (Diff C) × Cursor)
  | 0, c => .ok ([], c)
  | n + 1, c => do
    let (x, c) ← read c
    let (xs, c) ← decodeRepeat read n c
    .ok (x :: xs, c)

mutual

/-- Reads a value of a type. The parts of a composite value have been read by their types, so the
constructor of the type, which counts and coerces them, would take them as they are
(`Draft.construct_tuple`, `Draft.construct_vec`). -/
def decodeFrom (limit : Int) : DiffType C → Cursor → Except Fault (Diff C × Cursor)
  | .int k => fun c => do
    let (n, c) ← k.decode c
    .ok (int k n, c)
  | .anyInt _ => fun _ => .error .missingMember
  | .present => fun c => .ok (present, c)
  | .anyTuple => fun c => .ok (tuple none [], c)
  | .tuple ts => fun c => do
    let (xs, c) ← decodeAll limit ts c
    .ok (tuple (some ts) xs, c)
  | .anyVec => fun c => do
    let (n, c) ← decodeLength limit c
    if n = 0 then .ok (vec none [], c) else .error .missingMember
  | .vec t => fun c => do
    let (n, c) ← decodeLength limit c
    let (xs, c) ← decodeRepeat (decodeFrom limit t) n c
    .ok (vec (some t) xs, c)
  | .tier t => fun _ => .error (.noBinaryForm t.name)
  | .custom n => fun _ => .error (.noBinaryForm (C.label n))

def decodeAll (limit : Int) : List (DiffType C) → Cursor → Except Fault (List (Diff C) × Cursor)
  | [] => fun c => .ok ([], c)
  | t :: ts => fun c => do
    let (x, c) ← decodeFrom limit t c
    let (xs, c) ← decodeAll limit ts c
    .ok (x :: xs, c)

end

def decode (limit : Int) (t : DiffType C) (bs : List UInt8) : Except Fault (Diff C) := do
  let (x, c) ← decodeFrom limit t (Cursor.start bs)
  if c.rest.isEmpty then .ok x else .error (.trailing t.name c.rest.length)

end Diff

namespace DiffType

variable {C : Catalog}

mutual

def minimalSize : DiffType C → Nat
  | int k => k.width.bytes
  | tuple ts => minimalSizeAll ts
  | vec _ | anyVec => lengthBytes
  | tier _ | anyInt _ | present | custom _ | anyTuple => 0

def minimalSizeAll : List (DiffType C) → Nat
  | [] => 0
  | t :: ts => minimalSize t + minimalSizeAll ts

end

end DiffType

/-- Reads a value of a type from `n` zero bytes. Zeros denote empty sequences, so a value takes the
least number of bytes, and most of what is left over need not be spelled out. -/
def Diff.decodeZeros {C : Catalog} (limit : Int) (t : DiffType C) (n : Nat) :
    Except Fault (Diff C) :=
  let m := min n (t.minimalSize + 1)
  match decode limit t (List.replicate m 0) with
  | .error (.trailing type count) => .error (.trailing type (count + (n - m)))
  | r => r

def Class.integerWidth {C : Catalog} : Class C → Except Fault Nat
  | .diff (.int k) => .ok k.width.bytes
  | _ => .error .missingMember

end DiffAlgebra
