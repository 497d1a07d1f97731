import DiffAlgebra.Codec.Bytes
import DiffAlgebra.Diff.Basic

/-!
# The binary form of differences

Integers take the bytes of their kind, the presence marker takes none, tuples are the concatenation
of their components, and sequences are preceded by their length in eight bytes. Custom values have
no binary form.
-/

namespace DiffAlgebra

def lengthBytes : Nat := 8

namespace IntKind

def encode (k : IntKind) (n : Int) : Except Fault (List UInt8) :=
  if Bytes.fits k.isSigned k.width.bytes n then .ok (Bytes.ofInt k.width.bytes n)
  else .error .tooWide

end IntKind

namespace Diff

variable {C : Catalog}

def encodeLength (n : Nat) : Except Fault (List UInt8) :=
  if n < Bytes.capacity lengthBytes then .ok (Bytes.ofNat lengthBytes n) else .error .tooWide

mutual

def encode : Diff C → Except Fault (List UInt8)
  | int k n => k.encode n
  | present => .ok []
  | custom n _ => .error (.noBinaryForm (C.label n))
  | tuple _ xs => encodeAll xs
  | vec _ xs => do
    let head ← encodeLength xs.length
    let body ← encodeAll xs
    .ok (head ++ body)

def encodeAll : List (Diff C) → Except Fault (List UInt8)
  | [] => .ok []
  | x :: xs => do
    let bs ← encode x
    let rest ← encodeAll xs
    .ok (bs ++ rest)

end

mutual

def encodedSize : Diff C → Except Fault Nat
  | int k _ => .ok k.width.bytes
  | present => .ok 0
  | custom n _ => .error (.noBinaryForm (C.label n))
  | tuple _ xs => encodedSizeAll xs
  | vec _ xs => do .ok (lengthBytes + (← encodedSizeAll xs))

def encodedSizeAll : List (Diff C) → Except Fault Nat
  | [] => .ok 0
  | x :: xs => do
    let m ← encodedSize x
    let n ← encodedSizeAll xs
    .ok (m + n)

end

end Diff

end DiffAlgebra
