import DiffAlgebra.Diff.Addition
import DiffAlgebra.DiffType.Reference
import DiffAlgebra.Object.Fresh

/-!
# Copies

There are three ways to copy. A clone has a new object at every place, whatever was shared. A
shallow copy of a composite object holds the components of that object. A deep copy consists of
new objects that are shared among themselves just as the copied ones are: every label is moved by
the same distance beyond the labels that have been handed out.

Shallow and deep copies build composite objects again from a reference to their type.
-/

namespace DiffAlgebra

namespace Object

variable {C : Catalog}

/-- A new object at every place. The clones of the components have the types of the components, so
the constructor of a composite type takes them as they are. -/
def clone (x : Object C) (next : Nat) : Except Fault (Object C × Nat) := do
  let y ← x.value.clone
  .ok (ofDiff y next)

mutual

def shift (distance : Nat) : Object C → Object C
  | int l k n => int (l + distance) k n
  | present => present
  | custom l n s => custom (l + distance) n s
  | tuple l ts xs => tuple (l + distance) ts (shiftAll distance xs)
  | vec l t xs => vec (l + distance) t (shiftAll distance xs)

def shiftAll (distance : Nat) : List (Object C) → List (Object C)
  | [] => []
  | x :: xs => shift distance x :: shiftAll distance xs

end

def checkComponents : List (DiffType C) → List (Object C) → Except Fault Unit
  | t :: ts, x :: xs =>
    if x.value.isA t then checkComponents ts xs
    else .error (.foreignOperand x.typeOf.name t.name)
  | _, _ => .ok ()

/-- A composite object of the type that a reference resolves to, with the given components. -/
def composeAs (label : Nat) (t : DiffType C) (xs : List (Object C)) : Except Fault (Object C) :=
  match t with
  | .tuple ts => do
    checkComponents ts xs
    .ok (tuple label (some ts) xs)
  | .vec t => do
    checkComponents (xs.map fun _ => t) xs
    .ok (vec label (some t) xs)
  | _ => .error .missingMember

/-- A composite object built again from a reference to its type, with the same components. -/
def recompose : Object C → Except Fault (Object C)
  | tuple l ts xs => do
    let t ← (Diff.tupleType ts).resolved
    composeAs l t xs
  | vec l t xs => do
    let t ← (Diff.vecType t).resolved
    composeAs l t xs
  | x => .ok x

mutual

/-- An object built again from references to types, from the bottom up. -/
def rebuild : Object C → Except Fault (Object C)
  | tuple l ts xs => do
    let t ← (Diff.tupleType ts).resolved
    let ys ← rebuildAll xs
    composeAs l t ys
  | vec l t xs => do
    let t ← (Diff.vecType t).resolved
    let ys ← rebuildAll xs
    composeAs l t ys
  | int l k n => .ok (int l k n)
  | present => .ok present
  | custom l n s => .ok (custom l n s)

def rebuildAll : List (Object C) → Except Fault (List (Object C))
  | [] => .ok []
  | x :: xs => do
    let y ← rebuild x
    let ys ← rebuildAll xs
    .ok (y :: ys)

end

def copy (x : Object C) (next : Nat) : Except Fault (Object C × Nat) := do
  let y ← x.recompose
  match y with
  | int _ k n => .ok (int next k n, next + 1)
  | present => .ok (present, next)
  | custom _ n s => .ok (custom next n s, next + 1)
  | tuple _ ts xs => .ok (tuple next ts xs, next + 1)
  | vec _ t xs => .ok (vec next t xs, next + 1)

end Object

namespace Datum

variable {C : Catalog}

mutual

/-- Whether a datum has no parts that a deep copy makes anew, so that the copy is the datum
itself. -/
def isFixed : Value C → Bool
  | null | bool _ | int _ | real _ | text _ | bytes _ | type _ => true
  | tuple _ xs => isFixedAll xs
  | diff x => x.label?.isNone
  | list _ _ | record _ _ | reference _ _ | config _ _ _ _ | violation _ _ | report _ _
  | mismatch _ _ => false

def isFixedAll : List (Value C) → Bool
  | [] => true
  | x :: xs => isFixed x && isFixedAll xs

end

/-- What a way of copying does with data that do not change. -/
structure CopyRule (C : Catalog) where
  /-- Whether the tuple of the given items is its own copy. -/
  keepsTuple : List (Value C) → Bool
  admits : Class C → Bool

mutual

/-- A datum with every label moved by the same distance, and with objects built again from
references to their types. -/
def duplicate (rule : CopyRule C) (distance : Nat) : Value C → Except Fault (Value C)
  | list l xs => do .ok (list (l + distance) (← duplicateAll rule distance xs))
  | tuple l xs => do
    let ys ← duplicateAll rule distance xs
    .ok (tuple (if rule.keepsTuple xs then l else l + distance) ys)
  | record l fs => do .ok (record (l + distance) (← duplicateFields rule distance fs))
  | config l c p xs => do .ok (config (l + distance) c p (← duplicateAll rule distance xs))
  | diff x => do .ok (diff ((← x.rebuild).shift distance))
  | null => .ok null
  | bool b => .ok (bool b)
  | int n => .ok (int n)
  | real x => .ok (real x)
  | text s => .ok (text s)
  | bytes bs => .ok (bytes bs)
  | type c => if rule.admits c then .ok (type c) else .error .unnamed
  | reference _ t => do .ok (type (.diff (← t.resolved)))
  | violation l v => .ok (violation (l + distance) v)
  | report l r => .ok (report (l + distance) r)
  | mismatch l v => .ok (mismatch (l + distance) v)

def duplicateAll (rule : CopyRule C) (distance : Nat) :
    List (Value C) → Except Fault (List (Value C))
  | [] => .ok []
  | x :: xs => do
    let y ← duplicate rule distance x
    let ys ← duplicateAll rule distance xs
    .ok (y :: ys)

def duplicateFields (rule : CopyRule C) (distance : Nat) :
    List (String × Value C) → Except Fault (List (String × Value C))
  | [] => .ok []
  | (k, x) :: fs => do
    let y ← duplicate rule distance x
    let gs ← duplicateFields rule distance fs
    .ok ((k, y) :: gs)

end

/-- A shallow copy, and the next label. A copy of a reference is the type it refers to, provided
that it is composed of named types; a tuple, like all that has no parts, is its own copy. -/
def copy (x : Value C) (next : Nat) : Except Fault (Value C × Nat) :=
  match x with
  | list _ xs => .ok (list next xs, next + 1)
  | record _ fs => .ok (record next fs, next + 1)
  | config _ c p xs => .ok (config next c p xs, next + 1)
  | violation _ v => .ok (violation next v, next + 1)
  | report _ r => .ok (report next r, next + 1)
  | mismatch _ v => .ok (mismatch next v, next + 1)
  | reference _ t => do .ok (type (.diff (← t.recomposed)), next)
  | diff x => do
    let (y, next) ← x.copy next
    .ok (diff y, next)
  | x => .ok (x, next)

def deepCopy (x : Value C) (next : Nat) : Except Fault (Value C × Nat) := do
  .ok (← x.duplicate ⟨isFixedAll, fun _ => true⟩ next, next + next)

/-- A copy by way of an archive, and the next label. All that has parts is made anew, and classes
are referred to by name, which composite types do not have. -/
def archive (x : Value C) (next : Nat) : Except Fault (Value C × Nat) := do
  .ok (← x.duplicate ⟨fun _ => false, fun c => !c.isComposite⟩ next, next + next)

end Datum

end DiffAlgebra
