import DiffAlgebra.Coercion

/-!
# Addition, zero and negation

Addition is the arithmetic of the kind on integers, does nothing to the presence marker, is
componentwise on tuples and ragged on sequences: beyond the shorter operand the elements of the
longer one are kept. Each component adds its counterpart as an operand of its own type, so a
counterpart of a special or a general type may be refused. A failure anywhere is the failure of the
whole.
-/

namespace DiffAlgebra.Diff

variable {C : Catalog}

mutual

/-- Whether the value can be built again from copies of its components. A sequence at large declares
no element type to build them with, so it can only if it is empty. -/
def clonable : Diff C → Bool
  | int _ _ | present | custom _ _ => true
  | tuple _ xs => clonableAll xs
  | vec (some _) xs => clonableAll xs
  | vec none xs => xs.isEmpty

def clonableAll : List (Diff C) → Bool
  | [] => true
  | x :: xs => clonable x && clonableAll xs

end

/-- A copy, which is the same value. -/
def clone (x : Diff C) : Except Fault (Diff C) :=
  if x.clonable then .ok x else .error .missingMember

def cloneAll (xs : List (Diff C)) : Except Fault (List (Diff C)) :=
  if clonableAll xs then .ok xs else .error .missingMember

mutual

/-- The sum of a value and an operand that has been coerced to its type. -/
def add : Diff C → Diff C → Except Fault (Diff C)
  | int k m => fun y =>
    match y with
    | int _ n => do .ok (int k (← k.add m n))
    | _ => .error .missingMember
  | present => fun _ => .ok present
  | custom n s => fun y =>
    match y with
    | custom _ t => do .ok (custom n (← C.add n s t))
    | _ => .error .missingMember
  | tuple ts xs => fun y => do
    let _ ← cloneAll xs
    let zs ← addAll xs y.parts
    .ok (tuple ts (zs ++ xs.drop y.parts.length))
  | vec t xs => fun y => do
    let _ ← cloneAll xs
    let zs ← addAll xs y.parts
    let rest ← cloneAll (y.parts.drop xs.length)
    .ok (vec t (zs ++ xs.drop y.parts.length ++ rest))

/-- The sums at the positions that both lists have, each operand coerced to the type of the
component it is added to. -/
def addAll : List (Diff C) → List (Diff C) → Except Fault (List (Diff C))
  | [] => fun _ => .ok []
  | x :: xs => fun ys =>
    match ys with
    | [] => .ok []
    | y :: ys => do
      let y ← coerce x.typeOf (.diff y)
      let z ← add x y
      let zs ← addAll xs ys
      .ok (z :: zs)

end

def plus (x : Diff C) (v : Datum C (Diff C)) : Except Fault (Diff C) := do
  let y ← coerce x.typeOf v
  x.add y

def plusAll (x : Diff C) : List (Datum C (Diff C)) → Except Fault (Diff C)
  | [] => .ok x
  | v :: vs => do
    let x ← x.plus v
    plusAll x vs

mutual

/-- The zero of a type. The tiers declare a zero without having one. -/
def zero? : DiffType C → Except Fault (Option (Diff C))
  | .tier .semigroup => .error .missingMember
  | .tier .monoid | .tier .abelian => .ok none
  | .anyInt _ => .error .missingMember
  | .int k => .ok (some (int k 0))
  | .present | .anyTuple | .anyVec => .error .missingMember
  | .custom n =>
    if (C.tier n).provides .monoid then .ok (some (custom n (C.zero n))) else .error .missingMember
  | .tuple ts =>
    if (DiffType.tuple ts).isMonoid then do
      let zs ← zeroAll ts
      match zs.mapM id with
      | some zs => .ok (some (tuple (some ts) zs))
      | none => .error .abstractType
    else .error .missingMember
  | .vec t => if t.isMonoid then .ok (some (vec (some t) [])) else .error .missingMember

def zeroAll : List (DiffType C) → Except Fault (List (Option (Diff C)))
  | [] => .ok []
  | t :: ts => do
    let z ← zero? t
    let zs ← zeroAll ts
    .ok (z :: zs)

end

mutual

def negate : Diff C → Except Fault (Diff C)
  | int k n => do .ok (int k (← k.neg n))
  | present => .error .missingMember
  | custom n s =>
    if (C.tier n).provides .abelian then do .ok (custom n (← C.negate n s))
    else .error .missingMember
  | tuple ts xs =>
    if (tupleType ts).isAbelian then do
      let _ ← cloneAll xs
      .ok (tuple ts (← negateAll xs))
    else .error .missingMember
  | vec t xs =>
    if (vecType t).isAbelian then do
      let _ ← cloneAll xs
      .ok (vec t (← negateAll xs))
    else .error .missingMember

def negateAll : List (Diff C) → Except Fault (List (Diff C))
  | [] => .ok []
  | x :: xs => do
    let x ← negate x
    let xs ← negateAll xs
    .ok (x :: xs)

end

/-- The sum of the values of a list of operands, which starts from a copy of the first. -/
def accumulate : List (Datum C (Diff C)) → Except Fault (Diff C)
  | [] => .error .nothingToAccumulate
  | .diff x :: vs => do
    let x ← x.clone
    x.plusAll vs
  | .type (.diff _) :: _ => .error .badArguments
  | _ :: _ => .error .missingMember

end DiffAlgebra.Diff
