import DiffAlgebra.Object.Copy

/-!
# Multiplication

Multiplication combines an object with an operand of any sort: an integer takes the operand as one
of its own kind, the presence marker gives a deep copy of it, and a composite object multiplies its
components from left to right, a tuple giving a tuple of the outputs and a sequence a list of them.

A custom multiplication may change its receiver and its operand. The changes are carried out at
once, so that what is multiplied later sees them, and they remain when a later component fails.
-/

namespace DiffAlgebra

/-- What a multiplication in progress knows: the operand as it is by now, the changes that have been
made, and the next label. -/
structure MultiplyState (C : Catalog) where
  operand : Value C
  writes : List (Write C)
  next : Nat

abbrev MultiplyM (C : Catalog) := ExceptT Fault (StateM (MultiplyState C))

namespace Object

variable {C : Catalog}

def changeInPlace (w : Write C) : MultiplyM C Unit :=
  modify fun s => { s with operand := s.operand.write w, writes := s.writes ++ [w] }

def freshLabel : MultiplyM C Nat := do
  let s ← get
  set { s with next := s.next + 1 }
  return s.next

def productInt (k : IntKind) (m : Int) (operand : Value C) : Except Fault Int := do
  let d ← Draft.coerce (.int k) operand
  match d.value with
  | .int _ n => k.mul m n
  | _ => .error .missingMember

def multiplyInt (k : IntKind) (m : Int) : MultiplyM C (Value C) := do
  let s ← get
  match productInt k m s.operand with
  | .ok p =>
    let l ← freshLabel
    return .diff (int l k p)
  | .error f => throw f

def multiplyPresent : MultiplyM C (Value C) := do
  let s ← get
  match s.operand.deepCopy s.next with
  | .ok (y, next) =>
    set { s with next := next }
    return y
  | .error f => throw f

def currentState (l : Nat) (n : C.Name) (s : C.State) (ws : List (Write C)) : C.State :=
  match Datum.writes ws (.diff (custom l n s)) with
  | .diff (custom _ _ t) => t
  | _ => s

def customOutput : ProductOutput → MultiplyM C (Value C)
  | .number n => return .int n
  | .operand => do
    let s ← get
    match s.operand with
    | .list _ xs => return .list 0 xs
    | x => return x

def changeReceiver (l : Nat) (n : C.Name) (before after : C.State) : MultiplyM C Unit :=
  if after = before then pure () else changeInPlace (.object (custom l n after))

def appendToOperand (ns : List Int) : MultiplyM C Unit := do
  let s ← get
  match s.operand with
  | .list m xs => if ns.isEmpty then pure () else changeInPlace (.list m (xs ++ ns.map .int))
  | _ => pure ()

def multiplyCustom (l : Nat) (n : C.Name) (s : C.State) : MultiplyM C (Value C) := do
  let w ← get
  if C.multiplies n then
    let t := currentState l n s w.writes
    match C.multiply n t w.operand.argument with
    | .error f => throw f
    | .ok p =>
      changeReceiver l n t p.receiver
      appendToOperand p.appended
      customOutput p.output
  else throw .missingMember

mutual

def multiplyOperand : Object C → MultiplyM C (Value C)
  | int _ k m => multiplyInt k m
  | present => multiplyPresent
  | custom l n s => multiplyCustom l n s
  | tuple _ ts xs =>
    if (Diff.tupleType ts).multiplies then do
      let ys ← multiplyAll xs
      return .tuple 0 ys
    else throw .missingMember
  | vec _ t xs =>
    if (Diff.vecType t).multiplies then do
      let ys ← multiplyAll xs
      return .list 0 ys
    else throw .missingMember

/-- The products of components with the operand. A product may share objects with the operand, so it
takes part in the changes that are made while the components after it are multiplied. -/
def multiplyAll : List (Object C) → MultiplyM C (List (Value C))
  | [] => return []
  | x :: xs => do
    let y ← multiplyOperand x
    let made := (← get).writes.length
    let ys ← multiplyAll xs
    return y.writes ((← get).writes.drop made) :: ys

end

def multiply (x : Object C) (operand : Value C) (next : Nat) :
    Except Fault (Value C) × MultiplyState C :=
  (multiplyOperand x).run ⟨operand, [], next⟩

end Object

end DiffAlgebra
