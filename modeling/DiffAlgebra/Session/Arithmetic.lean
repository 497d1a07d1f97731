import DiffAlgebra.Laws.Verify
import DiffAlgebra.Object.Update
import DiffAlgebra.Session.Outcome

/-!
# Operations on shared differences

Addition and negation change their receiver in place, and a sum is a clone to which the other items
are added in place. An operation reports the changes it has made, also where it fails.
-/

namespace DiffAlgebra.Session

variable {C : Catalog}

/-- The class of which a class-level operation is asked, which may be asked of a value as well. -/
def classOf (x : Value C) : Except Fault (DiffType C) :=
  match x with
  | .type (.diff t) => .ok t
  | .diff d => .ok d.typeOf
  | _ => .error .missingMember

def coerce (t x : Value C) (next : Nat) : Outcome C :=
  .made next do
    let t ← classOf t
    let d ← Draft.coerce t x
    let (o, next) := Object.ofDraft d next
    .ok (.diff o, next)

def zero (t : Value C) (next : Nat) : Outcome C :=
  match (do Diff.zero? (← classOf t)) with
  | .ok (some z) => .built next (.ok z)
  | .ok none => .shown next (.ok .null)
  | .error f => .failed next f

def inPlace {α : Type} (m : UpdateM C α) (result : α → Value C) (next : Nat) : Outcome C :=
  let (r, s) := m.run ⟨[], next⟩
  { result := r.map result, writes := s.changes.map .object, next := s.next }

def plusEquals (x operand : Value C) (next : Nat) : Outcome C :=
  match x.receiver Class.isDiff with
  | .error f => .failed next f
  | .ok o => inPlace (o.plusEquals operand) (fun _ => .null) next

def negate (x : Value C) (next : Nat) : Outcome C :=
  match x.receiver (Class.declares · .negate) with
  | .error f => .failed next f
  | .ok o => inPlace o.negate (fun _ => .null) next

def multiply (x operand : Value C) (next : Nat) : Outcome C :=
  match x.receiver (Class.declares · .multiply) with
  | .error f => .failed next f
  | .ok o =>
    let (r, s) := o.multiply operand next
    { result := r, writes := s.writes, next := s.next }

def testsZero : Class C → Bool
  | .isZero => true
  | c => c.isDiff

def isZero (x : Value C) : Except Fault (Value C) := do
  let o ← x.receiver testsZero
  .ok (.bool o.value.isZero)

def clone (x : Value C) (next : Nat) : Outcome C :=
  .made next do
    let o ← x.receiver Class.isDiff
    let (y, next) ← o.clone next
    .ok (.diff y, next)

def accumulate (xs : Value C) (next : Nat) : Outcome C :=
  match xs.items with
  | .error f => .failed next f
  | .ok vs => inPlace (Object.accumulate vs) .diff next

def lawValue : Option LawViolation → Value C
  | some v => .violation 0 v
  | none => .null

def checkLaw (m : UpdateM C (Option LawViolation)) (next : Nat) : Outcome C :=
  inPlace m lawValue next

def checkMultiplyPurity (x operand : Value C) (next : Nat) : Outcome C :=
  let p := Law.checkMultiplyPurity x operand next
  { result := p.result.map lawValue, writes := p.writes, next := p.next }

def samplesOf (x : Value C) : Except Fault (List (Value C)) :=
  if !x.truthy then .ok []
  else
    match x with
    | .record _ _ => .error .unbound
    | x =>
      match x.sequence with
      | .ok xs => .ok xs
      | .error _ => .error .badArguments

/-- Verifies all laws on samples. What is no configuration is noticed when it is needed. -/
def verifyLaws (samples config : Value C) (next : Nat) : Outcome C :=
  match samplesOf samples with
  | .error f => .failed next f
  | .ok [] => .shown next (.ok (.report 0 ⟨0, []⟩))
  | .ok xs =>
    match LawConfig.ofDatum config with
    | .error f =>
      let (r, run) := Law.verifyUnconfigured xs next
      { result := do r; .error f, writes := run.writes, log := run.log, next := run.next }
    | .ok c =>
      let (r, run) := Law.verify xs c next
      { result := r.map (.report 0), writes := run.writes, log := run.log, next := run.next }

end DiffAlgebra.Session
