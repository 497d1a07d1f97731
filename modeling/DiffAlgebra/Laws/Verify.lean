import DiffAlgebra.Laws.Check
import DiffAlgebra.Laws.Config
import DiffAlgebra.Object.Multiply

/-!
# Verification of all laws

All checks that apply to a list of samples are planned first and then made in the order of the plan:
those of one sample, those of ordered pairs, and those of ordered triples. Each broken law is
reported in the log, and so are the totals at the end.

The checks of additive laws work on clones. The check that multiplication changes nothing is made on
the samples themselves: if a custom multiplication does change its operands, the checks that follow
see the changed samples.
-/

namespace DiffAlgebra

/-- One check, of samples and multiplicands at the given positions. -/
inductive LawCheck where
  | zeroIdentity (i : Nat)
  | negationInverse (i : Nat)
  | multiplyPurity (i m : Nat)
  | commutativity (i j : Nat)
  | associativity (i j k : Nat)
  /-- The first sample's type does not say whether its addition is commutative. -/
  | undeclared
  deriving DecidableEq, Repr

namespace LawCheck

variable {C : Catalog}

def ofSample (purity : Bool) (multiplicands : Nat) (x : Datum C (Diff C)) (i : Nat) :
    List LawCheck :=
  match x with
  | .diff d =>
    (if d.typeOf.isMonoid then [zeroIdentity i] else [])
      ++ (if d.typeOf.isAbelian then [negationInverse i] else [])
      ++ (if d.typeOf.multiplies && purity then (List.range multiplicands).map (multiplyPurity i)
          else [])
  | _ => []

def pairs (n : Nat) : List LawCheck :=
  (List.range n).flatMap fun i => (List.range n).map (commutativity i)

def triples (n : Nat) : List LawCheck :=
  (List.range n).flatMap fun i => (List.range n).flatMap fun j =>
    (List.range n).map (associativity i j)

def pairsFor (first : Datum C (Diff C)) (n : Nat) : List LawCheck :=
  match first with
  | .diff d => if d.typeOf.commutative then pairs n else []
  | _ => [undeclared]

def plan {δ : Type} (config : LawConfig C δ) (samples : List (Datum C (Diff C))) : List LawCheck :=
  match samples with
  | [] => []
  | first :: _ =>
    (samples.zipIdx.flatMap fun (x, i) =>
        ofSample config.purity config.multiplicands.length x i)
      ++ (if config.commutativity then pairsFor first samples.length else [])
      ++ triples samples.length

end LawCheck

/-- A run of checks in progress. -/
structure LawRun (C : Catalog) where
  samples : List (Value C)
  multiplicands : List (Value C)
  /-- Changes made by the checks, of clones and by multiplications. -/
  writes : List (Write C)
  next : Nat
  log : List LogLine
  made : Nat
  found : List LawViolation

/-- The result of checking that a multiplication changes nothing, with what it leaves behind. -/
structure PurityCheck (C : Catalog) where
  result : Except Fault (Option LawViolation)
  writes : List (Write C)
  next : Nat

namespace Law

variable {C : Catalog}

/-- Multiplication changes neither operand. -/
def checkMultiplyPurity (x operand : Value C) (next : Nat) : PurityCheck C :=
  match x.deepCopy next with
  | .error f => ⟨.error f, [], next⟩
  | .ok (before, next) =>
    match operand.deepCopy next with
    | .error f => ⟨.error f, [], next⟩
    | .ok (operandBefore, next) =>
      match x.receiver (Class.declares · .multiply) with
      | .error f => ⟨.error f, [], next⟩
      | .ok d =>
        let (product, s) := d.multiply operand next
        let after := (x.writes s.writes).values
        let operandAfter := (operand.writes s.writes).values
        let result := do
          let _ ← product
          if !after.same before.values then
            return some (multiplyPurity.violatedBy [after, operandAfter]
              ("receiver became " ++ after.render))
          if !operandAfter.same operandBefore.values then
            return some (multiplyPurity.violatedBy [after, operandAfter]
              ("operand became " ++ operandAfter.render))
          return none
        ⟨result, s.writes, s.next⟩

end Law

namespace LawRun

variable {C : Catalog}

def start (samples multiplicands : List (Value C)) (next : Nat) : LawRun C :=
  ⟨samples, multiplicands, [], next, [], 0, []⟩

def sample (r : LawRun C) (i : Nat) : Value C := r.samples.getD i .null

def multiplicand (r : LawRun C) (i : Nat) : Value C := r.multiplicands.getD i .null

def change (r : LawRun C) (ws : List (Write C)) (next : Nat) : LawRun C :=
  { r with
    samples := r.samples.map (Datum.writes ws)
    multiplicands := r.multiplicands.map (Datum.writes ws)
    writes := r.writes ++ ws
    next := next }

def make (r : LawRun C) (m : UpdateM C (Option LawViolation)) :
    Except Fault (Option LawViolation) × LawRun C :=
  let (found, s) := m.run ⟨[], r.next⟩
  (found, r.change (s.changes.map .object) s.next)

def check (r : LawRun C) : LawCheck → Except Fault (Option LawViolation) × LawRun C
  | .zeroIdentity i => r.make (Law.checkZeroIdentity (r.sample i))
  | .negationInverse i => r.make (Law.checkNegationInverse (r.sample i))
  | .commutativity i j => r.make (Law.checkCommutativity (r.sample i) (r.sample j))
  | .associativity i j k =>
    r.make (Law.checkAssociativity (r.sample i) (r.sample j) (r.sample k))
  | .undeclared => (.error .missingMember, r)
  | .multiplyPurity i m =>
    let p := Law.checkMultiplyPurity (r.sample i) (r.multiplicand m) r.next
    (p.result, r.change p.writes p.next)

def warning (v : LawViolation) : LogLine :=
  ⟨.warning, "Law " ++ v.law.name ++ " violated by " ++ v.typeName ++ ": " ++ v.details⟩

def record (r : LawRun C) : Option LawViolation → LawRun C
  | none => { r with made := r.made + 1 }
  | some v => { r with made := r.made + 1, found := r.found ++ [v], log := r.log ++ [warning v] }

/-- Makes checks in turn until one fails to be made. -/
def checkAll (r : LawRun C) : List LawCheck → Except Fault Unit × LawRun C
  | [] => (.ok (), r)
  | c :: cs =>
    match r.check c with
    | (.ok v, r) => checkAll (r.record v) cs
    | (.error f, r) => (.error f, r)

def summary (r : LawRun C) (typeName : String) : LogLine :=
  ⟨.debug, "Verified " ++ toString r.made ++ " law checks for " ++ typeName ++ ": "
    ++ toString r.found.length ++ " violations"⟩

end LawRun

namespace Law

variable {C : Catalog}

/-- Makes all checks that apply to the samples, and gives the report and the run that led to it. -/
def verify (samples : List (Value C)) (config : LawConfig C (Object C)) (next : Nat) :
    Except Fault LawReport × LawRun C :=
  let run := LawRun.start samples config.multiplicands next
  match samples with
  | [] => (.ok ⟨0, []⟩, run)
  | first :: _ =>
    match run.checkAll (LawCheck.plan config (samples.map Datum.values)) with
    | (.error f, r) => (.error f, r)
    | (.ok (), r) =>
      (.ok ⟨r.made, r.found⟩, { r with log := r.log ++ [r.summary (first.typeOf : Class C).name] })

/-- Makes the checks that come before a configuration is needed for the first time: those of the
first sample's zero and negation. -/
def verifyUnconfigured (samples : List (Value C)) (next : Nat) : Except Fault Unit × LawRun C :=
  (LawRun.start samples [] next).checkAll
    (match samples with
      | [] => []
      | first :: _ => LawCheck.ofSample false 0 first.values 0)

end Law

end DiffAlgebra
