import DiffAlgebra.Catalog
import DiffAlgebra.Text.Quoted

/-!
# Specimens

A catalog of small custom types on which the laws can be tried out. A counter keeps every law of a
commutative group; each of the others breaks what it declares at one place, or declares less.
-/

namespace DiffAlgebra

inductive Specimen where
  /-- The integers under addition. -/
  | counter
  /-- A counter whose zero is one. -/
  | offByOneZero
  /-- A counter whose zero is one, and that takes every value for zero. -/
  | falseZero
  /-- A counter that negation leaves as it is. -/
  | noOpNegate
  /-- A counter whose multiplication changes the operand. -/
  | greedy
  /-- A counter whose multiplication changes the receiver. -/
  | eater
  /-- Addition keeps the right operand. -/
  | last
  /-- Addition keeps the right operand but is declared commutative. -/
  | lastClaimingCommutative
  /-- Addition subtracts. -/
  | difference
  /-- Text under concatenation. -/
  | concat
  deriving DecidableEq, Repr

inductive SpecimenState where
  | number (n : Int)
  | text (s : String)
  deriving DecidableEq, Repr

namespace Specimen

def label : Specimen → String
  | counter => "Counter"
  | offByOneZero => "OffByOneZero"
  | falseZero => "FalseZero"
  | noOpNegate => "NoOpNegate"
  | greedy => "Greedy"
  | eater => "Eater"
  | last => "Last"
  | lastClaimingCommutative => "LastClaimingCommutative"
  | difference => "Difference"
  | concat => "Concat"

def ancestors : Specimen → List Specimen
  | offByOneZero | noOpNegate | greedy | eater => [counter]
  | falseZero => [offByOneZero, counter]
  | lastClaimingCommutative => [last]
  | counter | last | difference | concat => []

def isCounter (s : Specimen) : Bool := s == counter || s.ancestors.contains counter

def tier (s : Specimen) : Tier := if s.isCounter then .abelian else .semigroup

def commutative : Specimen → Bool
  | last | difference | concat => false
  | _ => true

def zero : Specimen → SpecimenState
  | offByOneZero | falseZero => .number 1
  | concat => .text ""
  | _ => .number 0

def isZero : Specimen → SpecimenState → Bool
  | falseZero, _ => true
  | last, _ | lastClaimingCommutative, _ => false
  | _, .number n => n == 0
  | _, .text s => s.isEmpty

/-- Text is built from text and the others from integers; without an argument, from what is
empty. -/
def build (s : Specimen) (arg : Option Argument) : Except Fault SpecimenState :=
  match s, arg with
  | concat, none => .ok (.text "")
  | concat, some (.text t) => .ok (.text t)
  | concat, some _ => .error .badArguments
  | _, none => .ok (.number 0)
  | _, some (.integer n) => .ok (.number n)
  | _, some _ => .error .notInteger

def add : Specimen → SpecimenState → SpecimenState → Except Fault SpecimenState
  | last, _, y | lastClaimingCommutative, _, y => .ok y
  | difference, .number m, .number n => .ok (.number (m - n))
  | concat, .text s, .text t => .ok (.text (s ++ t))
  | _, .number m, .number n => .ok (.number (m + n))
  | _, _, _ => .error .badArguments

def negate : Specimen → SpecimenState → Except Fault SpecimenState
  | noOpNegate, x => .ok x
  | _, .number n => .ok (.number (-n))
  | _, .text _ => .error .missingMember

def multiply : Specimen → SpecimenState → Argument → Except Fault (Product SpecimenState)
  | greedy, .number n, .list _ => .ok ⟨.number n, [n], .operand⟩
  | eater, .number n, _ => .ok ⟨.number (n + 1), [], .number (n + 1)⟩
  | _, _, _ => .error .missingMember

def render (s : Specimen) : SpecimenState → String
  | .number n => s.label ++ "(" ++ toString n ++ ")"
  | .text t => s.label ++ "(" ++ Text.quote t ++ ")"

end Specimen

def specimens : Catalog where
  Name := Specimen
  State := SpecimenState
  label := Specimen.label
  path s := "fixtures." ++ s.label
  ancestors := Specimen.ancestors
  tier := Specimen.tier
  multiplies s := s == .greedy || s == .eater
  commutative := Specimen.commutative
  build := Specimen.build
  zero := Specimen.zero
  isZero := Specimen.isZero
  add := Specimen.add
  negate := Specimen.negate
  multiply := Specimen.multiply
  render := Specimen.render

end DiffAlgebra
