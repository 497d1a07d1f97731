import DiffAlgebra.Contract.Schema
import DiffAlgebra.Datum.Basic

/-!
# Validation

A datum is held against every keyword of a schema, in the order of the schema, and each keyword
applies to the data it is about: bounds to numbers, the others to arrays. Lists are the arrays. A
real number with an integral value is an integer, a Boolean is no number.

The work is left to a library. So the keywords mean what the 2020-12 draft of JSON Schema lays down
for them, which is what the library documents.
-/

namespace DiffAlgebra.Contract

variable {C : Catalog} {δ : Type}

def isIntegral : Datum C δ → Bool
  | .int _ => true
  | .real x => x.toInt?.isSome
  | _ => false

def isBelow (bound : Int) : Datum C δ → Bool
  | .int n => n < bound
  | .real x => x.ltInt bound
  | _ => false

def isAbove (bound : Int) : Datum C δ → Bool
  | .int n => bound < n
  | .real x => x.gtInt bound
  | _ => false

def isNull : Datum C δ → Bool
  | .null => true
  | _ => false

def arrayItems? : Datum C δ → Option (List (Datum C δ))
  | .list _ xs => some xs
  | _ => none

def violated (keyword : Keyword) (expected : Expected) (broken : Bool) : List Violation :=
  if broken then [⟨keyword, expected, [], [.key keyword.name]⟩] else []

def itemViolations (check : Datum C δ → List Violation) (xs : List (Datum C δ)) : List Violation :=
  xs.zipIdx.flatMap fun (x, i) => (check x).map (Violation.under [i] [.key "items"])

namespace Schema

mutual

def violations : Schema → Datum C δ → List Violation
  | integer lo hi => fun d =>
    violated .type (.word "integer") (!isIntegral d)
      ++ violated .minimum (.number lo) (isBelow lo d)
      ++ violated .maximum (.number hi) (isAbove hi d)
  | null => fun d => violated .type (.word "null") (!isNull d)
  | tuple ss => fun d =>
    match arrayItems? d with
    | none => violated .type (.word "array") true
    | some xs =>
      violated .minItems (.number ss.length) (xs.length < ss.length)
        ++ violated .maxItems (.number ss.length) (ss.length < xs.length)
        ++ violationsAt 0 ss xs
  | sequence s => fun d =>
    match arrayItems? d with
    | none => violated .type (.word "array") true
    | some xs => itemViolations (violations s) xs

/-- The violations in the items of an array, from position `i` on, each held against the schema of
its position. -/
def violationsAt (i : Nat) : List Schema → List (Datum C δ) → List Violation
  | [] => fun _ => []
  | s :: ss => fun xs =>
    match xs with
    | [] => []
    | x :: xs =>
      (violations s x).map (Violation.under [i] [.key "prefixItems", .index i])
        ++ violationsAt (i + 1) ss xs

end

def accepts (s : Schema) (d : Datum C δ) : Bool := (s.violations d).isEmpty

def validate (s : Schema) (d : Datum C δ) : Except Fault Unit :=
  match s.violations d with
  | [] => .ok ()
  | v :: _ => .error (.contract v)

end Schema

end DiffAlgebra.Contract
