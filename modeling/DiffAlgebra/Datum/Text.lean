import DiffAlgebra.Datum.Basic
import DiffAlgebra.DiffType.Reference
import DiffAlgebra.Number.Shortest

/-!
# The text of a datum

How data are written in messages and reports.
-/

namespace DiffAlgebra

def Text.truth (b : Bool) : String := if b then "True" else "False"

def LawViolation.render (v : LawViolation) : String :=
  "LawViolation(law=" ++ Text.quote v.law.name ++ ", type_name=" ++ Text.quote v.typeName
    ++ ", operands=" ++ Text.parenthesised (v.operands.map Text.quote)
    ++ ", details=" ++ Text.quote v.details ++ ")"

def Contract.Violation.render (v : Contract.Violation) : String :=
  "<ValidationError: " ++ Text.quote v.keyword.name ++ ">"

def LawReport.render (r : LawReport) : String :=
  "LawReport(checks_run=" ++ toString r.checksRun ++ ", violations="
    ++ Text.parenthesised (r.violations.map LawViolation.render) ++ ")"

namespace Datum

variable {C : Catalog} {δ : Type}

mutual

def render [DiffView δ C] : Datum C δ → String
  | null => "None"
  | bool b => Text.truth b
  | int n => toString n
  | real x => x.render
  | text s => Text.quote s
  | bytes bs => Text.quoteBytes bs
  | list _ xs => "[" ++ Text.commaSeparated (renderAll xs) ++ "]"
  | tuple _ xs => Text.parenthesised (renderAll xs)
  | record _ fs => "\x7b" ++ Text.commaSeparated (renderFields fs) ++ "\x7d"
  | type c => c.render
  | reference _ t => t.referenceText
  | config _ c p xs =>
    "LawCheckConfig(check_commutativity=" ++ Text.truth c ++ ", check_multiply_purity="
      ++ Text.truth p ++ ", multiplicands=" ++ Text.parenthesised (renderAll xs) ++ ")"
  | violation _ v => v.render
  | report _ r => r.render
  | mismatch _ v => v.render
  | diff d => (DiffView.value d : Diff C).render

def renderAll [DiffView δ C] : List (Datum C δ) → List String
  | [] => []
  | x :: xs => render x :: renderAll xs

def renderFields [DiffView δ C] : List (String × Datum C δ) → List String
  | [] => []
  | (k, x) :: fs => (Text.quote k ++ ": " ++ render x) :: renderFields fs

end

end Datum

end DiffAlgebra
