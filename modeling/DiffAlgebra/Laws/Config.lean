import DiffAlgebra.Datum.Order

/-!
# The configuration of law checks

Which laws are checked beyond the unconditional ones. Fields are given as data and read leniently:
switches may be spelled as Booleans, as the numbers one and zero, or as one of a few words, and the
multiplicands may be any sequence but text and bytes. A configuration is a record of a validation
library, and this lenient reading of its fields is what the library documents.
-/

namespace DiffAlgebra

namespace Datum

variable {C : Catalog} {δ : Type}

def truthy [DiffView δ C] : Datum C δ → Bool
  | null => false
  | bool b => b
  | int n => n ≠ 0
  | real x => x.toInt? ≠ some 0
  | text s => !s.isEmpty
  | bytes bs => !bs.isEmpty
  | list _ xs | tuple _ xs => !xs.isEmpty
  | record _ fs => !fs.isEmpty
  | diff d =>
    match (DiffView.value d : Diff C) with
    | .tuple _ xs | .vec _ xs => !xs.isEmpty
    | .int _ _ | .present | .custom _ _ => true
  | type _ | reference _ _ | config _ _ _ _ | violation _ _ | report _ _ | mismatch _ _ => true

end Datum

structure LawConfig (C : Catalog) (δ : Type) where
  commutativity : Bool := true
  purity : Bool := true
  /-- Second operands for the check that multiplication changes nothing. -/
  multiplicands : List (Datum C δ) := []

namespace LawConfig

variable {C : Catalog} {δ : Type}

def trueWords : List String := ["1", "on", "t", "true", "y", "yes"]

def falseWords : List String := ["0", "off", "f", "false", "n", "no"]

def wordSwitch (s : String) : Except Fault Bool :=
  let w := s.map Char.toLower
  if trueWords.contains w then .ok true
  else if falseWords.contains w then .ok false
  else .error .badConfig

def numberSwitch (n : Int) : Except Fault Bool :=
  if n = 1 then .ok true else if n = 0 then .ok false else .error .badConfig

def switch [DiffView δ C] : Datum C δ → Except Fault Bool
  | .bool b => .ok b
  | .text s => wordSwitch s
  | .bytes bs => wordSwitch (String.ofList (bs.map fun b => Char.ofNat b.toNat))
  | .real x =>
    match x.toInt? with
    | some n => numberSwitch n
    | none => .error .badConfig
  | x =>
    match x.toInteger with
    | .ok n => numberSwitch n
    | .error _ => .error .badConfig

def sequence [DiffView δ C] : Datum C δ → Except Fault (List (Datum C δ))
  | .text _ | .bytes _ | .record _ _ => .error .badConfig
  | x =>
    match x.items with
    | .ok xs => .ok xs
    | .error _ => .error .badConfig

def field {α : Type} (fields : List (String × Datum C δ)) (name : String) (default : α)
    (read : Datum C δ → Except Fault α) : Except Fault α :=
  match Datum.lookupField name fields with
  | some x => read x
  | none => .ok default

/-- Reads a configuration; fields of other names are left out. -/
def ofFields [DiffView δ C] (fields : List (String × Datum C δ)) :
    Except Fault (LawConfig C δ) := do
  let c ← field fields "check_commutativity" true switch
  let p ← field fields "check_multiply_purity" true switch
  let xs ← field fields "multiplicands" [] sequence
  .ok ⟨c, p, xs⟩

def toDatum (c : LawConfig C δ) : Datum C δ := .config 0 c.commutativity c.purity c.multiplicands

/-- The configuration that a datum is; what counts as false stands for the default one. -/
def ofDatum [DiffView δ C] (x : Datum C δ) : Except Fault (LawConfig C δ) :=
  match x with
  | .config _ c p xs => .ok ⟨c, p, xs⟩
  | x => if x.truthy then .error .missingMember else .ok {}

end LawConfig

end DiffAlgebra
