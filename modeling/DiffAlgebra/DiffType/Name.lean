import DiffAlgebra.DiffType.Basic
import DiffAlgebra.Text.Quoted

/-!
# Names of types

A type has a short name, which tells a composite type apart from all others by listing its
component types, and a full name, which adds where the type is declared.
-/

namespace DiffAlgebra

def Tier.name : Tier → String
  | semigroup => "Semigroup"
  | monoid => "Monoid"
  | abelian => "Abelian"

def IntGroup.name : IntGroup → String
  | fixedWidth => "FixedWidthInt"
  | signed => "SignedInt"
  | unsigned => "UnsignedInt"
  | wrapping => "WrappingInt"

def declaredIn (part name : String) : String := "difflow.core.difference." ++ part ++ "." ++ name

def IntGroup.path (g : IntGroup) : String :=
  match g with
  | wrapping => declaredIn "wrapping" g.name
  | fixedWidth | signed | unsigned => declaredIn "integers" g.name

/-- The full name of an integer kind. The narrow kinds are declared apart from the standard
ones. -/
def IntKind.path (k : IntKind) : String :=
  match k.width, k.family with
  | .narrow _ _ _, _ => "fixtures." ++ k.name
  | _, .wrapping => declaredIn "wrapping" k.name
  | _, .signed | _, .unsigned => declaredIn "integers" k.name

namespace DiffType

variable {C : Catalog}

mutual

def name : DiffType C → String
  | tier t => t.name
  | anyInt g => g.name
  | int k => k.name
  | present => "Present"
  | custom n => C.label n
  | anyTuple => "DiffTuple"
  | tuple ts => "Tuple[" ++ Text.commaSeparated (names ts) ++ "]"
  | anyVec => "DiffVec"
  | vec t => "Vec[" ++ name t ++ "]"

def names : List (DiffType C) → List String
  | [] => []
  | t :: ts => name t :: names ts

end

def path (t : DiffType C) : String :=
  match t with
  | tier _ => declaredIn "capabilities" t.name
  | anyInt g => g.path
  | int k => k.path
  | present => declaredIn "present" t.name
  | custom n => C.path n
  | anyTuple | tuple _ => declaredIn "tuples" t.name
  | anyVec | vec _ => declaredIn "vector" t.name

theorem names_eq_map (ts : List (DiffType C)) : names ts = ts.map name := by
  induction ts with
  | nil => rfl
  | cons t ts ih => simp [names, ih]

end DiffType

end DiffAlgebra
