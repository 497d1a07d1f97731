import DiffAlgebra.Fault

/-!
# Catalogs of custom leaf types

The library is parametric in the leaf types that its users bring along. A catalog names them, says
which capabilities each declares, and gives their operations. Nothing is assumed about the
operations: a custom type may break every law that its declared capabilities stand for, and its
multiplication may change the operands.
-/

namespace DiffAlgebra

/-- Additive capability: addition, addition with a zero, or addition with a zero and negation. -/
inductive Tier where
  | semigroup
  | monoid
  | abelian
  deriving DecidableEq, Repr

namespace Tier

def rank : Tier → Nat
  | semigroup => 0
  | monoid => 1
  | abelian => 2

/-- Whether a type of tier `s` has everything that tier `t` asks for. -/
def provides (s t : Tier) : Bool := t.rank ≤ s.rank

/-- The stronger tier that both provide. -/
def meet (s t : Tier) : Tier := if s.provides t then t else s

@[simp] theorem meet_abelian (t : Tier) : t.meet abelian = t := by cases t <;> rfl

@[simp] theorem abelian_meet (t : Tier) : abelian.meet t = t := by cases t <;> rfl

/-- Both tiers provide what the meet provides, and nothing more is provided by both. -/
theorem provides_meet (r s t : Tier) :
    (r.meet s).provides t = (r.provides t && s.provides t) := by
  cases r <;> cases s <;> cases t <;> rfl

end Tier

/-- What a custom type sees of a value that it is built from or multiplied with. -/
inductive Argument where
  | integer (n : Int)
  | text (s : String)
  | list (items : List Argument)
  | other

inductive ProductOutput where
  | number (n : Int)
  /-- A copy of the operand. A copied list has the items of the operand. -/
  | operand

/-- The result of a custom multiplication, with its effects on the two operands. -/
structure Product (State : Type) where
  /-- The receiver's state afterwards. -/
  receiver : State
  /-- Numbers put at the end of the operand, if it is a list. -/
  appended : List Int
  output : ProductOutput

/-- Custom leaf types. -/
structure Catalog where
  Name : Type
  State : Type
  [decEqName : DecidableEq Name]
  [decEqState : DecidableEq State]
  /-- Short name. -/
  label : Name → String
  /-- Full name. -/
  path : Name → String
  /-- The types that a type is a special case of, itself left out. -/
  ancestors : Name → List Name
  tier : Name → Tier
  multiplies : Name → Bool
  commutative : Name → Bool
  /-- The state of a value built from an argument or from none. -/
  build : Name → Option Argument → Except Fault State
  /-- The state that a type calls its zero, if its tier asks for one. -/
  zero : Name → State
  isZero : Name → State → Bool
  add : Name → State → State → Except Fault State
  /-- Negation, if the tier asks for it. -/
  negate : Name → State → Except Fault State
  multiply : Name → State → Argument → Except Fault (Product State)
  render : Name → State → String

instance (C : Catalog) : DecidableEq C.Name := C.decEqName

instance (C : Catalog) : DecidableEq C.State := C.decEqState

def Catalog.isSub (C : Catalog) (n m : C.Name) : Bool := n == m || (C.ancestors n).contains m

@[simp] theorem Catalog.isSub_self (C : Catalog) (n : C.Name) : C.isSub n n = true := by
  simp [isSub]

end DiffAlgebra
