import DiffAlgebra.Catalog

/-!
# Types of differences

The leaves are the integer kinds, the presence marker and the custom types of a catalog; tuples and
sequences compose them. Beside these stand the open types, which only say what kind of type a value
belongs to: the capability tiers, the groups of integer kinds, and tuples and sequences at large.
-/

namespace DiffAlgebra

inductive IntGroup where
  | fixedWidth
  | signed
  | unsigned
  | wrapping
  deriving DecidableEq, Repr

/-- Whether a family belongs to a group. Wrapping integers are signed ones. -/
def Family.isIn : Family → IntGroup → Bool
  | _, .fixedWidth => true
  | .signed, .signed | .wrapping, .signed => true
  | .unsigned, .unsigned => true
  | .wrapping, .wrapping => true
  | _, _ => false

def IntGroup.isSub : IntGroup → IntGroup → Bool
  | _, .fixedWidth => true
  | .signed, .signed | .wrapping, .signed => true
  | .unsigned, .unsigned => true
  | .wrapping, .wrapping => true
  | _, _ => false

/-- A type of differences over a catalog of custom leaf types. -/
inductive DiffType (C : Catalog) where
  /-- All types of a tier. -/
  | tier (t : Tier)
  /-- All integer kinds of a group. -/
  | anyInt (g : IntGroup)
  | int (k : IntKind)
  | present
  | custom (n : C.Name)
  /-- All tuples. -/
  | anyTuple
  | tuple (components : List (DiffType C))
  /-- All sequences. -/
  | anyVec
  | vec (element : DiffType C)

namespace DiffType

variable {C : Catalog}

mutual

def beq : DiffType C → DiffType C → Bool
  | tier s, tier t => s == t
  | anyInt g, anyInt h => g == h
  | int k, int l => k == l
  | present, present => true
  | custom m, custom n => m == n
  | anyTuple, anyTuple => true
  | tuple ss, tuple ts => beqAll ss ts
  | anyVec, anyVec => true
  | vec s, vec t => beq s t
  | _, _ => false

def beqAll : List (DiffType C) → List (DiffType C) → Bool
  | [], [] => true
  | s :: ss, t :: ts => beq s t && beqAll ss ts
  | _, _ => false

end

mutual

theorem eq_of_beq : (s t : DiffType C) → beq s t = true → s = t
  | s, t, h => by
    cases s <;> cases t <;> simp_all [beq]
    · exact eqAll_of_beqAll _ _ h
    · exact eq_of_beq _ _ h

theorem eqAll_of_beqAll : (ss ts : List (DiffType C)) → beqAll ss ts = true → ss = ts
  | [], [], _ => rfl
  | s :: ss, t :: ts, h => by
    simp only [beqAll, Bool.and_eq_true] at h
    rw [eq_of_beq s t h.1, eqAll_of_beqAll ss ts h.2]
  | [], _ :: _, h => by simp [beqAll] at h
  | _ :: _, [], h => by simp [beqAll] at h

end

mutual

theorem beq_self : (t : DiffType C) → beq t t = true
  | tuple ts => by simpa [beq] using beqAll_self ts
  | vec t => by simpa [beq] using beq_self t
  | tier _ | anyInt _ | int _ | present | custom _ | anyTuple | anyVec => by simp [beq]

theorem beqAll_self : (ts : List (DiffType C)) → beqAll ts ts = true
  | [] => rfl
  | t :: ts => by simp [beqAll, beq_self t, beqAll_self ts]

end

instance : DecidableEq (DiffType C) := fun s t =>
  decidable_of_iff (beq s t = true) ⟨eq_of_beq s t, fun h => h ▸ beq_self s⟩

mutual

/-- Additive capability. A composite type provides what all its leaves provide; without leaves,
that is everything. -/
def tierOf : DiffType C → Tier
  | tier t => t
  | anyInt .signed | anyInt .wrapping => .abelian
  | anyInt .fixedWidth | anyInt .unsigned => .monoid
  | int k => if k.isSigned then .abelian else .monoid
  | present | anyTuple | anyVec => .semigroup
  | custom n => C.tier n
  | tuple ts => tierAll ts
  | vec t => tierOf t

def tierAll : List (DiffType C) → Tier
  | [] => .abelian
  | t :: ts => (tierOf t).meet (tierAll ts)

end

mutual

def multiplies : DiffType C → Bool
  | tier _ | anyTuple | anyVec => false
  | anyInt _ | int _ | present => true
  | custom n => C.multiplies n
  | tuple ts => multipliesAll ts
  | vec t => multiplies t

def multipliesAll : List (DiffType C) → Bool
  | [] => true
  | t :: ts => multiplies t && multipliesAll ts

end

mutual

def commutative : DiffType C → Bool
  | tier _ | anyInt _ | int _ | present | anyTuple | anyVec => true
  | custom n => C.commutative n
  | tuple ts => commutativeAll ts
  | vec t => commutative t

def commutativeAll : List (DiffType C) → Bool
  | [] => true
  | t :: ts => commutative t && commutativeAll ts

end

def isMonoid (t : DiffType C) : Bool := t.tierOf.provides .monoid

def isAbelian (t : DiffType C) : Bool := t.tierOf.provides .abelian

@[simp] theorem tierAll_nil : tierAll ([] : List (DiffType C)) = .abelian := rfl

@[simp] theorem tierAll_cons (t : DiffType C) (ts : List (DiffType C)) :
    tierAll (t :: ts) = t.tierOf.meet (tierAll ts) := rfl

def isSub : DiffType C → DiffType C → Bool
  | s, tier t => s.tierOf.provides t
  | anyInt h, anyInt g => h.isSub g
  | int k, anyInt g => k.family.isIn g
  | int k, int l => k.isSub l
  | present, present => true
  | custom n, custom m => C.isSub n m
  | anyTuple, anyTuple | tuple _, anyTuple => true
  | tuple ss, tuple ts => beqAll ss ts
  | anyVec, anyVec | vec _, anyVec => true
  | vec s, vec t => beq s t
  | _, _ => false

def isInt (t : DiffType C) : Bool := t.isSub (anyInt .fixedWidth)

def isTuple (t : DiffType C) : Bool := t.isSub anyTuple

def isVec (t : DiffType C) : Bool := t.isSub anyVec

@[simp] theorem isSub_self (t : DiffType C) : t.isSub t = true := by
  cases t with
  | tier t => cases t <;> rfl
  | anyInt g => cases g <;> rfl
  | tuple ts => exact beqAll_self ts
  | vec t => exact beq_self t
  | int _ | custom _ => simp [isSub]
  | present | anyTuple | anyVec => rfl

/-- Types whose values are composed of integers of the standard kinds and presence markers. -/
inductive Concrete : DiffType C → Prop where
  | int (k : IntKind) : Concrete (.int k)
  | present : Concrete .present
  | tuple {ts : List (DiffType C)} (arity : ts.length ≤ Fault.maxArity)
      (components : ∀ t ∈ ts, Concrete t) : Concrete (.tuple ts)
  | vec {t : DiffType C} (element : Concrete t) : Concrete (.vec t)

end DiffType

end DiffAlgebra
