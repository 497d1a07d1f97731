import DiffAlgebra.DiffType.Class

/-!
# Values of differences

A value carries its own type: an integer its kind, a composite value its component types. A tuple
or a sequence whose component types are left open carries none. Values are plain data; which of
them are one shared object is the matter of objects.
-/

namespace DiffAlgebra

inductive Diff (C : Catalog) where
  | int (k : IntKind) (n : Int)
  | present
  | custom (n : C.Name) (s : C.State)
  | tuple (types : Option (List (DiffType C))) (items : List (Diff C))
  | vec (type : Option (DiffType C)) (items : List (Diff C))

namespace Diff

variable {C : Catalog}

def tupleType : Option (List (DiffType C)) → DiffType C
  | some ts => .tuple ts
  | none => .anyTuple

def vecType : Option (DiffType C) → DiffType C
  | some t => .vec t
  | none => .anyVec

def typeOf : Diff C → DiffType C
  | int k _ => .int k
  | present => .present
  | custom n _ => .custom n
  | tuple ts _ => tupleType ts
  | vec t _ => vecType t

def isA (x : Diff C) (t : DiffType C) : Bool := x.typeOf.isSub t

def parts : Diff C → List (Diff C)
  | tuple _ xs | vec _ xs => xs
  | int _ _ | present | custom _ _ => []

mutual

def beq : Diff C → Diff C → Bool
  | int k m, int l n => k == l && m == n
  | present, present => true
  | custom m s, custom n t => m == n && s == t
  | tuple ts xs, tuple us ys => ts == us && beqAll xs ys
  | vec t xs, vec u ys => t == u && beqAll xs ys
  | _, _ => false

def beqAll : List (Diff C) → List (Diff C) → Bool
  | [], [] => true
  | x :: xs, y :: ys => beq x y && beqAll xs ys
  | _, _ => false

end

mutual

theorem eq_of_beq : (x y : Diff C) → beq x y = true → x = y
  | x, y, h => by
    cases x <;> cases y <;> simp_all [beq]
    · exact eqAll_of_beqAll _ _ h.2
    · exact eqAll_of_beqAll _ _ h.2

theorem eqAll_of_beqAll : (xs ys : List (Diff C)) → beqAll xs ys = true → xs = ys
  | [], [], _ => rfl
  | x :: xs, y :: ys, h => by
    simp only [beqAll, Bool.and_eq_true] at h
    rw [eq_of_beq x y h.1, eqAll_of_beqAll xs ys h.2]
  | [], _ :: _, h => by simp [beqAll] at h
  | _ :: _, [], h => by simp [beqAll] at h

end

mutual

theorem beq_self : (x : Diff C) → beq x x = true
  | tuple _ xs => by simpa [beq] using beqAll_self xs
  | vec _ xs => by simpa [beq] using beqAll_self xs
  | int _ _ | present | custom _ _ => by simp [beq]

theorem beqAll_self : (xs : List (Diff C)) → beqAll xs xs = true
  | [] => rfl
  | x :: xs => by simp [beqAll, beq_self x, beqAll_self xs]

end

/-- Two values are equal if they have one type and equal parts. -/
instance : DecidableEq (Diff C) := fun x y =>
  decidable_of_iff (beq x y = true) ⟨eq_of_beq x y, fun h => h ▸ beq_self x⟩

mutual

/-- Whether adding the value may be left out. A composite value is zero if all its components
are. -/
def isZero : Diff C → Bool
  | int _ n => n == 0
  | present => false
  | custom n s => C.isZero n s
  | tuple _ xs => isZeroAll xs
  | vec _ xs => isZeroAll xs

def isZeroAll : List (Diff C) → Bool
  | [] => true
  | x :: xs => isZero x && isZeroAll xs

end

theorem isZeroAll_eq_all (xs : List (Diff C)) : isZeroAll xs = xs.all isZero := by
  induction xs with
  | nil => rfl
  | cons x xs ih => simp [isZeroAll, ih]

mutual

def render : Diff C → String
  | int k n => k.name ++ "(" ++ toString n ++ ")"
  | present => "Present"
  | custom n s => C.render n s
  | tuple ts xs => (tupleType ts).name ++ "(" ++ Text.commaSeparated (renderAll xs) ++ ")"
  | vec t xs => (vecType t).name ++ "([" ++ Text.commaSeparated (renderAll xs) ++ "])"

def renderAll : List (Diff C) → List String
  | [] => []
  | x :: xs => render x :: renderAll xs

end

theorem renderAll_eq_map (xs : List (Diff C)) : renderAll xs = xs.map render := by
  induction xs with
  | nil => rfl
  | cons x xs ih => simp [renderAll, ih]

mutual

/-- Whether every integer lies in its range, every tuple has its components, each of the component's
type, and every element of a sequence is of the element type. -/
def wellTyped : Diff C → Bool
  | int k n => k.Holds n
  | present | custom _ _ => true
  | tuple (some ts) xs => componentsTyped ts xs
  | tuple none xs => xs.isEmpty
  | vec (some t) xs => elementsTyped t xs
  | vec none xs => allWellTyped xs

def componentsTyped : List (DiffType C) → List (Diff C) → Bool
  | [], [] => true
  | t :: ts, x :: xs => x.isA t && wellTyped x && componentsTyped ts xs
  | _, _ => false

def elementsTyped (t : DiffType C) : List (Diff C) → Bool
  | [] => true
  | x :: xs => x.isA t && wellTyped x && elementsTyped t xs

def allWellTyped : List (Diff C) → Bool
  | [] => true
  | x :: xs => wellTyped x && allWellTyped xs

end

/-- The values of a type whose components are, all the way down, of exactly the declared types and
not of special cases of them. -/
inductive Exact : DiffType C → Diff C → Prop where
  | int {k : IntKind} {n : Int} (holds : k.Holds n) : Exact (.int k) (.int k n)
  | present : Exact .present .present
  | custom (n : C.Name) (s : C.State) : Exact (.custom n) (.custom n s)
  | tuple {ts : List (DiffType C)} {xs : List (Diff C)} (length_eq : ts.length = xs.length)
      (components : ∀ p ∈ ts.zip xs, Exact p.1 p.2) : Exact (.tuple ts) (.tuple (some ts) xs)
  | vec {t : DiffType C} {xs : List (Diff C)} (elements : ∀ x ∈ xs, Exact t x) :
      Exact (.vec t) (.vec (some t) xs)

theorem Exact.typeOf_eq {t : DiffType C} {x : Diff C} (h : Exact t x) : x.typeOf = t := by
  cases h <;> rfl

end Diff

end DiffAlgebra
