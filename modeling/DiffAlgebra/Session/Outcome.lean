import DiffAlgebra.Object.Copy

/-!
# Outcomes

What an operation gives back and all that it leaves behind: changes in place, lines of the log, a
schema that is given out, and the labels it has handed out.
-/

namespace DiffAlgebra

/-- Schemas that have been given out, each with its type. -/
abbrev Schemas (C : Catalog) := List (DiffType C × Value C)

/-- The result of an operation and all that it leaves behind. -/
structure Outcome (C : Catalog) where
  result : Except Fault (Value C)
  /-- Changes in place, also those made before a failure. -/
  writes : List (Write C) := []
  log : List LogLine := []
  /-- The schema that the result is made of. -/
  schema : Option (DiffType C × Value C) := none
  next : Nat

namespace Outcome

variable {C : Catalog}

def shown (next : Nat) (r : Except Fault (Value C)) : Outcome C := { result := r, next := next }

def failed (next : Nat) (f : Fault) : Outcome C := shown next (.error f)

def made (next : Nat) (r : Except Fault (Value C × Nat)) : Outcome C :=
  match r with
  | .ok (v, next) => shown next (.ok v)
  | .error f => failed next f

def built (next : Nat) (r : Except Fault (Diff C)) : Outcome C :=
  made next (r.map fun x =>
    let (o, next) := Object.ofDiff x next
    (.diff o, next))

def listed (next : Nat) (r : Except Fault (List (Value C))) : Outcome C :=
  shown next (r.map (.list 0))

theorem result_built (next : Nat) (r : Except Fault (Diff C)) :
    (built next r).result = r.map fun x => .diff (Object.ofDiff x next).1 := by
  cases r <;> rfl

/-- The outcome with new labels wherever its result has none yet. -/
def settle (o : Outcome C) : Outcome C :=
  match o.result with
  | .ok v =>
    let (v, next) := v.settle o.next
    { o with result := .ok v, next := next }
  | .error _ => o

end Outcome

end DiffAlgebra
