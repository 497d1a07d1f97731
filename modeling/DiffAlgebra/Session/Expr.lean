import DiffAlgebra.Laws.Config
import DiffAlgebra.Session.Access
import DiffAlgebra.Session.Exchange

/-!
# Expressions

Operands are written as expressions over the variables of a session. The parts of an expression are
evaluated from left to right. Every datum that an expression builds is a new one, and an object gets
its labels at once; a variable stands for the datum it is bound to, which is not copied.
-/

namespace DiffAlgebra

inductive Expr (C : Catalog) where
  | null
  | bool (b : Bool)
  | int (n : Int)
  | real (x : Binary64)
  | text (s : String)
  | bytes (bs : List UInt8)
  | list (items : List (Expr C))
  | tuple (items : List (Expr C))
  | record (fields : List (String × Expr C))
  | type (c : Class C)
  | tupleType (components : List (Expr C))
  | vecType (element : Expr C)
  | new (type : Expr C) (arguments : List (Expr C))
  | var (name : String)
  | item (whole position : Expr C)
  | config (fields : List (String × Expr C))
  /-- What stands for no datum, for the given cause. -/
  | invalid (cause : Fault)

abbrev Bindings (C : Catalog) := List (String × Value C)

namespace Bindings

variable {C : Catalog}

def get? (b : Bindings C) (name : String) : Option (Value C) :=
  (b.find? (·.1 == name)).map (·.2)

def set : Bindings C → String → Value C → Bindings C
  | [], name, v => [(name, v)]
  | (n, w) :: b, name, v => if n == name then (n, v) :: b else (n, w) :: set b name v

end Bindings

/-- Fields with each key once, at its first place and with its last datum. -/
def Datum.dedupeFields {C : Catalog} (fields : List (String × Value C)) :
    List (String × Value C) :=
  fields.foldl (fun b f => Bindings.set b f.1 f.2) []

namespace Class

variable {C : Catalog}

def convert (p : PlainType) (args : List (Value C)) : Except Fault (Value C) :=
  match p, args with
  | .int, [] => .ok (.int 0)
  | .int, [x] => do .ok (.int (← x.convertToInteger))
  | .bool, [] => .ok (.bool false)
  | .bool, [x] => .ok (.bool x.truthy)
  | .text, [] => .ok (.text "")
  | .text, [.text s] => .ok (.text s)
  | .text, [x] => .ok (.text x.render)
  | .list, [] => .ok (.list 0 [])
  | .list, [x] => do .ok (.list 0 (← x.items))
  | .config, [] => .ok (.config 0 true true [])
  | .report, [] => .ok (.report 0 ⟨0, []⟩)
  | .violation, [] => .error .badConfig
  | _, _ => .error .badArguments

def call (c : Class C) (args : List (Value C)) (next : Nat) : Except Fault (Value C × Nat) :=
  match c with
  | diff t => do
    let d ← Draft.construct t args
    let (o, next) := Object.ofDraft d next
    .ok (.diff o, next)
  | isZero | multiply => .error .abstractType
  | plain p => do .ok (← convert p args, next)

end Class

namespace Expr

variable {C : Catalog}

/-- Whether an expression writes out an atom of its own. Small integers, bytes and characters one by
one, and what is empty are the same wherever they are written. -/
def makesAtom : Expr C → Bool
  | int n => decide (n < -5) || decide (256 < n)
  | real _ => true
  | text s => 1 < s.length || s.toList.any fun c : Char => 256 ≤ c.toNat
  | bytes bs => 1 < bs.length
  | _ => false

mutual

def eval (b : Bindings C) : Expr C → Nat → Except Fault (Value C × Nat)
  | invalid f => fun _ => .error f
  | null => fun next => .ok (.null, next)
  | bool v => fun next => .ok (.bool v, next)
  | int n => fun next => .ok (.int n, next)
  | real x => fun next => .ok (.real x, next)
  | text s => fun next => .ok (.text s, next)
  | bytes bs => fun next => .ok (.bytes bs, next)
  | list es => fun next => do
    let (xs, next) ← evalAll b es next
    .ok (.list 0 xs, next)
  | tuple es => fun next => do
    let (xs, next) ← evalAll b es next
    .ok (.tuple 0 xs, next)
  | record fs => fun next => do
    let (gs, next) ← evalFields b fs next
    .ok (.record 0 (Datum.dedupeFields gs), next)
  | type c => fun next => .ok (.type c, next)
  | tupleType es => fun next => do
    let (xs, next) ← evalAll b es next
    .ok (← Session.tupleType xs, next)
  | vecType e => fun next => do
    let (x, next) ← eval b e next
    .ok (← Session.vecType x, next)
  | new e es => fun next => do
    let (c, next) ← eval b e next
    let (args, next) ← evalAll b es next
    match c with
    | .type c => c.call args next
    | _ => .error .badArguments
  | var name => fun next =>
    match b.get? name with
    | some v => .ok (v, next)
    | none => .error .unbound
  | item e i => fun next => do
    let (x, next) ← eval b e next
    let (p, next) ← eval b i next
    .ok (← x.item p, next)
  | config fs => fun next => do
    let (gs, next) ← evalFields b fs next
    let c ← LawConfig.ofFields (Datum.dedupeFields gs)
    .ok (c.toDatum, next)

def evalAll (b : Bindings C) : List (Expr C) → Nat → Except Fault (List (Value C) × Nat)
  | [] => fun next => .ok ([], next)
  | e :: es => fun next => do
    let (x, next) ← eval b e next
    let (xs, next) ← evalAll b es next
    .ok (x :: xs, next)

def evalFields (b : Bindings C) :
    List (String × Expr C) → Nat → Except Fault (List (String × Value C) × Nat)
  | [] => fun next => .ok ([], next)
  | (k, e) :: fs => fun next => do
    let (x, next) ← eval b e next
    let (gs, next) ← evalFields b fs next
    .ok ((k, x) :: gs, next)

end

end Expr

end DiffAlgebra
