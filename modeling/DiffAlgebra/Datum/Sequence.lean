import DiffAlgebra.Datum.Order
import DiffAlgebra.Text.Numeral

/-!
# Data as sequences

Access to the items of data by position, by range and by value. Positions count from the end if they
are negative. A range is given by a start, a stop and a step, each of which may be left open.
-/

namespace DiffAlgebra

/-- A range of positions, the bounds and the step being open if they are not given. -/
structure Slice where
  start : Option Int
  stop : Option Int
  step : Option Int
  deriving DecidableEq, Repr

namespace Slice

def clamp (length low high bound : Int) : Int :=
  let b := if bound < 0 then bound + length else bound
  max low (min high b)

def positions (s : Slice) (length : Nat) : List Nat :=
  let n : Int := length
  let step := s.step.getD 1
  if 0 < step then
    let lo := (s.start.map (clamp n 0 n)).getD 0
    let hi := (s.stop.map (clamp n 0 n)).getD n
    let count := ((hi - lo + step - 1) / step).toNat
    (List.range count).map fun (i : Nat) => (lo + step * i).toNat
  else
    let lo := (s.start.map (clamp n (-1) (n - 1))).getD (n - 1)
    let hi := (s.stop.map (clamp n (-1) (n - 1))).getD (-1)
    let count := ((lo - hi - step - 1) / (-step)).toNat
    (List.range count).map fun (i : Nat) => (lo + step * i).toNat

def select {α : Type} (s : Slice) (xs : List α) : List α :=
  (s.positions xs.length).filterMap fun i => xs[i]?

def isWhole (s : Slice) (length : Nat) : Bool :=
  s.step.getD 1 == 1 && s.positions length == List.range length

end Slice

/-- The item at a position, which counts from the end if it is negative. -/
def itemAt {α : Type} (xs : List α) (i : Int) : Except Fault α :=
  let j := if i < 0 then i + xs.length else i
  if j < 0 then .error .outOfBounds
  else
    match xs[j.toNat]? with
    | some x => .ok x
    | none => .error .outOfBounds

def searchStart (length : Nat) (start : Int) : Nat :=
  (if start < 0 then max (length + start) 0 else start).toNat

def searchStop (length : Nat) (stop : Option Int) : Int :=
  match stop with
  | some s => if s < 0 then s + length else s
  | none => length

def positionOf {α : Type} (test : α → Bool) (xs : List α) (start : Int) (stop : Option Int) :
    Except Fault Nat :=
  let first := searchStart xs.length start
  match ((xs.take (searchStop xs.length stop).toNat).drop first).findIdx? test with
  | some i => .ok (first + i)
  | none => .error .absentItem

def runAt? {α : Type} [BEq α] (part : List α) : List α → Option Nat
  | [] => if part.isEmpty then some 0 else none
  | x :: xs => if part.isPrefixOf (x :: xs) then some 0 else (runAt? part xs).map (· + 1)

/-- How often `part` occurs as a run of consecutive members, the first `skip` members left out and
no member counted twice. What is empty occurs at every place. -/
def countRuns {α : Type} [BEq α] (part : List α) : Nat → List α → Nat
  | _, [] => if part.isEmpty then 1 else 0
  | skip + 1, _ :: xs => countRuns part skip xs
  | 0, x :: xs =>
    if part.isPrefixOf (x :: xs) then countRuns part (part.length - 1) xs + 1
    else countRuns part 0 xs

def positionOfRun {α : Type} [BEq α] (part xs : List α) (start : Int) (stop : Option Int) :
    Except Fault Nat :=
  let first := searchStart xs.length start
  let upTo := min (searchStop xs.length stop).toNat xs.length
  if upTo < first then .error .absentItem
  else
    match runAt? part ((xs.take upTo).drop first) with
    | some i => .ok (first + i)
    | none => .error .absentItem

namespace Datum

variable {C : Catalog} {δ : Type} [DiffView δ C]

def length (x : Datum C δ) : Except Fault Nat :=
  match x with
  | record _ fs => .ok fs.length
  | x => do .ok (← x.sequence).length

def reversed (x : Datum C δ) : Except Fault (List (Datum C δ)) :=
  match x with
  | record l fs => do .ok (← (record l fs).items).reverse
  | x => do .ok (← x.sequence).reverse

def bound : Datum C δ → Except Fault (Option Int)
  | null => .ok none
  | x => do .ok (some (← x.toInteger))

/-- A range from its parts: the stop alone, the start and the stop, or both and the step. -/
def slice : List (Datum C δ) → Except Fault Slice
  | [stop] => do .ok ⟨none, ← bound stop, none⟩
  | [start, stop] => do .ok ⟨← bound start, ← bound stop, none⟩
  | [start, stop, step] => do
    let step ← bound step
    if step = some 0 then .error .zeroStep
    else .ok ⟨← bound start, ← bound stop, step⟩
  | _ => .error .badArguments

def item (x i : Datum C δ) : Except Fault (Datum C δ) :=
  match x with
  | record _ fs =>
    match i with
    | text k => match lookupField k fs with
      | some y => .ok y
      | none => .error .unbound
    | i => if i.values.hashable then .error .unbound else .error .notHashable
  | x =>
    match x.sequence with
    | .error _ => .error .badArguments
    | .ok xs => do
      let n ← i.toInteger
      itemAt xs n

def equals (v : Datum C δ) (x : Datum C δ) : Bool := same x.values v.values

def bytePart : Datum C δ → Except Fault (List UInt8)
  | bytes bs => .ok bs
  | v => do
    let n ← v.toInteger
    if 0 ≤ n ∧ n < 256 then .ok [UInt8.ofNat n.toNat] else .error .notByte

def textPart : Datum C δ → Except Fault (List Char)
  | text s => .ok s.toList
  | _ => .error .badArguments

/-- Whether a datum is among the items; in text and bytes whether a part of it is, and in a record
whether a key is. -/
def contains (x v : Datum C δ) : Except Fault Bool :=
  match x with
  | text s => do .ok (runAt? (← v.textPart) s.toList).isSome
  | bytes bs => do .ok (runAt? (← v.bytePart) bs).isSome
  | record _ fs =>
    if v.values.hashable then .ok (fs.any fun f => equals v (text f.1)) else .error .notHashable
  | x =>
    match x.items with
    | .ok xs => .ok (xs.any (equals v))
    | .error _ => .error .badArguments

/-- The items of data that can be searched by value: lists, tuples and sequences. A class of such
data lacks the items, and other data cannot be searched. -/
def searchable (x : Datum C δ) : Except Fault (List (Datum C δ)) :=
  match x with
  | list _ xs | tuple _ xs => .ok xs
  | diff d =>
    match (DiffView.value d : Diff C) with
    | .vec _ _ => .ok ((DiffView.parts d).map diff)
    | _ => .error .missingMember
  | type (.diff .anyVec) | type (.diff (.vec _)) | type (.plain .list) | type (.plain .tuple)
  | type (.plain .text) | type (.plain .bytes) => .error .badArguments
  | _ => .error .missingMember

def count (x v : Datum C δ) : Except Fault Nat :=
  match x with
  | text s => do .ok (countRuns (← v.textPart) 0 s.toList)
  | bytes bs => do .ok (countRuns (← v.bytePart) 0 bs)
  | x => do .ok ((← x.searchable).countP (equals v))

/-- The integer before which a search in a sequence stops, if it stops before the end. A bound that
is no integer is rounded up. -/
def stopBefore (length : Nat) : Number → Option Int
  | .int n => some (searchStop length (some n))
  | .real x =>
    match x.truncate? with
    | some n =>
      let c := if x.gtInt n then n + 1 else n
      some (if x.ltInt 0 then c + length else c)
    | none => if x.ltInt 0 then some 0 else none

/-- The first position of a datum in a sequence of differences. The bounds may be any numbers, but
a start that is no integer is none of the positions, unless it counts from the end beyond the first
of them. A Boolean start that is found is given back as it is. -/
def indexInSequence (v : Datum C δ) (xs : List (Datum C δ)) (start : Datum C δ)
    (stop : Option Number) : Except Fault (Datum C δ) :=
  let upTo := stop.bind (stopBefore xs.length)
  match start.values.number? with
  | some (.int n) => do
    let i ← positionOf (equals v) xs n (upTo.map fun s => max s 0)
    match start with
    | bool b => .ok (if (i : Int) = n then bool b else int i)
    | _ => .ok (int i)
  | some (.real x) =>
    if x.ltInt (-xs.length) then do
      .ok (int (← positionOf (equals v) xs 0 (upTo.map fun s => max s 0)))
    else
      let offset : Int := if x.ltInt 0 then xs.length else 0
      match upTo with
      | some s => if x.ltInt (s - offset) then .error .notInteger else .error .absentItem
      | none => .error .notInteger
  | none => .error .notOrdered

def numberBound : Datum C δ → Except Fault (Option Number)
  | null => .ok none
  | x =>
    match x.values.number? with
    | some n => .ok (some n)
    | none => .error .notOrdered

def searchBounds {α β : Type} (start : Datum C δ → Except Fault α) (default : α)
    (stop : Datum C δ → Except Fault (Option β)) (bounds : List (Datum C δ)) :
    Except Fault (α × Option β) :=
  match bounds with
  | [] => .ok (default, none)
  | [i] => do .ok (← start i, none)
  | [i, j] => do .ok (← start i, ← stop j)
  | _ => .error .badArguments

/-- The first position of a datum among the items, or of a part of text or bytes, within optional
bounds. The bounds in text and bytes may be null, those in lists and tuples may not. -/
def index (x v : Datum C δ) (bounds : List (Datum C δ)) : Except Fault (Datum C δ) :=
  match x with
  | text s => do
    let (i, j) ← searchBounds bound none bound bounds
    let part ← v.textPart
    .ok (int (← positionOfRun part s.toList (i.getD 0) j))
  | bytes bs => do
    let (i, j) ← searchBounds bound none bound bounds
    let part ← v.bytePart
    .ok (int (← positionOfRun part bs (i.getD 0) j))
  | diff _ => do
    let xs ← x.searchable
    let (i, j) ← searchBounds .ok (int 0) numberBound bounds
    indexInSequence v xs i j
  | x => do
    let xs ← x.searchable
    let (i, j) ← searchBounds toInteger 0 (fun y => do .ok (some (← y.toInteger))) bounds
    .ok (int (← positionOf (equals v) xs i j))

def numeral (cs : List Char) : Except Fault Int :=
  match Text.integer? cs with
  | some n => .ok n
  | none => .error .notNumeral

/-- The integer that a datum is converted to: an integer as it is, a real number without its
fraction, and text or bytes by the number they denote. Bytes beyond the first 128 denote nothing. -/
def convertToInteger : Datum C δ → Except Fault Int
  | real x =>
    match x.truncate? with
    | some n => .ok n
    | none => .error .tooWide
  | text s => numeral s.toList
  | bytes bs =>
    if bs.all (·.toNat < 128) then numeral (bs.map fun b => Char.ofNat b.toNat)
    else .error .notNumeral
  | x => x.toInteger

end Datum

end DiffAlgebra
