import DiffAlgebra.Proofs.Sharing.Results
import DiffAlgebra.Proofs.Values
import DiffAlgebra.Session.Expr
import Mathlib.Data.Int.ModEq

/-!
# Wrapping integers are residues

A wrapping kind stores the one value of its range that agrees with the exact result modulo the
number of its values. Residues may be taken at every step or once at the end, so an expression comes
to the residue of its value in the integers, whatever the order and the form of its operands. A
trapping kind computes that value itself, or overflows.
-/

namespace DiffAlgebra

namespace IntKind

variable {k : IntKind} {m n : Int}

theorem cardinality_eq_two_pow (k : IntKind) : (k.cardinality : Int) = 2 ^ k.bits := by
  simp [cardinality]

theorem wrap_modEq (k : IntKind) (n : Int) : k.wrap n ≡ n [ZMOD k.cardinality] := by
  have h := (Int.mod_modEq (n - k.min) k.cardinality).add_right k.min
  rwa [Int.sub_add_cancel] at h

/-- Wrapping tells apart what differs modulo the number of values, and nothing else. -/
theorem wrap_eq_wrap_iff : k.wrap m = k.wrap n ↔ m ≡ n [ZMOD k.cardinality] := by
  constructor
  · intro h
    calc m ≡ k.wrap m [ZMOD k.cardinality] := (k.wrap_modEq m).symm
      _ = k.wrap n := h
      _ ≡ n [ZMOD k.cardinality] := k.wrap_modEq n
  · intro h
    exact congrArg (· + k.min) (h.sub_right k.min)

/-- A residue has one representative in the range. -/
theorem eq_wrap_of_modEq (hm : k.Holds m) (h : m ≡ n [ZMOD k.cardinality]) : m = k.wrap n :=
  (wrap_of_holds hm).symm.trans (wrap_eq_wrap_iff.mpr h)

theorem fit_wrapping {op : ArithOp} (hk : k.family = .wrapping) : k.fit op n = .ok (k.wrap n) := by
  simp [fit, hk]

private theorem fit_trapping {op : ArithOp} {r : Int} (hk : k.family ≠ .wrapping)
    (h : k.fit op n = .ok r) : r = n := by
  unfold fit at h
  split at h
  · contradiction
  all_goals
    split at h <;> cases h
    rfl

end IntKind

/-- Arithmetic with values of an integer kind. The right operand of a sum or a product is a value of
the kind or a plain integer. -/
inductive Arith where
  | new (n : Int)
  | plus (e f : Arith)
  | plusRaw (e : Arith) (n : Int)
  | negate (e : Arith)
  | times (e f : Arith)
  | timesRaw (e : Arith) (n : Int)

namespace Arith

variable {C : Catalog}

def exact : Arith → Int
  | new n => n
  | plus e f => e.exact + f.exact
  | plusRaw e n => e.exact + n
  | negate e => -e.exact
  | times e f => e.exact * f.exact
  | timesRaw e n => e.exact * n

def updated (x : Object C) (out : Outcome C) : Except Fault (Object C × Nat) := do
  let _ ← out.result
  .ok (x.writes out.writes, out.next)

def given (out : Outcome C) : Except Fault (Object C × Nat) := do
  let x ← (← out.result).receiver Class.isDiff
  .ok (x, out.next)

/-- Evaluates an expression with values of a kind. Each value is an object of its own, which sums
and negations change in place. -/
def eval (k : IntKind) : Arith → Nat → Except Fault (Object C × Nat)
  | new n => fun next => do
    let (v, next) ← (Class.diff (.int k)).call [.int n] next
    given (.shown next (.ok v))
  | plus e f => fun next => do
    let (x, next) ← eval k e next
    let (y, next) ← eval k f next
    updated x (Session.plusEquals (.diff x) (.diff y) next)
  | plusRaw e n => fun next => do
    let (x, next) ← eval k e next
    updated x (Session.plusEquals (.diff x) (.int n) next)
  | negate e => fun next => do
    let (x, next) ← eval k e next
    updated x (Session.negate (.diff x) next)
  | times e f => fun next => do
    let (x, next) ← eval k e next
    let (y, next) ← eval k f next
    given (Session.multiply (.diff x) (.diff y) next)
  | timesRaw e n => fun next => do
    let (x, next) ← eval k e next
    given (Session.multiply (.diff x) (.int n) next)

def value (C : Catalog) (k : IntKind) (e : Arith) (next : Nat) : Except Fault (Diff C) :=
  (e.eval k next).map fun p => p.1.value

def compute (k : IntKind) : Arith → Except Fault Int
  | new n => k.ofInt n
  | plus e f => do k.add (← compute k e) (← compute k f)
  | plusRaw e n => do
    let m ← compute k e
    k.add m (← k.ofInt n)
  | negate e => do k.neg (← compute k e)
  | times e f => do k.mul (← compute k e) (← compute k f)
  | timesRaw e n => do
    let m ← compute k e
    k.mul m (← k.ofInt n)

/-- From `next` on, an evaluation comes to an object with the given integer, or fails as that does.
-/
def ComesTo (k : IntKind) (r : Except Fault Int) (next : Nat)
    (o : Except Fault (Object C × Nat)) : Prop :=
  (∃ f, r = .error f ∧ o = .error f) ∨
  ∃ m l last, r = .ok m ∧ o = .ok (.int l k m, last) ∧ l < last ∧ next ≤ last

variable {k : IntKind} {l next : Nat} {m n : Int}

theorem ComesTo.bind {r : Except Fault Int} {o : Except Fault (Object C × Nat)}
    {g : Int → Except Fault Int} {h : Object C × Nat → Except Fault (Object C × Nat)}
    (ho : ComesTo k r next o)
    (hgh : ∀ m l last, l < last → next ≤ last → ComesTo k (g m) last (h (.int l k m, last))) :
    ComesTo k (r >>= g) next (o >>= h) := by
  rcases ho with ⟨f, rfl, rfl⟩ | ⟨m, l, last, rfl, rfl, hl, hle⟩
  · exact Or.inl ⟨f, rfl, rfl⟩
  · rcases hgh m l last hl hle with hfail | ⟨n, k, final, hn, hk, hlk, hle'⟩
    · exact Or.inl hfail
    · exact Or.inr ⟨n, k, final, hn, hk, hlk, hle.trans hle'⟩

theorem comesTo_updated {r : Except Fault Int} {u : UpdateM C Unit} (hl : l < next)
    (h : Object.Renews (some l) (r.map (.int k)) u ⟨[], next⟩) :
    ComesTo k r next (updated (.int l k m) (Session.inPlace u (fun _ => .null) next)) := by
  rcases h with ⟨f, t, hf, hrun, -⟩ | ⟨z, new, t, hz, hnew, hext, hrun⟩
  · exact Or.inl ⟨f, map_eq_error.mp hf, by simp [updated, Session.inPlace, hrun]⟩
  · obtain ⟨n, rfl, rfl⟩ := map_eq_ok.mp hz
    have hobject : new = .int l k n := by
      have hlabel := hnew.label_eq
      have hvalue := hnew.value_eq
      cases new <;> simp_all [Object.label?, Object.value]
    have hwrites : (Object.int l k m).writes ((t.changes ++ [new]).map .object) = .int l k n := by
      rw [Object.writes_object, Object.after_concat hnew.label_eq rfl, hobject]
    have hle : next ≤ t.next := hext.le
    refine Or.inr ⟨n, l, t.next, rfl, ?_, hl.trans_le hle, hle⟩
    simpa [updated, Session.inPlace, hrun] using hwrites

theorem comesTo_plusEquals {v : Value C} (hl : l < next)
    (hv : Progress.Settled ⟨[], next⟩ v.nodes) {r : Except Fault Int}
    (hr : (Diff.int k m).plus v.values = r.map (Diff.int k)) :
    ComesTo k r next (updated (.int l k m) (Session.plusEquals (.diff (.int l k m)) v next)) := by
  have h := (Object.int l k m).renews_plusEquals (Progress.valid_start next) hv
  exact comesTo_updated hl (hr ▸ h)

private theorem plus_int (k : IntKind) (m n : Int) :
    (Diff.int k m : Diff C).plus (.diff (.int k n)) = (k.add m n).map (Diff.int k) := by
  have hcoerce : Diff.coerce (.int k) (.diff (.int k n)) = .ok (.int k n : Diff C) :=
    Diff.coerce_of_isA (DiffType.isSub_self _)
  simp only [Diff.plus, Diff.typeOf, hcoerce, ok_bind, Diff.add]
  cases k.add m n <;> rfl

private theorem plus_int_raw (k : IntKind) (m n : Int) :
    (Diff.int k m : Diff C).plus (.int n) =
      (k.ofInt n >>= fun a => k.add m a).map (Diff.int k) := by
  have hcoerce : Diff.coerce (.int k) (.int n) = (k.ofInt n).map (Diff.int k : Int → Diff C) := by
    simp only [Diff.coerce, Draft.coerce, Draft.keepOr, Draft.refuse, Draft.ofInteger,
      Datum.toInteger, ok_bind]
    cases k.ofInt n <;> rfl
  simp only [Diff.plus, Diff.typeOf, hcoerce]
  cases k.ofInt n with
  | error f => rfl
  | ok a =>
    simp only [ok_map, ok_bind, Diff.add]
    cases k.add m a <;> rfl

theorem comesTo_multiply (v : Value C) :
    ComesTo k (Object.productInt k m v) next
      (given (Session.multiply (.diff (.int l k m)) v next)) := by
  cases hp : Object.productInt k m v with
  | error f =>
    refine Or.inl ⟨f, rfl, ?_⟩
    simp [given, Session.multiply, Datum.receiver, Object.multiply_int_of_error hp]
  | ok p =>
    refine Or.inr ⟨p, next, next + 1, rfl, ?_, Nat.lt_succ_self _, Nat.le_succ _⟩
    simp [given, Session.multiply, Datum.receiver, Object.multiply_int_of_ok hp]

private theorem productInt_diff (k : IntKind) (m n : Int) (l : Nat) :
    Object.productInt k m (.diff (.int l k n) : Value C) = k.mul m n := by
  have hcoerce : Draft.coerce (.int k) (.diff (.int l k n) : Value C) = .ok (.given (.int l k n)) := by
    simp [Draft.coerce, Draft.keepOr, DiffView.value, Object.value, Diff.isA, Diff.typeOf]
  simp [Object.productInt, hcoerce, Draft.value, DiffView.value, Object.value]

private theorem productInt_raw (k : IntKind) (m n : Int) :
    Object.productInt k m (.int n : Value C) = k.ofInt n >>= fun a => k.mul m a := by
  simp only [Object.productInt, Draft.coerce, Draft.keepOr, Draft.refuse, Draft.ofInteger,
    Datum.toInteger, ok_bind]
  cases k.ofInt n <;> rfl

/-- Evaluating an expression with objects comes to what is computed with integers. -/
theorem comesTo_eval (k : IntKind) (e : Arith) (next : Nat) :
    ComesTo k (e.compute k) next (e.eval k next : Except Fault (Object C × Nat)) := by
  have hsettled {l last : Nat} (n : Int) (h : l < last) :
      Progress.Settled ⟨[], last⟩ (Object.int l k n : Object C).nodes := by
    refine ⟨fun hy hl => ?_, fun _ _ hc => absurd hc List.not_mem_nil⟩
    obtain rfl := List.mem_singleton.mp hy
    cases hl
    exact h
  have hplain {last : Nat} : Progress.Settled ⟨[], last⟩ ([] : List (Object C)) :=
    ⟨fun hy => absurd hy List.not_mem_nil, fun hy => absurd hy List.not_mem_nil⟩
  induction e generalizing next with
  | new n =>
    have hcall : (Class.diff (.int k)).call [.int n] next =
        (k.ofInt n).map fun m => ((.diff (.int next k m), next + 1) : Value C × Nat) := by
      simp only [Class.call, Draft.construct, Draft.ofInteger, Datum.toInteger, ok_bind]
      cases k.ofInt n <;> rfl
    simp only [eval, compute, hcall]
    cases k.ofInt n with
    | error f => exact Or.inl ⟨f, rfl, rfl⟩
    | ok m => exact Or.inr ⟨m, next, next + 1, rfl, rfl, Nat.lt_succ_self _, Nat.le_succ _⟩
  | plus e f he hf =>
    refine (he next).bind fun m l last hl _ => (hf last).bind fun n j final hj hle => ?_
    exact comesTo_plusEquals (hl.trans_le hle) (hsettled n hj) (plus_int k m n)
  | plusRaw e n he =>
    refine (he next).bind fun m l last hl _ => ?_
    exact comesTo_plusEquals hl hplain (plus_int_raw k m n)
  | negate e he =>
    refine (he next).bind fun m l last hl _ => ?_
    have hneg : (Diff.int k m : Diff C).negate = (k.neg m).map (Diff.int k) := by
      rw [Diff.negate]
      cases k.neg m <;> rfl
    have h := (Object.int l k m : Object C).renews_negate (Progress.valid_start last)
    exact comesTo_updated hl (hneg ▸ h)
  | times e f he hf =>
    refine (he next).bind fun m l last _ _ => (hf last).bind fun n j final _ _ => ?_
    rw [← productInt_diff]
    exact comesTo_multiply _
  | timesRaw e n he =>
    refine (he next).bind fun m l last _ _ => ?_
    rw [← productInt_raw]
    exact comesTo_multiply _

theorem value_eq (k : IntKind) (e : Arith) (next : Nat) :
    e.value C k next = (e.compute k).map (Diff.int k) := by
  unfold value
  rcases comesTo_eval (C := C) k e next with ⟨f, hf, h⟩ | ⟨m, l, last, hm, h, -, -⟩
  · rw [hf, h]
    rfl
  · rw [hm, h]
    rfl

/-- With a wrapping kind, an expression comes to the residue of its value in the integers. -/
theorem compute_wrapping (hk : k.family = .wrapping) (e : Arith) :
    e.compute k = .ok (k.wrap e.exact) := by
  have hnew (n : Int) : k.ofInt n = .ok (k.wrap n) := IntKind.fit_wrapping hk
  have hadd {m n a b : Int} (hm : m ≡ a [ZMOD k.cardinality]) (hn : n ≡ b [ZMOD k.cardinality]) :
      k.add m n = .ok (k.wrap (a + b)) := by
    rw [IntKind.add, IntKind.fit_wrapping hk, IntKind.wrap_eq_wrap_iff.mpr (hm.add hn)]
  have hmul {m n a b : Int} (hm : m ≡ a [ZMOD k.cardinality]) (hn : n ≡ b [ZMOD k.cardinality]) :
      k.mul m n = .ok (k.wrap (a * b)) := by
    rw [IntKind.mul, IntKind.fit_wrapping hk, IntKind.wrap_eq_wrap_iff.mpr (hm.mul hn)]
  have hwrap := k.wrap_modEq
  induction e with
  | new n => exact hnew n
  | plus e f he hf =>
    simp only [compute, he, hf, ok_bind, exact]
    exact hadd (hwrap _) (hwrap _)
  | plusRaw e n he =>
    simp only [compute, he, hnew, ok_bind, exact]
    exact hadd (hwrap _) (hwrap _)
  | negate e he =>
    have hneg : k.neg (k.wrap e.exact) = .ok (k.wrap (-k.wrap e.exact)) := by
      simp [IntKind.neg, hk, IntKind.fit_wrapping]
    rw [compute, he, ok_bind, hneg, exact, IntKind.wrap_eq_wrap_iff.mpr (hwrap _).neg]
  | times e f he hf =>
    simp only [compute, he, hf, ok_bind, exact]
    exact hmul (hwrap _) (hwrap _)
  | timesRaw e n he =>
    simp only [compute, he, hnew, ok_bind, exact]
    exact hmul (hwrap _) (hwrap _)

/-- With a trapping kind, an expression comes to its value in the integers, if it comes to any. -/
theorem compute_trapping (hk : k.family ≠ .wrapping) {e : Arith} (h : e.compute k = .ok m) :
    m = e.exact ∧ k.Holds m := by
  have hfit {op : ArithOp} {n r : Int} (h : k.fit op n = .ok r) : r = n ∧ k.Holds r :=
    ⟨IntKind.fit_trapping hk h, IntKind.holds_of_fit h⟩
  induction e generalizing m with
  | new n => exact hfit h
  | plus e f he hf =>
    obtain ⟨a, ha, h⟩ := bind_eq_ok.mp h
    obtain ⟨b, hb, h⟩ := bind_eq_ok.mp h
    rw [(he ha).1, (hf hb).1] at h
    exact hfit h
  | plusRaw e n he =>
    obtain ⟨a, ha, h⟩ := bind_eq_ok.mp h
    obtain ⟨b, hb, h⟩ := bind_eq_ok.mp h
    rw [(he ha).1, (hfit hb).1] at h
    exact hfit h
  | negate e he =>
    obtain ⟨a, ha, h⟩ := bind_eq_ok.mp h
    rw [(he ha).1] at h
    unfold IntKind.neg at h
    split at h
    · cases h
    · exact hfit h
    · exact hfit h
  | times e f he hf =>
    obtain ⟨a, ha, h⟩ := bind_eq_ok.mp h
    obtain ⟨b, hb, h⟩ := bind_eq_ok.mp h
    rw [(he ha).1, (hf hb).1] at h
    exact hfit h
  | timesRaw e n he =>
    obtain ⟨a, ha, h⟩ := bind_eq_ok.mp h
    obtain ⟨b, hb, h⟩ := bind_eq_ok.mp h
    rw [(he ha).1, (hfit hb).1] at h
    exact hfit h

/-- Wrapping integers are the integers modulo the number of their values. Every expression comes to
the one value of the range that agrees with its value in the integers, so expressions that agree
modulo the number of values come to the same, as do all that differ in the order of evaluation; and
where the trapping kind of the width comes to a value, it comes to the same integer. -/
theorem value_wrapping (C : Catalog) (w : Width) (e f g : Arith) (next next' : Nat) :
    let k : IntKind := ⟨.wrapping, w⟩
    (∃ m, e.value C k next = .ok (.int k m) ∧ k.min ≤ m ∧ m ≤ k.max ∧
      m ≡ e.exact [ZMOD 2 ^ k.bits] ∧
      ∀ n, k.min ≤ n → n ≤ k.max → n ≡ e.exact [ZMOD 2 ^ k.bits] → n = m) ∧
    (e.exact ≡ f.exact [ZMOD 2 ^ k.bits] → e.value C k next = f.value C k next') ∧
    (times e (plus f g)).value C k next = (plus (times e f) (times e g)).value C k next' ∧
    (plus e f).value C k next = (plus f e).value C k next' ∧
    (times e f).value C k next = (times f e).value C k next' ∧
    (plus (plus e f) g).value C k next = (plus e (plus f g)).value C k next' ∧
    (times (times e f) g).value C k next = (times e (times f g)).value C k next' ∧
    ∀ d, e.value C ⟨.signed, w⟩ next = .ok d →
      ∃ m, d = .int ⟨.signed, w⟩ m ∧ e.value C k next = .ok (.int k m) := by
  intro k
  have hvalue (e : Arith) (next : Nat) : e.value C k next = .ok (.int k (k.wrap e.exact)) := by
    rw [value_eq, compute_wrapping rfl]
    rfl
  have hcongr {e f : Arith} (h : e.exact ≡ f.exact [ZMOD k.cardinality]) (next next' : Nat) :
      e.value C k next = f.value C k next' := by
    rw [hvalue, hvalue, IntKind.wrap_eq_wrap_iff.mpr h]
  have hequal {e f : Arith} (h : e.exact = f.exact) (next next' : Nat) :
      e.value C k next = f.value C k next' := hcongr (h ▸ Int.ModEq.refl _) next next'
  rw [← k.cardinality_eq_two_pow]
  refine ⟨?_, fun h => hcongr h next next', hequal (Int.mul_add _ _ _) next next',
    hequal (Int.add_comm _ _) next next', hequal (Int.mul_comm _ _) next next',
    hequal (Int.add_assoc _ _ _) next next', hequal (Int.mul_assoc _ _ _) next next', ?_⟩
  · have hholds := k.holds_wrap e.exact
    exact ⟨_, hvalue e next, hholds.1, hholds.2, k.wrap_modEq _, fun n hmin hmax hn =>
      IntKind.eq_wrap_of_modEq ⟨hmin, hmax⟩ hn⟩
  · intro d hd
    rw [value_eq, map_eq_ok] at hd
    obtain ⟨m, hm, rfl⟩ := hd
    obtain ⟨hexact, hholds⟩ := compute_trapping (by simp) hm
    have hsame : k.Holds m := hholds
    refine ⟨m, rfl, ?_⟩
    rw [hvalue, ← hexact, IntKind.wrap_of_holds hsame]

end Arith

end DiffAlgebra
