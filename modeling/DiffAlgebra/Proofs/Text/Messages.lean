import DiffAlgebra.Fault
import DiffAlgebra.Proofs.Text.Names

/-!
# Messages tell types apart

The name of a type begins with one of six capital letters, and nothing else in the message of a
fault does. So the names that a message holds are found from its front, one after the other, and a
message tells which types it is about.
-/

namespace DiffAlgebra

open Text

variable {C : Catalog}

namespace Text

theorem isInitial_of_isDigit {c : Char} (hc : c.isDigit = true) : isInitial c = false := by
  refine Bool.eq_false_iff.mpr fun hinitial => ?_
  simp only [isInitial, List.mem_cons, List.not_mem_nil, or_false, decide_eq_true_eq] at hinitial
  rcases hinitial with rfl | rfl | rfl | rfl | rfl | rfl <;> simp at hc

theorem isInitial_natural (n : Nat) : ∀ c ∈ Nat.toDigits 10 n, isInitial c = false :=
  fun _ hc => isInitial_of_isDigit (isDigit_of_mem_toDigits hc)

theorem isInitial_integer (n : Int) : ∀ c ∈ n.repr.toList, isInitial c = false := by
  intro c hc
  rcases isDigit_or_eq_of_mem_repr hc with hdigit | rfl
  · exact isInitial_of_isDigit hdigit
  · rfl

end Text

namespace DiffType

/-- Text that names types, in the given order, and in which no other word begins like such a name.
-/
inductive Mentioned : List (DiffType C) → List Char → Prop where
  | nil : Mentioned [] []
  | char {c : Char} {ts : List (DiffType C)} {cs : List Char} (plain : isInitial c = false)
      (rest : Mentioned ts cs) : Mentioned ts (c :: cs)
  | name {t : DiffType C} {ts : List (DiffType C)} {cs : List Char} (type : t.Concrete)
      (ends : EndsWord cs) (rest : Mentioned ts cs) : Mentioned (t :: ts) (t.name.toList ++ cs)

variable {t : DiffType C} {ts us : List (DiffType C)} {c : Char} {cs ds p : List Char}

theorem Concrete.name_append_ne_cons (ht : t.Concrete) (hc : isInitial c = false) :
    t.name.toList ++ ds ≠ c :: cs := by
  obtain ⟨d, es, hname, hd⟩ := ht.exists_initial
  rw [hname]
  intro h
  cases h
  simp [hc] at hd

namespace Mentioned

theorem of_cons (hc : isInitial c = false) (h : Mentioned ts (c :: cs)) : Mentioned ts cs := by
  generalize hs : c :: cs = s at h
  cases h with
  | nil => cases hs
  | char _ rest =>
    cases hs
    exact rest
  | name type => exact absurd hs.symm (type.name_append_ne_cons hc)

private theorem of_nil (h : Mentioned ts []) : ts = [] := by
  generalize hs : [] = s at h
  cases h with
  | nil => rfl
  | char => cases hs
  | name type =>
    obtain ⟨c, cs, hname, -⟩ := type.exists_initial
    rw [hname] at hs
    cases hs

theorem of_name (ht : t.Concrete) (hcs : EndsWord cs) (h : Mentioned us (t.name.toList ++ cs)) :
    ∃ ts, us = t :: ts ∧ Mentioned ts cs := by
  generalize hs : t.name.toList ++ cs = s at h
  cases h with
  | nil =>
    obtain ⟨c, ds, hname, -⟩ := ht.exists_initial
    rw [hname] at hs
    cases hs
  | char plain => exact absurd hs (ht.name_append_ne_cons plain)
  | name type ends rest =>
    obtain ⟨rfl, rfl⟩ := ht.toldApart_name type _ _ hcs ends hs
    exact ⟨_, rfl, rest⟩

/-- A text names one list of types at most. -/
theorem unique (h : Mentioned ts cs) (h' : Mentioned us cs) : ts = us := by
  induction h generalizing us with
  | nil => exact h'.of_nil.symm
  | char plain _ ih => exact ih (h'.of_cons plain)
  | name type ends _ ih =>
    obtain ⟨us, rfl, hrest⟩ := h'.of_name type ends
    rw [ih hrest]

attribute [simp] nil

@[simp] theorem cons_iff (hc : isInitial c = false) : Mentioned ts (c :: cs) ↔ Mentioned ts cs :=
  ⟨of_cons hc, .char hc⟩

theorem append_iff (hp : ∀ c ∈ p, isInitial c = false) :
    Mentioned ts (p ++ cs) ↔ Mentioned ts cs := by
  induction p with
  | nil => rfl
  | cons c p ih =>
    obtain ⟨hc, hp⟩ := List.forall_mem_cons.mp hp
    exact (cons_iff hc).trans (ih hp)

@[simp] theorem name_iff (ht : t.Concrete) (hcs : EndsWord cs) :
    Mentioned (t :: ts) (t.name.toList ++ cs) ↔ Mentioned ts cs := by
  refine ⟨fun h => ?_, .name ht hcs⟩
  obtain ⟨us, heq, h⟩ := h.of_name ht hcs
  cases heq
  exact h

theorem plain (hp : ∀ c ∈ p, isInitial c = false) : Mentioned ([] : List (DiffType C)) p := by
  rw [← List.append_nil p]
  exact (append_iff hp).mpr .nil

@[simp] theorem singleton (ht : t.Concrete) : Mentioned [t] t.name.toList := by
  rw [← List.append_nil t.name.toList]
  exact .name ht endsWord_nil .nil

@[simp] theorem natural (n : Nat) : Mentioned ([] : List (DiffType C)) (Nat.toDigits 10 n) :=
  plain (isInitial_natural n)

@[simp] theorem natural_append_iff (n : Nat) :
    Mentioned ts (Nat.toDigits 10 n ++ cs) ↔ Mentioned ts cs :=
  append_iff (isInitial_natural n)

@[simp] theorem integer (n : Int) : Mentioned ([] : List (DiffType C)) n.repr.toList :=
  plain (isInitial_integer n)

@[simp] theorem integer_append_iff (n : Int) :
    Mentioned ts (n.repr.toList ++ cs) ↔ Mentioned ts cs :=
  append_iff (isInitial_integer n)

end Mentioned

end DiffType

namespace Fault

/-- The types that a fault is about, in the order in which its message names them. A plain operand
is of none of these types, and the name of its own type has none of the capital letters. -/
inductive About : Fault → List (DiffType C) → Prop where
  | overflow (op : ArithOp) (k : IntKind) (got : Int) : About (.overflow op k got) [.int k]
  | foreignOperand (t u : DiffType C) : About (.foreignOperand t.name u.name) [t, u]
  | plainOperand {given : String} (plain : ∀ c ∈ given.toList, isInitial c = false)
      (t : DiffType C) : About (.foreignOperand given t.name) [t]
  | componentCount (t : DiffType C) (expected got : Nat) :
      About (.componentCount t.name expected got) [t]
  | noBinaryForm (t : DiffType C) : About (.noBinaryForm t.name) [t]
  | noJsonForm (t : DiffType C) : About (.noJsonForm t.name) [t]
  | noSchema (t : DiffType C) : About (.noSchema t.name) [t]
  | truncated (t : DiffType C) (size offset available : Nat) :
      About (.truncated t.name size offset available) [t]
  | outOfRange (t : DiffType C) (value : Int) : About (.outOfRange t.name value) [t]
  | trailing (t : DiffType C) (count : Nat) : About (.trailing t.name count) [t]

open DiffType

variable {f g : Fault} {ts us : List (DiffType C)}

private theorem About.exists_message (h : f.About ts) : ∃ m, f.message? = some m := by
  cases h <;> exact ⟨_, rfl⟩

/-- The message of a fault names the types that the fault is about, and nothing else that begins
like the name of a type. -/
theorem About.mentioned (h : f.About ts)
    (hts : ∀ t ∈ ts, t.Concrete) {m : String} (hm : f.message? = some m) :
    Mentioned ts m.toList := by
  cases h with
  | overflow op k got =>
    obtain rfl := Option.some.inj hm
    have hverb : ∀ c ∈ op.verb.toList, isInitial c = false := by
      cases op <;> simp [ArithOp.verb, isInitial]
    have ht := hts _ List.mem_cons_self
    rw [show k.name = (int k : DiffType C).name from rfl]
    simp [toString, isInitial, isWordChar, Mentioned.append_iff hverb, ht]
  | foreignOperand t u =>
    obtain rfl := Option.some.inj hm
    have ht := hts t (by simp)
    have hu := hts u (by simp)
    simp [toString, isInitial, isWordChar, ht, hu]
  | plainOperand plain t =>
    obtain rfl := Option.some.inj hm
    have ht := hts t (by simp)
    simp [toString, isInitial, isWordChar, ht, Mentioned.append_iff plain]
  | _ =>
    obtain rfl := Option.some.inj hm
    have ht := hts _ List.mem_cons_self
    simp [toString, isInitial, isWordChar, ht]

/-- Faults with one message are about the same types. -/
theorem About.unique (hf : f.About ts) (hg : g.About us) (hts : ∀ t ∈ ts, t.Concrete)
    (hus : ∀ u ∈ us, u.Concrete) (h : f.message? = g.message?) : ts = us := by
  obtain ⟨m, hm⟩ := hf.exists_message
  exact (hf.mentioned hts hm).unique (hg.mentioned hus (h ▸ hm))

end Fault

end DiffAlgebra
