import DiffAlgebra.Proofs.Contract.Validity
import DiffAlgebra.Proofs.Shape
import DiffAlgebra.Proofs.Values
import DiffAlgebra.Session.Run
import DiffAlgebra.Specimens

/-!
# The forms of a type

A form of a value is a datum of its shape: null for the presence marker, an array for a composite
value, and for an integer any number that is equal to it. The forms of a type over integers and
presence markers are those of its values. They are the data that the schema of the type accepts, and
what is built from a form is the value whose form it is.
-/

namespace DiffAlgebra

variable {C : Catalog} {δ : Type}

/-- The data that have the form of a type: an integral number in the range of the kind, null, an
array with one item of the right form for each component, an array of items of one form. -/
inductive DiffType.Form : DiffType C → Datum C δ → Prop where
  | int {k : IntKind} {d : Datum C δ} {n : Int} (value : d.Denotes n) (holds : k.Holds n) :
      Form (.int k) d
  | present : Form .present .null
  | tuple {ts : List (DiffType C)} {l : Nat} {ds : List (Datum C δ)}
      (length_eq : ts.length = ds.length) (items : ∀ p ∈ ts.zip ds, Form p.1 p.2) :
      Form (.tuple ts) (.list l ds)
  | vec {t : DiffType C} {l : Nat} {ds : List (Datum C δ)} (items : ∀ d ∈ ds, Form t d) :
      Form (.vec t) (.list l ds)

namespace Diff

/-- The data that are forms of a value. -/
inductive HasForm : Diff C → Datum C δ → Prop where
  | int {k : IntKind} {n : Int} {d : Datum C δ} (value : d.Denotes n) : HasForm (.int k n) d
  | present : HasForm .present .null
  | tuple {ts : Option (List (DiffType C))} {xs : List (Diff C)} {l : Nat} {ds : List (Datum C δ)}
      (length_eq : xs.length = ds.length) (items : ∀ p ∈ xs.zip ds, HasForm p.1 p.2) :
      HasForm (.tuple ts xs) (.list l ds)
  | vec {t : Option (DiffType C)} {xs : List (Diff C)} {l : Nat} {ds : List (Datum C δ)}
      (length_eq : xs.length = ds.length) (items : ∀ p ∈ xs.zip ds, HasForm p.1 p.2) :
      HasForm (.vec t xs) (.list l ds)

end Diff

namespace DiffType

variable {t : DiffType C} {ts : List (DiffType C)} {d : Datum C δ}

theorem form_int_iff {k : IntKind} : (int k : DiffType C).Form d ↔ ∃ n, d.Denotes n ∧ k.Holds n := by
  constructor
  · rintro ⟨value, holds⟩
    exact ⟨_, value, holds⟩
  · rintro ⟨n, value, holds⟩
    exact .int value holds

private theorem form_present_iff : (present : DiffType C).Form d ↔ d = .null := by
  constructor
  · rintro ⟨⟩
    rfl
  · rintro rfl
    exact .present

theorem form_tuple_iff : (tuple ts).Form d ↔ ∃ l ds, d = .list l ds ∧ List.Forall₂ Form ts ds := by
  constructor
  · intro h
    cases h with
    | tuple length_eq items =>
      exact ⟨_, _, rfl, forall₂_of_forall_mem_zip length_eq items⟩
  · rintro ⟨l, ds, rfl, h⟩
    exact .tuple h.length_eq fun _ hp => List.forall₂_zip h hp

private theorem form_vec_iff : (vec t).Form d ↔ ∃ l ds, d = .list l ds ∧ ∀ e ∈ ds, t.Form e := by
  constructor
  · intro h
    cases h with
    | vec items => exact ⟨_, _, rfl, items⟩
  · rintro ⟨l, ds, rfl, h⟩
    exact .vec h

end DiffType

section Lists

variable {α β γ : Type}

theorem exists_between_of_forall₂ {P : α → β → Prop} {Q : β → γ → Prop} {as : List α}
    {cs : List γ} (h : List.Forall₂ (fun a c => ∃ b, P a b ∧ Q b c) as cs) :
    ∃ bs, List.Forall₂ P as bs ∧ List.Forall₂ Q bs cs := by
  induction h with
  | nil => exact ⟨[], .nil, .nil⟩
  | cons hac _ ih =>
    obtain ⟨b, hab, hbc⟩ := hac
    obtain ⟨bs, habs, hbcs⟩ := ih
    exact ⟨b :: bs, .cons hab habs, .cons hbc hbcs⟩

theorem forall₂_of_forall₂ {Q : β → γ → Prop} {R : α → γ → Prop} {as : List α} {bs : List β}
    {cs : List γ} (h : List.Forall₂ (fun a b => ∀ c, Q b c → R a c) as bs)
    (h' : List.Forall₂ Q bs cs) : List.Forall₂ R as cs := by
  induction h generalizing cs with
  | nil =>
    cases h'
    exact .nil
  | cons hab _ ih =>
    cases h' with
    | cons hbc hbcs => exact .cons (hab _ hbc) (ih hbcs)

end Lists

namespace Diff

open IntKind (Holds)

variable {t : DiffType C} {ts : List (DiffType C)} {x : Diff C} {xs : List (Diff C)}
  {d e : Datum C δ} {ds : List (Datum C δ)}

theorem hasForm_tuple_iff {u : Option (List (DiffType C))} :
    (tuple u xs).HasForm d ↔ ∃ l ds, d = .list l ds ∧ List.Forall₂ HasForm xs ds := by
  constructor
  · intro h
    cases h with
    | tuple length_eq items =>
      exact ⟨_, _, rfl, forall₂_of_forall_mem_zip length_eq items⟩
  · rintro ⟨l, ds, rfl, h⟩
    exact .tuple h.length_eq fun _ hp => List.forall₂_zip h hp

theorem hasForm_vec_iff {u : Option (DiffType C)} :
    (vec u xs).HasForm d ↔ ∃ l ds, d = .list l ds ∧ List.Forall₂ HasForm xs ds := by
  constructor
  · intro h
    cases h with
    | vec length_eq items =>
      exact ⟨_, _, rfl, forall₂_of_forall_mem_zip length_eq items⟩
  · rintro ⟨l, ds, rfl, h⟩
    exact .vec h.length_eq fun _ hp => List.forall₂_zip h hp

/-- Every form of a type is a form of one of its values. -/
theorem exists_hasForm_of_form (h : t.Form d) : ∃ x, Shaped Holds t x ∧ x.HasForm d := by
  induction h with
  | int value holds => exact ⟨_, .int holds, .int value⟩
  | present => exact ⟨_, .present, .present⟩
  | tuple length_eq _ ih =>
    obtain ⟨xs, hxs, hds⟩ :=
      exists_between_of_forall₂ (forall₂_of_forall_mem_zip length_eq ih)
    exact ⟨_, .tuple_of_forall₂ hxs, hasForm_tuple_iff.mpr ⟨_, _, rfl, hds⟩⟩
  | @vec t l ds _ ih =>
    have hall : List.Forall₂ (fun _ d => ∃ x, Shaped Holds t x ∧ x.HasForm d) ds ds :=
      List.forall₂_same.mpr ih
    obtain ⟨xs, hxs, hds⟩ := exists_between_of_forall₂ hall
    refine ⟨_, .vec fun x hx => ?_, hasForm_vec_iff.mpr ⟨_, _, rfl, hds⟩⟩
    obtain ⟨_, _, hshaped⟩ := exists_mem_of_forall₂ hxs hx
    exact hshaped

theorem Shaped.form (hx : Shaped Holds t x) (h : x.HasForm d) : t.Form d := by
  induction hx generalizing d with
  | int holds =>
    cases h with
    | int value => exact .int value holds
  | present =>
    cases h
    exact .present
  | tuple length_eq _ ih =>
    obtain ⟨l, ds, rfl, hds⟩ := hasForm_tuple_iff.mp h
    refine DiffType.form_tuple_iff.mpr ⟨l, ds, rfl, forall₂_of_forall₂ ?_ hds⟩
    exact forall₂_of_forall_mem_zip length_eq fun p hp _ => ih p hp
  | vec _ ih =>
    obtain ⟨l, ds, rfl, hds⟩ := hasForm_vec_iff.mp h
    refine .vec fun d hd => ?_
    obtain ⟨x, hx, hxd⟩ := exists_mem_of_forall₂ hds hd
    exact ih x hx hxd

private theorem ofForms_eq
    (h : List.Forall₂ (fun t x => ∀ d : Datum C δ, x.HasForm d → ofForm t d = .ok x) ts xs)
    (hds : List.Forall₂ HasForm xs ds) : ofForms ts ds = .ok xs := by
  induction h generalizing ds with
  | nil => rfl
  | cons hx _ ih =>
    cases hds with
    | cons hd hds => simp [ofForms, hx _ hd, ih hds]

/-- What is built from a form of a value of the type is that value. -/
theorem Shaped.ofForm_eq (hx : Shaped Holds t x) (h : x.HasForm d) : ofForm t d = .ok x := by
  induction hx generalizing d with
  | int holds =>
    cases h with
    | int value => simp [ofForm, value.formInteger_eq, IntKind.ofInt, IntKind.fit_of_holds holds]
  | present =>
    cases h
    rfl
  | tuple length_eq _ ih =>
    obtain ⟨l, ds, rfl, hds⟩ := hasForm_tuple_iff.mp h
    have hxs := ofForms_eq (forall₂_of_forall_mem_zip length_eq fun p hp _ => ih p hp) hds
    simp [ofForm, formItems, Contract.arrayItems?, hxs]
  | @vec t xs _ ih =>
    obtain ⟨l, ds, rfl, hds⟩ := hasForm_vec_iff.mp h
    have hforms := (List.forall₂_and_left xs ds).mpr ⟨ih, hds⟩
    have hxs : ds.mapM (ofForm t) = .ok xs :=
      mapM_eq_ok.mpr (hforms.imp fun x d hxd => hxd.1 hxd.2).flip
    simp [ofForm, formItems, Contract.arrayItems?, hxs]

private theorem exists_toForms (h : ∀ x ∈ xs, ∃ d : Datum C δ, x.toForm = .ok d ∧ x.HasForm d) :
    ∃ ds : List (Datum C δ), toForms xs = .ok ds ∧ List.Forall₂ HasForm xs ds := by
  induction xs with
  | nil => exact ⟨[], rfl, .nil⟩
  | cons x xs ih =>
    obtain ⟨⟨d, hd, hform⟩, hxs⟩ := List.forall_mem_cons.mp h
    obtain ⟨ds, hds, hforms⟩ := ih hxs
    exact ⟨d :: ds, by simp [toForms, hd, hds], .cons hform hforms⟩

/-- The form that a value is given is one of its forms. -/
theorem Shaped.exists_toForm {P : IntKind → Int → Prop} (hx : Shaped P t x) :
    ∃ d : Datum C δ, x.toForm = .ok d ∧ x.HasForm d := by
  induction hx with
  | int => exact ⟨_, rfl, .int (.int _)⟩
  | present => exact ⟨_, rfl, .present⟩
  | tuple length_eq _ ih =>
    obtain ⟨ds, hds, hforms⟩ := exists_toForms fun x hx => by
      obtain ⟨t, ht⟩ := exists_mem_zip length_eq hx
      exact ih _ ht
    exact ⟨.list 0 ds, by simp [toForm, hds], hasForm_tuple_iff.mpr ⟨_, _, rfl, hforms⟩⟩
  | vec _ ih =>
    obtain ⟨ds, hds, hforms⟩ := exists_toForms ih
    exact ⟨.list 0 ds, by simp [toForm, hds], hasForm_vec_iff.mpr ⟨_, _, rfl, hforms⟩⟩

/-- All forms of a value are equal data. -/
theorem HasForm.same [DiffView δ C] (h : x.HasForm d) (h' : x.HasForm e) :
    d.values.same e.values = true := by
  induction h generalizing e with
  | int value =>
    cases h' with
    | int value' => exact value.same value'
  | present =>
    cases h'
    rfl
  | tuple length_eq _ ih =>
    obtain ⟨l, es, rfl, hes⟩ := hasForm_tuple_iff.mp h'
    refine Datum.sameAll_values_iff.mpr (forall₂_of_forall₂ (List.Forall₂.flip ?_) hes)
    exact forall₂_of_forall_mem_zip length_eq fun p hp _ => ih p hp
  | vec length_eq _ ih =>
    obtain ⟨l, es, rfl, hes⟩ := hasForm_vec_iff.mp h'
    refine Datum.sameAll_values_iff.mpr (forall₂_of_forall₂ (List.Forall₂.flip ?_) hes)
    exact forall₂_of_forall_mem_zip length_eq fun p hp _ => ih p hp

end Diff

namespace DiffType

variable {t : DiffType C} {d : Datum C δ}

private theorem exists_schemas {ts : List (DiffType C)}
    (h : ∀ t ∈ ts, ∃ s, t.schema = .ok s ∧ ∀ d : Datum C δ, s.violations d = [] ↔ t.Form d) :
    ∃ ss, schemas ts = .ok ss ∧
      List.Forall₂ (fun t s => ∀ d : Datum C δ, s.violations d = [] ↔ t.Form d) ts ss := by
  induction ts with
  | nil => exact ⟨[], rfl, .nil⟩
  | cons t ts ih =>
    obtain ⟨⟨s, hs, hforms⟩, hts⟩ := List.forall_mem_cons.mp h
    obtain ⟨ss, hss, hall⟩ := ih hts
    exact ⟨s :: ss, by simp [schemas, hs, hss], .cons hforms hall⟩

/-- The schema of a type accepts the forms of the type. -/
theorem Concrete.exists_schema (ht : t.Concrete) :
    ∃ s, t.schema = .ok s ∧ ∀ d : Datum C δ, s.violations d = [] ↔ t.Form d := by
  induction ht with
  | int k =>
    refine ⟨_, rfl, fun d => ?_⟩
    rw [Contract.Schema.violations_integer_eq_nil, form_int_iff]
    rfl
  | present =>
    refine ⟨_, rfl, fun d => ?_⟩
    rw [Contract.Schema.violations_null_eq_nil, form_present_iff]
  | tuple _ _ ih =>
    obtain ⟨ss, hss, hforms⟩ := exists_schemas ih
    refine ⟨.tuple ss, by simp [schema, hss], fun d => ?_⟩
    rw [Contract.Schema.violations_tuple_eq_nil, form_tuple_iff]
    constructor
    · rintro ⟨l, ds, rfl, h⟩
      exact ⟨l, ds, rfl, forall₂_of_forall₂ (hforms.imp fun _ _ hts d => (hts d).mp) h⟩
    · rintro ⟨l, ds, rfl, h⟩
      exact ⟨l, ds, rfl, forall₂_of_forall₂ (hforms.imp fun _ _ hts d => (hts d).mpr).flip h⟩
  | vec _ ih =>
    obtain ⟨s, hs, hforms⟩ := ih
    refine ⟨.sequence s, by simp [schema, hs], fun d => ?_⟩
    simp only [Contract.Schema.violations_sequence_eq_nil, form_vec_iff, hforms]

theorem Concrete.load_eq (ht : t.Concrete) {x : Diff C} (hx : Diff.Shaped IntKind.Holds t x)
    (hxd : x.HasForm d) : t.accepts d = .ok true ∧ t.load d = .ok x := by
  obtain ⟨s, hs, hforms⟩ := ht.exists_schema (δ := δ)
  have hvalid := (hforms d).mpr (hx.form hxd)
  constructor
  · simp [accepts, hs, Contract.Schema.accepts_iff.mpr hvalid]
  · rcases s.validate_cases d with ⟨-, hvalidate⟩ | ⟨hinvalid, -⟩
    · simp [load, validate, hs, hvalidate, hx.ofForm_eq hxd]
    · exact absurd hvalid hinvalid

/-- A datum is loaded if and only if it is a form of the type, as the value whose form it is.
Everything else is refused with a violation of the schema. -/
theorem Concrete.load_cases (ht : t.Concrete) (d : Datum C δ) :
    (t.Form d ∧ t.accepts d = .ok true ∧
      ∃ x, t.load d = .ok x ∧ Diff.Shaped IntKind.Holds t x ∧ x.HasForm d) ∨
    (¬ t.Form d ∧ t.accepts d = .ok false ∧ ∃ v, t.load d = .error (.contract v)) := by
  by_cases hform : t.Form d
  · obtain ⟨x, hx, hxd⟩ := Diff.exists_hasForm_of_form hform
    obtain ⟨haccepts, hload⟩ := ht.load_eq hx hxd
    exact Or.inl ⟨hform, haccepts, x, hload, hx, hxd⟩
  · obtain ⟨s, hs, hforms⟩ := ht.exists_schema (δ := δ)
    rcases s.validate_cases d with ⟨hvalid, -⟩ | ⟨hinvalid, v, hvalidate⟩
    · exact absurd ((hforms d).mp hvalid) hform
    · have hrejects : s.accepts d = false :=
        Bool.eq_false_iff.mpr fun h => hinvalid (Contract.Schema.accepts_iff.mp h)
      refine Or.inr ⟨hform, ?_, v, ?_⟩
      · simp [accepts, hs, hrejects]
      · simp [load, validate, hs, hvalidate]

end DiffType

namespace Session

theorem result_accepts {l : Value C} {t : DiffType C} (hl : layoutType l = .ok t) (d : Value C)
    (known : Schemas C) (next : Nat) :
    (Operation.accepts.call [l, d] known next).result = (t.accepts d).map .bool := by
  change (layoutType l >>= fun t => t.accepts d >>= fun b => Except.ok (Datum.bool b)) = _
  rw [hl, ok_bind]
  cases t.accepts d <;> rfl

theorem result_load {l : Value C} {t : DiffType C} (hl : layoutType l = .ok t) (d : Value C)
    (known : Schemas C) (next : Nat) :
    (Operation.load.call [l, d] known next).result =
      (t.load d).map fun x => .diff (Object.ofDiff x next).1 := by
  change (load l d next).result = _
  rw [load, Outcome.result_built, hl]
  rfl

theorem result_toForm (o : Object C) (known : Schemas C) (next : Nat) :
    (Operation.toForm.call [.diff o] known next).result = o.value.toForm := rfl

/-- The contract of a layout accepts exactly the forms of its type. They are loaded as values whose
own form is equal to what was loaded, and other data are refused with a violation. -/
theorem contract_exact {l : Value C} {t : DiffType C} (hl : layoutType l = .ok t)
    (ht : t.Concrete) (d : Value C) (known : Schemas C) (next : Nat) :
    (∃ b, (Operation.accepts.call [l, d] known next).result = .ok (.bool b) ∧
      (b = true ↔ t.Form d)) ∧
    (t.Form d → ∃ o e, (Operation.load.call [l, d] known next).result = .ok (.diff o) ∧
      Diff.Exact t o.value ∧ (Operation.toForm.call [.diff o] known next).result = .ok e ∧
      e.values.same d.values = true) ∧
    (¬ t.Form d →
      ∃ v, (Operation.load.call [l, d] known next).result = .error (.contract v)) := by
  rw [result_accepts hl, result_load hl]
  rcases ht.load_cases d with ⟨hform, haccepts, x, hload, hx, hxd⟩ | ⟨hform, haccepts, v, hload⟩
  · obtain ⟨e, he, hxe⟩ := hx.exists_toForm (δ := Object C)
    refine ⟨⟨true, by simp [haccepts], by simp [hform]⟩, fun _ => ?_, fun h => absurd hform h⟩
    refine ⟨(Object.ofDiff x next).1, e, by simp [hload], ?_, ?_, hxe.same hxd⟩
    · rw [Object.value_ofDiff]
      exact hx.exact
    · rw [result_toForm, Object.value_ofDiff, he]
  · refine ⟨⟨false, by simp [haccepts], by simp [hform]⟩, fun h => absurd h hform, fun _ => ?_⟩
    exact ⟨v, by simp [hload]⟩

/-- The greatest number of the binary64 format below the range's end is accepted as an integer of
64 bits without sign, and the next one is refused. -/
theorem contract_exact_edges :
    let k : IntKind := ⟨.unsigned, .w64⟩
    let l : Value specimens := .tuple 0 [.type (.diff (.int k)), .list 0 [.type (.diff .present)]]
    let within : Value specimens :=
      .list 0 [.real (.finite false 9007199254740991 11), .list 0 [.null]]
    let beyond : Value specimens := .list 0 [.real (.finite false 4503599627370496 12), .list 0 []]
    (∃ o e, (Operation.load.call [l, within] [] 1).result = .ok (.diff o) ∧
      (Operation.toForm.call [.diff o] [] 1).result = .ok e ∧
      e.values.same within.values = true) ∧
    ∃ v, (Operation.load.call [l, beyond] [] 1).result = .error (.contract v) := by
  intro k l within beyond
  have hl : layoutType l = .ok (.tuple [.int k, .vec .present]) := rfl
  have ht : (DiffType.tuple [.int k, .vec .present] : DiffType specimens).Concrete :=
    .pair (.int k) (.vec .present)
  constructor
  · have hform : (DiffType.tuple [.int k, .vec .present]).Form within := by
      have hint : (DiffType.int k : DiffType specimens).Form
          (.real (.finite false 9007199254740991 11) : Value specimens) :=
        .int (n := 18446744073709549568) (.real (by rfl)) (by decide)
      have hvec : (DiffType.vec .present : DiffType specimens).Form
          (.list 0 [.null] : Value specimens) := .vec fun d hd => by
        cases List.mem_singleton.mp hd
        exact .present
      exact DiffType.form_tuple_iff.mpr ⟨0, _, rfl, .cons hint (.cons hvec .nil)⟩
    obtain ⟨o, e, ho, _, he, hsame⟩ := (contract_exact hl ht within [] 1).2.1 hform
    exact ⟨o, e, ho, he, hsame⟩
  · refine (contract_exact hl ht beyond [] 1).2.2 fun hform => ?_
    obtain ⟨_, _, hds, hforms⟩ := DiffType.form_tuple_iff.mp hform
    obtain ⟨-, rfl⟩ := Datum.list.inj hds
    cases hforms with
    | cons hint _ =>
      obtain ⟨n, hn, holds⟩ := DiffType.form_int_iff.mp hint
      have hend : Datum.Denotes (.real (.finite false 4503599627370496 12) : Value specimens)
          18446744073709551616 := .real (by rfl)
      rw [hn.unique hend] at holds
      exact absurd holds (by decide)

end Session

end DiffAlgebra
