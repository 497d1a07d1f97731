import DiffAlgebra.Proofs.Contract.Forms
import Mathlib.Algebra.Order.Monoid.Unbundled.WithTop
import Mathlib.Data.List.Nodup

/-!
# Where violations are

What applying a published schema to a datum means is said here without the validator: a part of the
schema is for an item of the datum, by the keywords that lead to both, and the item breaks a keyword
of that part. The validator finds exactly what is broken in this sense, each with the two paths that
lead to it and none twice, and what fails for a violation fails with the first one.
-/

namespace DiffAlgebra

variable {C : Catalog} {δ : Type}

namespace Contract

def Expected.document : Expected → Document
  | word s => .word s
  | number n => .number n

def quantity? : Datum C δ → Option (WithBot (WithTop ℚ))
  | .int n => some ((n : ℚ) : WithTop ℚ)
  | .real (.infinite negative) => some (if negative then ⊥ else (⊤ : WithTop ℚ))
  | .real x => x.toRat?.map fun q => (q : WithTop ℚ)
  | _ => none

def HasType (word : String) (d : Datum C δ) : Prop :=
  (word = "integer" ∧ ∃ n, d.Denotes n) ∨ (word = "null" ∧ d = .null) ∨
    (word = "array" ∧ ∃ l xs, d = .list l xs)

/-- The datum breaks the keyword with the value. A type is broken by all other data, a bound by
numbers beyond it, and a number of items by arrays that have fewer or more. -/
inductive Breaks : Keyword → Expected → Datum C δ → Prop where
  | type {d : Datum C δ} {word : String} (other : ¬ HasType word d) : Breaks .type (.word word) d
  | minimum {d : Datum C δ} {q : WithBot (WithTop ℚ)} {bound : Int} (value : quantity? d = some q)
      (low : q < ((bound : ℚ) : WithTop ℚ)) : Breaks .minimum (.number bound) d
  | maximum {d : Datum C δ} {q : WithBot (WithTop ℚ)} {bound : Int} (value : quantity? d = some q)
      (high : ((bound : ℚ) : WithTop ℚ) < q) : Breaks .maximum (.number bound) d
  | minItems {l : Nat} {xs : List (Datum C δ)} {bound : Int} (few : xs.length < bound) :
      Breaks .minItems (.number bound) (.list l xs)
  | maxItems {l : Nat} {xs : List (Datum C δ)} {bound : Int} (many : bound < xs.length) :
      Breaks .maxItems (.number bound) (.list l xs)

/-- The part of a document for the item of an array at a position: the one that is for this
position, or else the one that is for all items. -/
inductive Document.Governs (D : Document) (i : Nat) : List SchemaStep → Document → Prop where
  | own {E : Document} (part : D.at? [.key "prefixItems", .index i] = some E) :
      Governs D i [.key "prefixItems", .index i] E
  | shared {E : Document} (rest : D.at? [.key "prefixItems", .index i] = none)
      (part : D.at? [.key "items"] = some E) : Governs D i [.key "items"] E

/-- Applying the document to the datum applies the part at the end of the steps to the item at the
end of the path. -/
inductive Applies : Document → Datum C δ → List SchemaStep → List Nat → Document → Datum C δ → Prop
  where
  | root (D : Document) (d : Datum C δ) : Applies D d [] [] D d
  | item {D E F : Document} {l i : Nat} {xs : List (Datum C δ)} {x e : Datum C δ}
      {steps steps' : List SchemaStep} {path : List Nat} (part : D.Governs i steps E)
      (item : xs[i]? = some x) (rest : Applies E x steps' path F e) :
      Applies D (.list l xs) (steps ++ steps') (i :: path) F e

/-- The violation is that an item breaks a keyword of the part of the document that is applied to
it, and it names the two places. -/
def Reports (D : Document) (d : Datum C δ) (v : Violation) : Prop :=
  ∃ steps E e, Applies D d steps v.path E e ∧ v.schemaPath = steps ++ [.key v.keyword.name] ∧
    E.step? (.key v.keyword.name) = some v.expected.document ∧ Breaks v.keyword v.expected e

def itemAt? : List Nat → Datum C δ → Option (Datum C δ)
  | [], d => some d
  | i :: path, d => (arrayItems? d).bind fun xs => xs[i]?.bind (itemAt? path)

theorem Document.at?_append (D : Document) (path path' : List SchemaStep) :
    D.at? (path ++ path') = (D.at? path).bind fun E => E.at? path' := by
  induction path generalizing D with
  | nil => rfl
  | cons s path ih =>
    simp only [List.cons_append, at?]
    cases D.step? s with
    | none => rfl
    | some E => exact ih E

theorem Document.Governs.at?_eq {D E : Document} {i : Nat} {steps : List SchemaStep}
    (h : D.Governs i steps E) : D.at? steps = some E := by
  cases h with
  | own part => exact part
  | shared _ part => exact part

namespace Applies

variable {D E : Document} {d e : Datum C δ} {steps : List SchemaStep} {path : List Nat}

theorem at?_eq (h : Applies D d steps path E e) : D.at? steps = some E := by
  induction h with
  | root => rfl
  | item part _ _ ih => rw [Document.at?_append, part.at?_eq, Option.bind_some, ih]

private theorem itemAt?_eq (h : Applies D d steps path E e) : itemAt? path d = some e := by
  induction h with
  | root => rfl
  | item _ item _ ih => simp [itemAt?, arrayItems?, item, ih]

end Applies

/-- The paths of a violation lead to the item and to the keyword that it breaks. -/
theorem Reports.ends {D : Document} {d : Datum C δ} {v : Violation} (h : Reports D d v) :
    ∃ e, itemAt? v.path d = some e ∧ D.at? v.schemaPath = some v.expected.document ∧
      Breaks v.keyword v.expected e := by
  obtain ⟨steps, E, e, happlies, hpath, hstep, hbreaks⟩ := h
  refine ⟨e, happlies.itemAt?_eq, ?_, hbreaks⟩
  rw [hpath, Document.at?_append, happlies.at?_eq, Option.bind_some]
  simp only [Document.at?, hstep]

def Keyword.violation (k : Keyword) (a : Expected) : Violation := ⟨k, a, [], [.key k.name]⟩

/-- A violation is at the root, or in an item of an array. -/
theorem reports_iff {D : Document} {d : Datum C δ} {v : Violation} :
    Reports D d v ↔
      (∃ k a, D.step? (.key k.name) = some a.document ∧ Breaks k a d ∧ v = k.violation a) ∨
      ∃ l xs i x steps E w, d = .list l xs ∧ xs[i]? = some x ∧ D.Governs i steps E ∧
        Reports E x w ∧ v = w.under [i] steps := by
  constructor
  · obtain ⟨k, a, path, schemaPath⟩ := v
    rintro ⟨steps, E, e, happlies, hpath, hstep, hbreaks⟩
    obtain rfl : schemaPath = steps ++ [.key k.name] := hpath
    cases happlies with
    | root => exact .inl ⟨k, a, hstep, hbreaks, rfl⟩
    | @item _ E _ l i xs x _ steps steps' path part item rest =>
      refine .inr ⟨l, xs, i, x, steps, E, ⟨k, a, path, steps' ++ [.key k.name]⟩, rfl, item, part,
        ⟨steps', _, e, rest, rfl, hstep, hbreaks⟩, ?_⟩
      rw [List.append_assoc]
      rfl
  · rintro (⟨k, a, hstep, hbreaks, rfl⟩ | ⟨l, xs, i, x, steps, E, w, rfl, hx, part, hw, rfl⟩)
    · exact ⟨[], D, d, .root D d, rfl, hstep, hbreaks⟩
    · obtain ⟨steps', F, e, rest, hpath, hstep, hbreaks⟩ := hw
      refine ⟨steps ++ steps', F, e, .item part hx rest, ?_, hstep, hbreaks⟩
      rw [Violation.under, hpath, List.append_assoc]

namespace Schema

/-- The keywords of a schema that are about the datum itself, with their values. -/
def assertions : Schema → List (Keyword × Expected)
  | integer lo hi => [(.type, .word "integer"), (.minimum, .number lo), (.maximum, .number hi)]
  | null => [(.type, .word "null")]
  | tuple ss =>
    [(.type, .word "array"), (.minItems, .number ss.length), (.maxItems, .number ss.length)]
  | sequence _ => [(.type, .word "array")]

def own? : Schema → Nat → Option Schema
  | tuple ss, i => ss[i]?
  | _, _ => none

def shared? : Schema → Option Schema
  | sequence s => some s
  | _ => none

def part? (s : Schema) (i : Nat) : Option (List SchemaStep × Schema) :=
  ((s.own? i).map fun e => ([.key "prefixItems", .index i], e)) <|>
    s.shared?.map fun e => ([.key "items"], e)

private theorem getElem?_fragments (ss : List Schema) (i : Nat) :
    (fragments ss)[i]? = ss[i]?.map fun s => .object s.keywords := by
  induction ss generalizing i with
  | nil => rfl
  | cons s ss ih =>
    cases i with
    | zero => rfl
    | succ i => exact ih i

private theorem own?_eq (s : Schema) (i : Nat) :
    (Document.object s.keywords).at? [.key "prefixItems", .index i] =
      (s.own? i).map fun e => .object e.keywords := by
  cases s with
  | tuple ss =>
    have hfragments := getElem?_fragments ss i
    cases ss with
    | nil => rfl
    | cons s ss =>
      cases h : (s :: ss)[i]? <;> simp_all [Document.at?, Document.step?, keywords, own?]
  | _ => simp [Document.at?, Document.step?, keywords, own?]

private theorem shared?_eq (s : Schema) :
    (Document.object s.keywords).at? [.key "items"] =
      s.shared?.map fun e => .object e.keywords := by
  cases s with
  | tuple ss => cases ss <;> simp [Document.at?, Document.step?, keywords, shared?]
  | _ => simp [Document.at?, Document.step?, keywords, shared?]

/-- The keywords are those about the datum itself, and then those that lead to the parts for
items. -/
theorem exists_keywords_eq (s : Schema) :
    ∃ rest, s.keywords = s.assertions.map (fun a => (a.1.name, a.2.document)) ++ rest ∧
      ∀ f ∈ rest, f.1 ∈ ["prefixItems", "items"] := by
  cases s with
  | tuple ss =>
    cases ss with
    | nil => exact ⟨[], rfl, by simp⟩
    | cons s ss => exact ⟨[("prefixItems", _)], rfl, by simp⟩
  | sequence s => exact ⟨[("items", _)], rfl, by simp⟩
  | _ => exact ⟨[], rfl, by simp⟩

end Schema

/-- The document has the keywords of the schema, and no others but those that only describe it. -/
def Document.Publishes (D : Document) (s : Schema) : Prop :=
  ∀ name, name ≠ "$schema" → name ≠ "title" →
    D.step? (.key name) = (Document.object s.keywords).step? (.key name)

theorem publishes_keywords (s : Schema) : (Document.object s.keywords).Publishes s :=
  fun _ _ _ => rfl

private theorem publishes_document (s : Schema) (title : String) :
    (s.document title).Publishes s := by
  intro name hdialect htitle
  simp [Schema.document, Document.step?, hdialect.symm, htitle.symm]

namespace Document.Publishes

variable {D E : Document} {s : Schema}

private theorem keyword_iff (h : D.Publishes s) {k : Keyword} {a : Expected} :
    D.step? (.key k.name) = some a.document ↔ (k, a) ∈ s.assertions := by
  rw [h k.name (by cases k <;> decide) (by cases k <;> decide)]
  cases s with
  | tuple ss =>
    cases ss <;> cases k <;> cases a <;>
      simp [step?, Schema.keywords, Schema.assertions, Keyword.name, Expected.document, eq_comm]
  | _ =>
    cases k <;> cases a <;>
      simp [step?, Schema.keywords, Schema.assertions, Keyword.name, Expected.document, eq_comm]

theorem at?_eq (h : D.Publishes s) {name : String} (hdialect : name ≠ "$schema")
    (htitle : name ≠ "title") (path : List SchemaStep) :
    D.at? (.key name :: path) = (Document.object s.keywords).at? (.key name :: path) := by
  simp only [at?, h name hdialect htitle]

theorem governs_iff (h : D.Publishes s) {i : Nat} {steps : List SchemaStep} :
    D.Governs i steps E ↔ ∃ s', s.part? i = some (steps, s') ∧ E = .object s'.keywords := by
  have hown := (h.at?_eq (by decide) (by decide) [.index i]).trans (s.own?_eq i)
  have hshared := (h.at?_eq (by decide) (by decide) []).trans s.shared?_eq
  constructor
  · intro hgoverns
    cases hgoverns with
    | own part =>
      obtain ⟨s', hs', rfl⟩ := Option.map_eq_some_iff.mp (hown.symm.trans part)
      exact ⟨s', by simp [Schema.part?, hs'], rfl⟩
    | shared rest part =>
      have hs := Option.map_eq_none_iff.mp (hown.symm.trans rest)
      obtain ⟨s', hs', rfl⟩ := Option.map_eq_some_iff.mp (hshared.symm.trans part)
      exact ⟨s', by simp [Schema.part?, hs, hs'], rfl⟩
  · rintro ⟨s', hs', rfl⟩
    cases hs : s.own? i with
    | some e =>
      obtain ⟨rfl, rfl⟩ : _ = steps ∧ e = s' := by simpa [Schema.part?, hs] using hs'
      exact .own (by rw [hown, hs, Option.map_some])
    | none =>
      obtain ⟨e, he, rfl, rfl⟩ : ∃ e, s.shared? = some e ∧ _ = steps ∧ e = s' := by
        simpa [Schema.part?, hs] using hs'
      exact .shared (by rw [hown, hs, Option.map_none]) (by rw [hshared, he, Option.map_some])

/-- A violation that the document gives rise to breaks an assertion of the schema, or is one of the
part of the document for an item. -/
theorem reports_iff (h : D.Publishes s) {d : Datum C δ} {v : Violation} :
    Reports D d v ↔
      (∃ a ∈ s.assertions, Breaks a.1 a.2 d ∧ v = a.1.violation a.2) ∨
      ∃ l xs i x steps s' w, d = .list l xs ∧ xs[i]? = some x ∧ s.part? i = some (steps, s') ∧
        Reports (.object s'.keywords) x w ∧ v = w.under [i] steps := by
  rw [Contract.reports_iff]
  simp only [h.keyword_iff, h.governs_iff, Prod.exists]
  refine or_congr Iff.rfl ?_
  constructor
  · rintro ⟨l, xs, i, x, steps, _, w, hd, hx, ⟨s', hs', rfl⟩, hw, hv⟩
    exact ⟨l, xs, i, x, steps, s', w, hd, hx, hs', hw, hv⟩
  · rintro ⟨l, xs, i, x, steps, s', w, hd, hx, hs', hw, hv⟩
    exact ⟨l, xs, i, x, steps, _, w, hd, hx, ⟨s', hs', rfl⟩, hw, hv⟩

/-- Every part of the document that is applied publishes a schema. -/
theorem applies (h : D.Publishes s) {d e : Datum C δ} {steps : List SchemaStep} {path : List Nat}
    (happlies : Applies D d steps path E e) : ∃ s', E.Publishes s' := by
  induction happlies generalizing s with
  | root => exact ⟨s, h⟩
  | item part _ _ ih =>
    obtain ⟨s', -, rfl⟩ := h.governs_iff.mp part
    exact ih (publishes_keywords s')

/-- A keyword of the document describes it, leads to the parts for items, or is one that data can
break. -/
theorem exists_keyword (h : D.Publishes s) {name : String} (hE : D.step? (.key name) = some E) :
    name ∈ ["$schema", "title", "prefixItems", "items"] ∨
      ∃ k a, name = Keyword.name k ∧ E = Expected.document a := by
  by_cases hdescribes : name = "$schema" ∨ name = "title"
  · exact .inl (by rcases hdescribes with rfl | rfl <;> decide)
  · rw [not_or] at hdescribes
    rw [h name hdescribes.1 hdescribes.2] at hE
    obtain ⟨f, hf, rfl⟩ := Option.map_eq_some_iff.mp hE
    have hname : f.1 = name := by simpa using List.find?_some hf
    obtain ⟨rest, hs, hrest⟩ := s.exists_keywords_eq
    have hmem := List.mem_of_find?_eq_some hf
    rw [hs, List.mem_append] at hmem
    rcases hmem with hmem | hmem
    · obtain ⟨a, -, rfl⟩ := List.mem_map.mp hmem
      exact .inr ⟨a.1, a.2, hname.symm, rfl⟩
    · have hleads := hrest f hmem
      rw [hname] at hleads
      exact .inl (List.mem_cons_of_mem _ (List.mem_cons_of_mem _ hleads))

end Document.Publishes

section Breaks

variable {d : Datum C δ} {bound : Int}

private theorem isBelow_iff :
    isBelow bound d = true ↔ ∃ q, quantity? d = some q ∧ q < ((bound : ℚ) : WithTop ℚ) := by
  cases d with
  | real x =>
    cases x with
    | infinite negative => cases negative <;> simp [isBelow, Binary64.ltInt, quantity?]
    | finite => simp [isBelow, Binary64.ltInt, quantity?, Binary64.toRat?]
  | _ => simp [isBelow, quantity?]

private theorem isAbove_iff :
    isAbove bound d = true ↔ ∃ q, quantity? d = some q ∧ ((bound : ℚ) : WithTop ℚ) < q := by
  have hend : (((bound : ℚ) : WithTop ℚ) : WithBot (WithTop ℚ)) < ⊤ :=
    WithBot.coe_lt_coe.mpr (WithTop.coe_lt_top _)
  cases d with
  | real x =>
    cases x with
    | infinite negative => cases negative <;> simp [isAbove, Binary64.gtInt, quantity?, hend]
    | finite => simp [isAbove, Binary64.gtInt, quantity?, Binary64.toRat?]
  | _ => simp [isAbove, quantity?]

theorem breaks_type_iff {word : String} : Breaks .type (.word word) d ↔ ¬ HasType word d := by
  constructor
  · intro h
    cases h with
    | type other => exact other
  · exact .type

private theorem breaks_minimum_iff :
    Breaks .minimum (.number bound) d ↔ isBelow bound d = true := by
  rw [isBelow_iff]
  constructor
  · intro h
    cases h with
    | minimum value low => exact ⟨_, value, low⟩
  · rintro ⟨q, value, low⟩
    exact .minimum value low

private theorem breaks_maximum_iff :
    Breaks .maximum (.number bound) d ↔ isAbove bound d = true := by
  rw [isAbove_iff]
  constructor
  · intro h
    cases h with
    | maximum value high => exact ⟨_, value, high⟩
  · rintro ⟨q, value, high⟩
    exact .maximum value high

theorem breaks_minItems_iff :
    Breaks .minItems (.number bound) d ↔ ∃ l xs, d = .list l xs ∧ xs.length < bound := by
  constructor
  · intro h
    cases h with
    | minItems few => exact ⟨_, _, rfl, few⟩
  · rintro ⟨l, xs, rfl, few⟩
    exact .minItems few

theorem breaks_maxItems_iff :
    Breaks .maxItems (.number bound) d ↔ ∃ l xs, d = .list l xs ∧ bound < xs.length := by
  constructor
  · intro h
    cases h with
    | maxItems many => exact ⟨_, _, rfl, many⟩
  · rintro ⟨l, xs, rfl, many⟩
    exact .maxItems many

private theorem hasType_integer_iff : HasType "integer" d ↔ isIntegral d = true := by
  simp [HasType, isIntegral_iff]

private theorem hasType_null_iff : HasType "null" d ↔ isNull d = true := by
  cases d <;> simp [HasType, isNull]

theorem hasType_array_iff : HasType "array" d ↔ ∃ l xs, d = .list l xs := by
  simp [HasType]

end Breaks

/-- The violations in the items of an array, from a position on, each at the end of the steps for
its position. -/
def itemwise (start : Nat) (steps : Nat → List SchemaStep) (found : List (List Violation)) :
    List Violation :=
  (found.zipIdx start).flatMap fun p => p.1.map (.under [p.2] (steps p.2))

theorem itemViolations_eq (check : Datum C δ → List Violation) (xs : List (Datum C δ)) :
    itemViolations check xs = itemwise 0 (fun _ => [.key "items"]) (xs.map check) := by
  simp only [itemViolations, itemwise, List.zipIdx_map, List.flatMap_map]
  rfl

theorem violationsAt_eq (start : Nat) (ss : List Schema) (xs : List (Datum C δ)) :
    Schema.violationsAt start ss xs =
      itemwise start (fun i => [.key "prefixItems", .index i])
        (List.zipWith Schema.violations ss xs) := by
  induction ss generalizing start xs with
  | nil => rfl
  | cons s ss ih =>
    cases xs with
    | nil => rfl
    | cons x xs =>
      simp only [Schema.violationsAt, ih, itemwise, List.zipWith_cons_cons, List.zipIdx_cons,
        List.flatMap_cons]

theorem mem_itemwise {start : Nat} {steps : Nat → List SchemaStep}
    {found : List (List Violation)} {v : Violation} :
    v ∈ itemwise start steps found ↔ ∃ i vs, found[i]? = some vs ∧
      ∃ w ∈ vs, v = .under [start + i] (steps (start + i)) w := by
  simp only [itemwise, List.mem_flatMap, List.mem_map, Prod.exists]
  constructor
  · rintro ⟨vs, i, hvs, w, hw, rfl⟩
    obtain ⟨hstart, hget⟩ := List.mem_zipIdx_iff_le_and_getElem?_sub.mp hvs
    exact ⟨i - start, vs, hget, w, hw, by rw [Nat.add_sub_cancel' hstart]⟩
  · rintro ⟨i, vs, hvs, w, hw, rfl⟩
    exact ⟨vs, start + i, List.mem_zipIdx_iff_le_and_getElem?_sub.mpr (by simpa using hvs), w, hw,
      rfl⟩

def Violation.location (v : Violation) : List Nat × List SchemaStep := (v.path, v.schemaPath)

theorem location_under (path : List Nat) (steps : List SchemaStep) (v : Violation) :
    (v.under path steps).location = (path ++ v.location.1, steps ++ v.location.2) := rfl

/-- Where no two violations in one item are at the same places, no two in all items are. -/
theorem nodup_itemwise {start : Nat} {steps : Nat → List SchemaStep}
    {found : List (List Violation)} (h : ∀ vs ∈ found, (vs.map Violation.location).Nodup) :
    ((itemwise start steps found).map Violation.location).Nodup := by
  rw [itemwise, List.map_flatMap, List.nodup_flatMap]
  constructor
  · intro p hp
    have hunder : Violation.location ∘ Violation.under [p.2] (steps p.2) =
        (fun q => ([p.2] ++ q.1, steps p.2 ++ q.2)) ∘ Violation.location := by
      funext v
      exact location_under _ _ v
    rw [List.map_map, hunder, ← List.map_map]
    refine (h p.1 (List.fst_mem_of_mem_zipIdx hp)).map fun q r hqr => ?_
    obtain ⟨hpath, hsteps⟩ := Prod.mk.inj hqr
    exact Prod.ext (List.append_cancel_left hpath) (List.append_cancel_left hsteps)
  · have hpositions : ((found.zipIdx start).map Prod.snd).Nodup := by
      rw [List.zipIdx_map_snd]
      exact List.nodup_range'
    refine (List.pairwise_map.mp hpositions).imp fun {p q} hne => ?_
    intro place hp hq
    obtain ⟨_, hv, rfl⟩ := List.mem_map.mp hp
    obtain ⟨v, -, rfl⟩ := List.mem_map.mp hv
    obtain ⟨_, hw, hplace⟩ := List.mem_map.mp hq
    obtain ⟨w, -, rfl⟩ := List.mem_map.mp hw
    rw [location_under, location_under] at hplace
    exact hne (List.cons.inj (Prod.mk.inj hplace).1).1.symm

theorem mem_violated {k : Keyword} {a : Expected} {broken : Bool} {v : Violation} :
    v ∈ violated k a broken ↔ broken = true ∧ v = k.violation a := by
  cases broken <;> simp [violated, Keyword.violation]

theorem violated_sublist (k : Keyword) (a : Expected) (broken : Bool) :
    (violated k a broken).Sublist [k.violation a] := by
  cases broken <;> simp [violated, Keyword.violation]

theorem Keyword.name_injective : Function.Injective Keyword.name := by
  intro k k' h
  cases k <;> cases k' <;> first | rfl | exact absurd h (by decide)

section Roots

variable {as : List (Keyword × Expected)} {roots found : List Violation}

theorem nodup_roots (hkeywords : (as.map Prod.fst).Nodup)
    (hroots : roots.Sublist (as.map fun a => a.1.violation a.2)) :
    (roots.map Violation.location).Nodup := by
  have hplace : Function.Injective fun k : Keyword =>
      (([] : List Nat), [SchemaStep.key k.name]) := by
    intro k k' h
    exact Keyword.name_injective (by simpa using h)
  have hall := hkeywords.map hplace
  rw [List.map_map] at hall
  refine List.Nodup.sublist (hroots.map _) ?_
  rw [List.map_map]
  exact hall

/-- Violations of different keywords at the root, and violations at different places in items, are
all at different places. -/
theorem nodup_append (hkeywords : (as.map Prod.fst).Nodup)
    (hroots : roots.Sublist (as.map fun a => a.1.violation a.2))
    (hfound : (found.map Violation.location).Nodup) (hpath : ∀ v ∈ found, v.path ≠ []) :
    ((roots ++ found).map Violation.location).Nodup := by
  rw [List.map_append]
  refine (nodup_roots hkeywords hroots).append hfound fun place hplace hitem => ?_
  obtain ⟨v, hv, rfl⟩ := List.mem_map.mp hplace
  obtain ⟨a, -, rfl⟩ := List.mem_map.mp (hroots.subset hv)
  obtain ⟨w, hw, hplaces⟩ := List.mem_map.mp hitem
  exact hpath w hw (Prod.mk.inj hplaces).1

end Roots

namespace Schema

private theorem mem_itemViolations {check : Datum C δ → List Violation} {xs : List (Datum C δ)}
    {v : Violation} :
    v ∈ itemViolations check xs ↔
      ∃ i x, xs[i]? = some x ∧ ∃ w ∈ check x, v = w.under [i] [.key "items"] := by
  simp [itemViolations_eq, mem_itemwise]

theorem mem_violationsAt {ss : List Schema} {xs : List (Datum C δ)} {v : Violation} :
    v ∈ violationsAt 0 ss xs ↔ ∃ i x, xs[i]? = some x ∧ ∃ s, ss[i]? = some s ∧
      ∃ w ∈ violations s x, v = .under [i] [.key "prefixItems", .index i] w := by
  simp only [violationsAt_eq, mem_itemwise, List.getElem?_zipWith_eq_some, Nat.zero_add]
  constructor
  · rintro ⟨i, _, ⟨s, x, hs, hx, rfl⟩, w, hw, rfl⟩
    exact ⟨i, x, hx, s, hs, w, hw, rfl⟩
  · rintro ⟨i, x, hx, s, hs, w, hw, rfl⟩
    exact ⟨i, _, ⟨s, x, hs, hx, rfl⟩, w, hw, rfl⟩

/-- What is found is that the datum breaks an assertion of the schema, or is found in an item. -/
theorem mem_violations_iff (s : Schema) {d : Datum C δ} {v : Violation} :
    v ∈ s.violations d ↔
      (∃ a ∈ s.assertions, Breaks a.1 a.2 d ∧ v = a.1.violation a.2) ∨
      ∃ l xs i x steps s' w, d = .list l xs ∧ xs[i]? = some x ∧ s.part? i = some (steps, s') ∧
        w ∈ s'.violations x ∧ v = w.under [i] steps := by
  cases s with
  | integer lo hi =>
    simp [violations, mem_violated, assertions, part?, own?, shared?, breaks_type_iff,
      hasType_integer_iff, breaks_minimum_iff, breaks_maximum_iff]
  | null =>
    simp [violations, mem_violated, assertions, part?, own?, shared?, breaks_type_iff,
      hasType_null_iff]
  | sequence s =>
    cases d with
    | list l xs =>
      simp [violations, arrayItems?, mem_itemViolations, assertions, part?, own?, shared?,
        breaks_type_iff, hasType_array_iff]
    | _ =>
      simp [violations, arrayItems?, mem_violated, assertions, breaks_type_iff, hasType_array_iff]
  | tuple ss =>
    cases d with
    | list l xs =>
      simp [violations, arrayItems?, mem_violated, mem_violationsAt, assertions, part?, own?,
        shared?, breaks_type_iff, hasType_array_iff, breaks_minItems_iff, breaks_maxItems_iff,
        or_assoc]
    | _ =>
      simp [violations, arrayItems?, mem_violated, assertions, breaks_type_iff, hasType_array_iff,
        breaks_minItems_iff, breaks_maxItems_iff]

/-- What is found is what the published schema reports. -/
theorem mem_violations_iff_reports {s : Schema} {D : Document} (h : D.Publishes s)
    {d : Datum C δ} {v : Violation} : v ∈ s.violations d ↔ Reports D d v := by
  rw [mem_violations_iff, h.reports_iff]
  refine or_congr Iff.rfl ?_
  -- The path is one step shorter in the item.
  have ih (s' : Schema) (x : Datum C δ) {i : Nat} {steps : List SchemaStep} {w : Violation}
      (hv : v = w.under [i] steps) :
      w ∈ s'.violations x ↔ Reports (.object s'.keywords) x w :=
    have : w.path.length < v.path.length := by simp [hv, Violation.under]
    mem_violations_iff_reports (publishes_keywords s')
  constructor
  · rintro ⟨l, xs, i, x, steps, s', w, hd, hx, hs', hw, hv⟩
    exact ⟨l, xs, i, x, steps, s', w, hd, hx, hs', (ih s' x hv).mp hw, hv⟩
  · rintro ⟨l, xs, i, x, steps, s', w, hd, hx, hs', hw, hv⟩
    exact ⟨l, xs, i, x, steps, s', w, hd, hx, hs', (ih s' x hv).mpr hw, hv⟩
termination_by v.path.length

theorem nodup_assertions (s : Schema) : (s.assertions.map Prod.fst).Nodup := by
  cases s <;> simp [assertions]

/-- No two violations are at the same places. -/
theorem nodup_violations (s : Schema) (d : Datum C δ) :
    ((s.violations d).map Violation.location).Nodup := by
  -- The keywords at the root differ, and the path to an item is never empty.
  cases s with
  | integer lo hi =>
    exact nodup_roots (nodup_assertions (integer lo hi)) (((violated_sublist ..).append
      (violated_sublist ..)).append (violated_sublist ..))
  | null => exact nodup_roots (nodup_assertions null) (violated_sublist ..)
  | sequence s =>
    cases d with
    | list l xs =>
      simp only [violations, arrayItems?, itemViolations_eq]
      refine nodup_itemwise fun vs hvs => ?_
      obtain ⟨x, -, rfl⟩ := List.mem_map.mp hvs
      exact nodup_violations s x
    | _ => simp [violations, arrayItems?, violated]
  | tuple ss =>
    cases d with
    | list l xs =>
      refine nodup_append (List.Nodup.of_cons (nodup_assertions (tuple ss)))
        ((violated_sublist ..).append (violated_sublist ..)) ?_ fun v hv => ?_
      · rw [violationsAt_eq]
        refine nodup_itemwise fun vs hvs => ?_
        obtain ⟨i, hi⟩ := List.mem_iff_getElem?.mp hvs
        obtain ⟨s, x, hs, -, rfl⟩ := List.getElem?_zipWith_eq_some.mp hi
        have hmem := List.mem_of_getElem? hs
        exact nodup_violations s x
      · obtain ⟨i, x, -, s, -, w, -, rfl⟩ := mem_violationsAt.mp hv
        exact List.cons_ne_nil _ _
    | _ => simp [violations, arrayItems?, violated]

end Schema

/-- The violations are all that the document reports about the datum, none twice, and the document
has no keywords that are not accounted for. -/
structure AllReported (D : Document) (d : Datum C δ) (vs : List Violation) : Prop where
  mem_iff : ∀ v, v ∈ vs ↔ Reports D d v
  nodup : (vs.map fun v => (v.path, v.schemaPath)).Nodup
  ends : ∀ v ∈ vs, ∃ e, itemAt? v.path d = some e ∧
    D.at? v.schemaPath = some v.expected.document ∧ Breaks v.keyword v.expected e
  keywords : ∀ steps path E e, Applies D d steps path E e →
    ∀ name F, E.step? (.key name) = some F →
      name ∈ ["$schema", "title", "prefixItems", "items"] ∨
        ∃ k a, name = Keyword.name k ∧ F = Expected.document a

private theorem Document.Publishes.allReported {D : Document} {s : Schema} (h : D.Publishes s)
    (d : Datum C δ) : AllReported D d (s.violations d) where
  mem_iff _ := Schema.mem_violations_iff_reports h
  nodup := s.nodup_violations d
  ends _ hv := ((Schema.mem_violations_iff_reports h).mp hv).ends
  keywords _ _ _ _ happlies _ _ hF := by
    obtain ⟨s', hs'⟩ := h.applies happlies
    exact hs'.exists_keyword hF

end Contract

namespace Session

open Contract

variable {l : Value C} {t : DiffType C} {s : Schema}

private theorem result_schema (hl : layoutType l = .ok t) (hs : t.schema = .ok s)
    {known : Schemas C}
    (hknown : known.find? (·.1 == t) = none) (next : Nat) :
    (Operation.schema.call [l] known next).result =
      .ok ((s.document t.name).toDatum.settle next).1 := by
  change (giveSchema (fun _ d => d) known l next).result = _
  simp [giveSchema, givenSchema, hl, hknown, hs]

private theorem result_violations (hl : layoutType l = .ok t) (hs : t.schema = .ok s) (d : Value C)
    (known : Schemas C) (next : Nat) :
    (Operation.violations.call [l, d] known next).result =
      .ok (.list 0 ((s.violations d).map (.mismatch 0))) := by
  change (violations l d).map (Datum.list 0) = _
  simp [violations, hl, DiffType.violations, hs, Except.map]

private theorem result_validate (hl : layoutType l = .ok t) (hs : t.schema = .ok s) (d : Value C)
    (known : Schemas C) (next : Nat) :
    (Operation.validate.call [l, d] known next).result =
      (s.validate d).map fun _ => .null := by
  change (layoutType l >>= fun t => t.validate d >>= fun _ => Except.ok Datum.null) = _
  rw [hl, ok_bind, DiffType.validate, hs, ok_bind]
  cases s.validate d <;> rfl

/-- The violations that a layout finds in a datum are what its schema reports. The datum is accepted
if there are none, and otherwise what validates it fails with the first. -/
theorem violations_located (hl : layoutType l = .ok t) (ht : t.Concrete) (d : Value C)
    (known : Schemas C) (next : Nat) :
    let answer (op : Operation) := (op.call [l, d] known next).result
    ∃ D vs,
      (∀ given : Schemas C, given.find? (·.1 == t) = none →
        (Operation.schema.call [l] given next).result = .ok (D.toDatum.settle next).1) ∧
      answer .violations = .ok (.list 0 (vs.map (.mismatch 0))) ∧
      AllReported D d vs ∧
      answer .accepts = .ok (.bool vs.isEmpty) ∧
      (∀ v, vs.head? = some v →
        answer .validate = .error (.contract v) ∧ answer .load = .error (.contract v)) ∧
      (vs = [] → answer .validate = .ok .null ∧ ∃ o, answer .load = .ok (.diff o)) := by
  intro answer
  obtain ⟨s, hs, hforms⟩ := ht.exists_schema (δ := Object C)
  have hvalidate : answer .validate = (s.validate d).map fun _ => .null :=
    result_validate hl hs d known next
  have hload : answer .load = (t.load d).map fun x => .diff (Object.ofDiff x next).1 :=
    result_load hl d known next
  refine ⟨s.document t.name, s.violations d, fun _ hgiven => result_schema hl hs hgiven next,
    result_violations hl hs d known next, (publishes_document s t.name).allReported d, ?_, ?_, ?_⟩
  · refine (result_accepts hl d known next).trans ?_
    rw [DiffType.accepts, hs]
    rfl
  · intro v hv
    obtain ⟨vs, hvs⟩ := List.head?_eq_some_iff.mp hv
    have herror : s.validate d = .error (.contract v) := by rw [Schema.validate, hvs]
    have hfails : t.load d = .error (.contract v) := by
      rw [DiffType.load, DiffType.validate, hs, ok_bind, herror, error_bind]
    rw [hvalidate, herror, hload, hfails]
    exact ⟨rfl, rfl⟩
  · intro hnil
    have hvalid : s.validate d = .ok () := by rw [Schema.validate, hnil]
    obtain ⟨x, hx, -⟩ : ∃ x, t.load d = .ok x ∧ Diff.Shaped IntKind.Holds t x ∧ x.HasForm d := by
      rcases ht.load_cases d with ⟨-, -, hloads⟩ | ⟨hform, -⟩
      · exact hloads
      · exact absurd ((hforms d).mp hnil) hform
    rw [hvalidate, hvalid, hload, hx]
    exact ⟨rfl, _, rfl⟩

/-- An infinite number in place of a byte breaks two keywords. The sequence has an item that is no
array and one that is too long for a tuple without components, and the pair lacks its second item,
but its first one is still looked at. -/
theorem violations_located_nested :
    let byte : DiffType specimens := .int ⟨.unsigned, .w8⟩
    let l : Value specimens :=
      .tuple 0 [.type (.diff byte), .list 0 [.tuple 0 []], .tuple 0 [.type (.diff .present),
        .type (.diff byte)]]
    let d : Value specimens :=
      .list 0 [.real (.infinite false), .list 0 [.list 0 [], .null, .list 0 [.int 7]],
        .list 0 [.bool true]]
    let at0 (name : String) : List SchemaStep := [.key "prefixItems", .index 0, .key name]
    let vs : List Violation :=
      [⟨.type, .word "integer", [0], at0 "type"⟩, ⟨.maximum, .number 255, [0], at0 "maximum"⟩,
        ⟨.type, .word "array", [1, 1], [.key "prefixItems", .index 1, .key "items", .key "type"]⟩,
        ⟨.maxItems, .number 0, [1, 2],
          [.key "prefixItems", .index 1, .key "items", .key "maxItems"]⟩,
        ⟨.minItems, .number 2, [2], [.key "prefixItems", .index 2, .key "minItems"]⟩,
        ⟨.type, .word "null", [2, 0], [.key "prefixItems", .index 2] ++ at0 "type"⟩]
    (∃ D, (Operation.schema.call [l] [] 1).result = .ok (D.toDatum.settle 1).1 ∧
      AllReported D d vs) ∧
    (Operation.violations.call [l, d] [] 1).result = .ok (.list 0 (vs.map (.mismatch 0))) ∧
    ∀ v, vs.head? = some v → (Operation.load.call [l, d] [] 1).result = .error (.contract v) := by
  intro byte l d at0 vs
  have hl : layoutType l = .ok (.tuple [byte, .vec (.tuple []), .tuple [.present, byte]]) := rfl
  have ht : (DiffType.tuple [byte, .vec (.tuple []), .tuple [.present, byte]]).Concrete :=
    .tuple (by decide) (by simp [DiffType.Concrete.pair, DiffType.Concrete.int,
      DiffType.Concrete.present, DiffType.Concrete.vec, DiffType.Concrete.tuple, byte])
  obtain ⟨D, found, hD, hfound, hall, -, hfails, -⟩ := violations_located hl ht d [] 1
  have hvs : (Operation.violations.call [l, d] [] 1).result =
      .ok (.list 0 (vs.map (.mismatch 0))) := rfl
  obtain rfl : found = vs := by
    have hlist := Except.ok.inj (hfound.symm.trans hvs)
    refine List.map_injective_iff.mpr ?_ (Datum.list.inj hlist).2
    intro v w h
    exact (Datum.mismatch.inj h).2
  exact ⟨⟨D, hD [] rfl, hall⟩, hvs, fun v hv => (hfails v hv).2⟩

end Session

end DiffAlgebra
