import DiffAlgebra.Laws.Verify
import DiffAlgebra.Proofs.Order.Comparison
import DiffAlgebra.Proofs.Text.Messages
import DiffAlgebra.Proofs.Text.Rendering

/-!
# What texts identify

Types over integers and presence markers are known from their names and values of such types from
their texts. So a broken law tells its operands and their type, and messages, titles of schemas and
reports tell the types that they are about.
-/

namespace DiffAlgebra

open Text

variable {C : Catalog}

namespace Law

variable {t u : DiffType C} {x y : Diff C} {xs ys : List (Datum C (Diff C))}

/-- A broken law writes the operand at each place as the difference that stands there is written. -/
theorem getElem?_operands_violatedBy {i : Nat} (law : Law) (h : xs[i]? = some (.diff x))
    (details : String) : (law.violatedBy xs details).operands[i]? = some x.render := by
  change (xs.map Datum.render)[i]? = _
  rw [List.getElem?_map, h]
  rfl

theorem typeName_violatedBy (law : Law) (h : xs[0]? = some (.diff x)) (details : String) :
    (law.violatedBy xs details).typeName = x.typeOf.name := by
  rw [← List.head?_eq_getElem?] at h
  rw [violatedBy, h]
  rfl

end Law

private theorem LawRun.summary_inj {t u : DiffType C} (ht : t.Concrete) (hu : u.Concrete)
    {r r' : LawRun C} (h : r.summary t.name = r'.summary u.name) : t = u := by
  have hmentioned {v : DiffType C} (hv : v.Concrete) (r : LawRun C) :
      ∃ s, (r.summary v.name).text = "Verified " ++ s ∧ DiffType.Mentioned [v] s.toList := by
    refine ⟨toString r.made ++ (" law checks for " ++ (v.name ++ (": " ++
      (toString r.found.length ++ " violations")))), ?_, ?_⟩
    · simp only [summary, String.append_assoc]
    · simp [toString, isInitial, isWordChar, hv]
  obtain ⟨s, htext, hs⟩ := hmentioned ht r
  obtain ⟨s', htext', hs'⟩ := hmentioned hu r'
  rw [h, htext', String.append_right_inj] at htext
  exact List.singleton_inj.mp (hs.unique (htext ▸ hs'))

theorem Contract.Schema.at?_title (s : Contract.Schema) (title : String) :
    (s.document title).at? [.key "title"] = some (.word title) := by
  simp [document, Document.at?, Document.step?]

namespace Session

/-- Types have one name only if they are one type, and values are written alike just if they are
equal. So the operands and the type that a broken law is reported with are known from the report,
and so are the types that messages, titles of schemas and summaries of law checks name. -/
theorem texts_identify {t u : DiffType C} (ht : t.Concrete) (hu : u.Concrete) {x y : Object C}
    (hx : Diff.InstanceOf t x.value) (hy : Diff.InstanceOf u y.value) (known : Schemas C)
    (next : Nat) :
    (t.name = u.name ↔ t = u) ∧
    (let c := Datum.compare (.diff x.value) (.diff y.value);
      (Operation.compare.call [.diff x, .diff y] known next).result = .ok c.toRecord ∧
      ((Operation.render.call [.diff x] known next).result =
        (Operation.render.call [.diff y] known next).result ↔ c.eq = true)) ∧
    (∀ (law law' : Law) (xs ys : List (Datum C (Diff C))) (details details' : String),
      (∀ i j : Nat, xs[i]? = some (.diff x.value) → ys[j]? = some (.diff y.value) →
        ((law.violatedBy xs details).operands[i]? = (law'.violatedBy ys details').operands[j]? ↔
          x.value = y.value)) ∧
      (xs[0]? = some (.diff x.value) → ys[0]? = some (.diff y.value) →
        ((law.violatedBy xs details).typeName = (law'.violatedBy ys details').typeName ↔
          x.typeOf = y.typeOf))) ∧
    (∀ (f g : Fault) (ts us : List (DiffType C)), f.About ts → g.About us →
      (∀ v ∈ ts, v.Concrete) → (∀ v ∈ us, v.Concrete) → f.message? = g.message? → ts = us) ∧
    (∀ s s' : Contract.Schema,
      (s.document t.name).at? [.key "title"] = (s'.document u.name).at? [.key "title"] ↔ t = u) ∧
    ∀ r r' : LawRun C, r.summary t.name = r'.summary u.name → t = u := by
  have hxt := hx.concrete_typeOf ht
  have hyt := hy.concrete_typeOf hu
  have hrender := Diff.render_inj hxt hx.wellTyped hyt hy.wellTyped
  refine ⟨ht.name_inj hu, ⟨rfl, ?_⟩, ?_, ?_, ?_, fun r r' => LawRun.summary_inj ht hu⟩
  · have hcall (z : Object C) :
        (Operation.render.call [.diff z] known next).result = .ok (.text z.value.render) := rfl
    rw [hcall, hcall, Except.ok.injEq, Datum.text.injEq, hrender]
    exact Datum.eq_compare.symm
  · intro law law' xs ys details details'
    refine ⟨fun i j hi hj => ?_, fun hi hj => ?_⟩
    · rw [law.getElem?_operands_violatedBy hi, law'.getElem?_operands_violatedBy hj,
        Option.some_inj, hrender]
    · rw [law.typeName_violatedBy hi, law'.typeName_violatedBy hj]
      exact hxt.name_inj hyt
  · exact fun f g ts us hf hg hts hus h => hf.unique hg hts hus h
  · intro s s'
    rw [s.at?_title, s'.at?_title, Option.some_inj, Contract.Document.word.injEq]
    exact ht.name_inj hu

/-- A sequence of one empty sequence and a sequence of one empty tuple are written apart. -/
theorem texts_identify_empty :
    let byte : DiffType specimens := .int ⟨.signed, .w8⟩
    let t : DiffType specimens := .vec (.vec byte)
    let u : DiffType specimens := .vec (.tuple [])
    let x : Object specimens := .vec 2 (some (.vec byte)) [.vec 1 (some byte) []]
    let y : Object specimens := .vec 4 (some (.tuple [])) [.tuple 3 (some []) []]
    t.name ≠ u.name ∧
      (Operation.render.call [.diff x] [] 5).result ≠
        (Operation.render.call [.diff y] [] 5).result := by
  intro byte t u x y
  have ht : t.Concrete := .vec (.vec (.int _))
  have hu : u.Concrete := .vec (.tuple (by decide) (by simp))
  have hx : Diff.InstanceOf t x.value := ⟨by decide, by decide⟩
  have hy : Diff.InstanceOf u y.value := ⟨by decide, by decide⟩
  obtain ⟨hname, ⟨-, hrender⟩, -⟩ := texts_identify ht hu hx hy [] 5
  exact ⟨hname.not.mpr (by decide), hrender.not.mpr (by decide)⟩

end Session

end DiffAlgebra
