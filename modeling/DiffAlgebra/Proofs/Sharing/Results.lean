import DiffAlgebra.Proofs.Sharing.InPlace

/-!
# What operations in place come to

An operation on objects gives what the same operation on their values gives, and fails as that
fails. The objects may share components: what an operand reaches is read before anything is changed.
-/

namespace DiffAlgebra

variable {C : Catalog}

def Outcome.leaves (o : Outcome C) (x : Object C) : Except Fault (Diff C) :=
  o.result.map fun _ => (x.writes o.writes).value

theorem Progress.settled_of_labels_lt {xs : List (Object C)} {next : Nat}
    (h : ∀ l ∈ Object.labelsAll xs, l < next) : Settled ⟨[], next⟩ (Object.nodesAll xs) := by
  refine ⟨fun hy hl => h _ ?_, fun _ _ hc => absurd hc List.not_mem_nil⟩
  rw [Object.labelsAll_eq_filterMap]
  exact List.mem_filterMap.mpr ⟨_, hy, hl⟩

namespace Session

variable {x y : Object C} {next : Nat}

theorem leaves_inPlace {r : Except Fault (Diff C)} {m : UpdateM C Unit}
    (h : Object.Renews x.label? r m ⟨[], next⟩) :
    (inPlace m (fun _ => .null) next).leaves x = r := by
  rcases h with ⟨f, u, rfl, hrun, -⟩ | ⟨z, new, u, rfl, hnew, -, hrun⟩
  · simp [inPlace, Outcome.leaves, hrun]
  · simp only [inPlace, Outcome.leaves, hrun, ok_map, Object.writes_object,
      Object.after_commit _ hnew.label_eq, hnew.value_eq]

/-- Adding an object in place leaves the receiver with the sum of the values. -/
theorem leaves_plusEquals (hy : ∀ l ∈ y.labels, l < next) :
    (plusEquals (.diff x) (.diff y) next).leaves x = x.value.plus (.diff y.value) := by
  have hlabels : ∀ l ∈ Object.labelsAll [y], l < next := by simpa [Object.labelsAll] using hy
  have hsettled := Progress.settled_of_labels_lt hlabels
  have hnodes : Progress.Settled ⟨[], next⟩ y.nodes := by
    simpa [Object.nodesAll] using hsettled
  exact leaves_inPlace (x.renews_plusEquals (v := .diff y) (Progress.valid_start next) hnodes)

theorem leaves_negate : (negate (.diff x) next).leaves x = x.value.negate :=
  leaves_inPlace (x.renews_negate (Progress.valid_start next))

/-- A sum of data is a new object whose value is the sum of their values. -/
theorem exists_accumulate {v : Value C} {vs : List (Value C)} (hv : v.items = .ok vs)
    (hvs : Progress.Settled ⟨[], next⟩ (Datum.nodesAll vs)) :
    ∃ r : Except Fault (Object C), (accumulate v next).result = r.map .diff ∧
      Diff.accumulate (vs.map Datum.values) = r.map Object.value := by
  obtain ⟨u, -, hresult⟩ := Object.run_accumulate vs (Progress.valid_start next) hvs
  rcases hresult with ⟨f, hf, hrun⟩ | ⟨z, hz, hrun, -, -⟩
  · exact ⟨.error f, by simp [accumulate, hv, inPlace, hrun], hf⟩
  · exact ⟨.ok z, by simp [accumulate, hv, inPlace, hrun], hz⟩

/-- The sum of objects is a new object whose value is the sum of their values. -/
theorem accumulate_eq {v : Value C} {xs : List (Object C)} (hv : v.items = .ok (xs.map .diff))
    (hxs : ∀ l ∈ Object.labelsAll xs, l < next) :
    ∃ r : Except Fault (Object C), (accumulate v next).result = r.map .diff ∧
      Diff.accumulate ((xs.map Object.value).map .diff) = r.map Object.value := by
  have hvalues : (xs.map .diff).map Datum.values = (xs.map Object.value).map Datum.diff := by
    rw [List.map_map, List.map_map]
    rfl
  rw [← hvalues]
  refine exists_accumulate hv ((Progress.settled_of_labels_lt hxs).mono fun y hy => ?_)
  obtain ⟨d, hd, hyd⟩ := Datum.mem_nodesAll.mp hy
  obtain ⟨x, hx, rfl⟩ := List.mem_map.mp hd
  exact Object.mem_nodesAll.mpr ⟨x, hx, hyd⟩

end Session

end DiffAlgebra
