import DiffAlgebra.Object.Update
import DiffAlgebra.Proofs.Failure
import DiffAlgebra.Proofs.Sharing.Coherence

/-!
# Operations in place, step by step

An operation in place hands out labels and changes objects. What was there when it began stays as it
is as long as it changes nothing but objects that it has made itself.
-/

namespace DiffAlgebra

variable {C : Catalog}

namespace Object

theorem after_append (cs ds : List (Object C)) (x : Object C) :
    x.after (cs ++ ds) = (x.after cs).after ds :=
  List.foldl_append

theorem label?_after (cs : List (Object C)) (x : Object C) : (x.after cs).label? = x.label? := by
  induction cs generalizing x with
  | nil => rfl
  | cons c cs ih =>
    change ((write c x).after cs).label? = _
    rw [ih, label?_write]

/-- An object stays as it is if none of its nodes is changed. -/
theorem after_eq_self {cs : List (Object C)} {x : Object C}
    (h : ∀ c ∈ cs, ∀ l, c.label? = some l → l ∉ x.labels) : x.after cs = x := by
  induction cs with
  | nil => rfl
  | cons c cs ih =>
    have hwrite : write c x = x := by
      refine write_eq_self fun y hy => ?_
      rintro ⟨l, hc, hl⟩
      exact h c List.mem_cons_self l hc (mem_labels_iff.mpr ⟨y, hy, hl⟩)
    change (write c x).after cs = x
    rw [hwrite]
    exact ih fun d hd => h d (List.mem_cons_of_mem _ hd)

/-- An object that has been changed last has the contents that it was given. -/
theorem after_concat {cs : List (Object C)} {x new : Object C} {l : Nat}
    (hnew : new.label? = some l) (hx : x.label? = some l) : x.after (cs ++ [new]) = new := by
  rw [after_append]
  exact write_of_label hnew ((label?_after cs x).trans hx)

theorem parts_after {cs : List (Object C)} {x : Object C} (h : ∀ c ∈ cs, ¬ Hits c x) :
    (x.after cs).parts = x.parts.map (after cs) := by
  induction cs generalizing x with
  | nil => exact (List.map_id _).symm
  | cons c cs ih =>
    have hrest (d : Object C) (hd : d ∈ cs) : ¬ Hits d (write c x) := by
      simpa [Hits] using h d (List.mem_cons_of_mem _ hd)
    change ((write c x).after cs).parts = _
    rw [ih hrest, parts_write (h c List.mem_cons_self), List.map_map]
    rfl

private theorem content_after {cs : List (Object C)} {x : Object C} (h : ∀ c ∈ cs, ¬ Hits c x) :
    (x.after cs).content = x.content := by
  induction cs generalizing x with
  | nil => rfl
  | cons c cs ih =>
    have hrest (d : Object C) (hd : d ∈ cs) : ¬ Hits d (write c x) := by
      simpa [Hits] using h d (List.mem_cons_of_mem _ hd)
    change ((write c x).after cs).content = _
    rw [ih hrest, content_write (h c List.mem_cons_self)]

private theorem eq_of_content_eq {x y : Object C} (hlabel : x.label? = y.label?)
    (hcontent : x.content = y.content) (hparts : x.parts = y.parts) : x = y := by
  cases x <;> cases y <;> simp_all [label?, content, parts]

/-- Of an object that is changed, only its label matters to what it becomes. -/
theorem after_congr {cs : List (Object C)} {c x y : Object C} (hc : c ∈ cs) (hx : Hits c x)
    (hxy : x.label? = y.label?) : x.after cs = y.after cs := by
  induction cs generalizing x y with
  | nil => cases hc
  | cons d cs ih =>
    change (write d x).after cs = (write d y).after cs
    by_cases hd : Hits d x
    · obtain ⟨l, hdl, hxl⟩ := hd
      rw [write_of_label hdl hxl, write_of_label hdl (hxy.symm.trans hxl)]
    · rcases List.mem_cons.mp hc with rfl | hc
      · exact absurd hx hd
      · exact ih hc (by simpa [Hits] using hx) (by simpa using hxy)

/-- Changes that have been made already change nothing more. -/
theorem after_after (cs : List (Object C)) (x : Object C) : (x.after cs).after cs = x.after cs := by
  induction x using parts_induction with
  | step x ih =>
    by_cases h : ∃ c ∈ cs, Hits c x
    · obtain ⟨c, hc, hx⟩ := h
      exact (after_congr hc hx (label?_after cs x).symm).symm
    · have hx (c : Object C) (hc : c ∈ cs) : ¬ Hits c x := fun hx => h ⟨c, hc, hx⟩
      have hagain (c : Object C) (hc : c ∈ cs) : ¬ Hits c (x.after cs) := by
        simpa [Hits, label?_after] using hx c hc
      refine eq_of_content_eq (label?_after _ _) (content_after hagain) ?_
      rw [parts_after hagain, parts_after hx, List.map_map]
      exact List.map_congr_left ih

theorem labelsAll_append (xs ys : List (Object C)) :
    labelsAll (xs ++ ys) = labelsAll xs ++ labelsAll ys := by
  simp [labelsAll_eq_flatMap]

theorem labels_eq (x : Object C) : x.labels = x.label?.toList ++ labelsAll x.parts := by
  cases x <;> rfl

/-- Labels from `next` on and below `last`, none of them twice. -/
structure OwnLabels (next last : Nat) (ls : List Nat) : Prop where
  le : next ≤ last
  nodup : ls.Nodup
  mem : ∀ l ∈ ls, next ≤ l ∧ l < last

theorem OwnLabels.append {next mid last : Nat} {ls ms : List Nat} (h : OwnLabels next mid ls)
    (h' : OwnLabels mid last ms) : OwnLabels next last (ls ++ ms) where
  le := h.le.trans h'.le
  nodup := by
    refine List.nodup_append.mpr ⟨h.nodup, h'.nodup, fun l hl m hm => ?_⟩
    have hlt := (h.mem l hl).2
    have hle := (h'.mem m hm).1
    omega
  mem := by
    intro l hl
    have hle := h.le
    have hle' := h'.le
    rcases List.mem_append.mp hl with hl | hl
    · have := h.mem l hl
      omega
    · have := h'.mem l hl
      omega

theorem OwnLabels.mono {next mid last : Nat} {ls : List Nat} (h : OwnLabels mid last ls)
    (hle : next ≤ mid) : OwnLabels next last ls :=
  ⟨hle.trans h.le, h.nodup, fun l hl => ⟨hle.trans (h.mem l hl).1, (h.mem l hl).2⟩⟩

theorem OwnLabels.cons {next last : Nat} {ls : List Nat} (h : OwnLabels (next + 1) last ls) :
    OwnLabels next last (next :: ls) := by
  have hone : OwnLabels next (next + 1) [next] :=
    ⟨Nat.le_succ next, by simp, by simp⟩
  exact hone.append h

theorem OwnLabels.nil (next : Nat) : OwnLabels next next [] :=
  ⟨Nat.le_refl next, List.nodup_nil, by simp⟩

mutual

theorem ownLabels_ofDiff : (d : Diff C) → (next : Nat) →
    OwnLabels next (ofDiff d next).2 (ofDiff d next).1.labels
  | .int _ _, next | .custom _ _, next => (OwnLabels.nil (next + 1)).cons
  | .present, next => .nil next
  | .tuple _ ds, next | .vec _ ds, next => (ownLabels_ofDiffs ds (next + 1)).cons

theorem ownLabels_ofDiffs : (ds : List (Diff C)) → (next : Nat) →
    OwnLabels next (ofDiffs ds next).2 (labelsAll (ofDiffs ds next).1)
  | [], next => .nil next
  | d :: ds, next => (ownLabels_ofDiff d next).append (ownLabels_ofDiffs ds _)

end

private theorem labels_eq_filterMap (x : Object C) : x.labels = x.nodes.filterMap label? := by
  induction x using parts_induction with
  | step x ih =>
    have hparts : labelsAll x.parts = (nodesAll x.parts).filterMap label? := by
      rw [labelsAll_eq_flatMap, nodesAll_eq_flatMap, List.filterMap_flatMap]
      exact List.flatMap_congr ih
    rw [labels_eq, nodes_eq, hparts]
    cases h : x.label? <;> simp [h]

theorem labelsAll_eq_filterMap (xs : List (Object C)) :
    labelsAll xs = (nodesAll xs).filterMap label? := by
  rw [labelsAll_eq_flatMap, nodesAll_eq_flatMap, List.filterMap_flatMap]
  exact List.flatMap_congr fun x _ => labels_eq_filterMap x

private theorem eq_of_nodup_filterMap {α β : Type} {f : α → Option β} {as : List α}
    (h : (as.filterMap f).Nodup) {a a' : α} {b : β} (ha : a ∈ as) (ha' : a' ∈ as)
    (hb : f a = some b) (hb' : f a' = some b) : a = a' := by
  induction as with
  | nil => cases ha
  | cons c as ih =>
    have hmem {e : α} (he : e ∈ as) (heb : f e = some b) : b ∈ as.filterMap f :=
      List.mem_filterMap.mpr ⟨e, he, heb⟩
    rcases List.mem_cons.mp ha with rfl | has
    · rcases List.mem_cons.mp ha' with rfl | has'
      · rfl
      · simp [hb, hmem has' hb'] at h
    · rcases List.mem_cons.mp ha' with rfl | has'
      · simp [hb', hmem has hb] at h
      · refine ih ?_ has has'
        exact h.sublist ((List.sublist_cons_self c as).filterMap f)

theorem OwnLabels.coherent {next last : Nat} {xs : List (Object C)}
    (h : OwnLabels next last (labelsAll xs)) : Coherent last (nodesAll xs) := by
  have hnodup := h.nodup
  rw [labelsAll_eq_filterMap] at hnodup
  constructor
  · intro y l hy hl
    refine (h.mem l ?_).2
    rw [labelsAll_eq_filterMap]
    exact List.mem_filterMap.mpr ⟨y, hy, hl⟩
  · intro y z l hy hz hyl hzl
    exact eq_of_nodup_filterMap hnodup hy hz hyl hzl

/-- Labels that are handed out later are not in use in a coherent pool. -/
theorem OwnLabels.fresh {next last : Nat} {ls : List Nat} {pool : List (Object C)}
    (h : OwnLabels next last ls) (hpool : Coherent next pool) :
    ∀ y ∈ pool, ∀ l ∈ ls, y.label? ≠ some l :=
  fun _ hy l hl hyl => absurd (hpool.label_lt hy hyl) (Nat.not_lt.mpr (h.mem l hl).1)

/-- New objects join every coherent pool. -/
theorem OwnLabels.joins {next last : Nat} {xs pool : List (Object C)}
    (h : OwnLabels next last (labelsAll xs)) (hpool : Coherent next pool) :
    Joins pool next (nodesAll xs) last := by
  have hfresh {y : Object C} {l : Nat} (hy : y ∈ nodesAll xs) (hl : y.label? = some l) :
      next ≤ l := by
    refine (h.mem l ?_).1
    rw [labelsAll_eq_filterMap]
    exact List.mem_filterMap.mpr ⟨y, hy, hl⟩
  have hnew := h.coherent
  refine ⟨h.le, fun hy => Or.inr fun l hl => hfresh hy hl, ?_, ?_⟩
  · intro y l hy hl
    rcases List.mem_append.mp hy with hy | hy
    · exact (hpool.label_lt hy hl).trans_le h.le
    · exact hnew.label_lt hy hl
  · intro y z l hy hz hyl hzl
    rcases List.mem_append.mp hy with hy | hy <;> rcases List.mem_append.mp hz with hz | hz
    · exact hpool.eq_of_label hy hz hyl hzl
    · exact absurd (hpool.label_lt hy hyl) (Nat.not_lt.mpr (hfresh hz hzl))
    · exact absurd (hpool.label_lt hz hzl) (Nat.not_lt.mpr (hfresh hy hyl))
    · exact hnew.eq_of_label hy hz hyl hzl

end Object

namespace Progress

def Valid (s : Progress C) : Prop := ∀ c ∈ s.changes, ∀ l, c.label? = some l → l < s.next

/-- From `s` to `t`, nothing is changed but objects with labels in `ls` and new objects. -/
structure Extends (ls : List Nat) (s t : Progress C) : Prop where
  le : s.next ≤ t.next
  changes : ∃ cs, t.changes = s.changes ++ cs ∧
    ∀ c ∈ cs, ∀ l, c.label? = some l → l ∈ ls ∨ s.next ≤ l ∧ l < t.next

/-- The nodes are of objects that there are and that have not been changed. -/
structure Settled (s : Progress C) (ys : List (Object C)) : Prop where
  lt : ∀ {y l}, y ∈ ys → y.label? = some l → l < s.next
  unchanged : ∀ {y l c}, y ∈ ys → y.label? = some l → c ∈ s.changes → c.label? ≠ some l

/-- The nodes are of objects without labels in `ls`. -/
def Apart (ls : List Nat) (ys : List (Object C)) : Prop := ∀ y ∈ ys, ∀ l ∈ ls, y.label? ≠ some l

variable {s t u : Progress C} {ls ms : List Nat} {xs ys : List (Object C)}

theorem Extends.refl (ls : List Nat) (s : Progress C) : Extends ls s s :=
  ⟨Nat.le_refl _, [], (List.append_nil _).symm, by simp⟩

theorem Extends.handOut (ls : List Nat) {n : Nat} (h : s.next ≤ n) :
    Extends ls s { s with next := n } :=
  ⟨h, [], (List.append_nil _).symm, by simp⟩

theorem Extends.trans (h : Extends ls s t) (h' : Extends ms t u)
    (hms : ∀ l ∈ ms, l ∈ ls ∨ s.next ≤ l ∧ l < t.next) : Extends ls s u where
  le := h.le.trans h'.le
  changes := by
    obtain ⟨cs, hcs, hmem⟩ := h.changes
    obtain ⟨ds, hds, hmem'⟩ := h'.changes
    refine ⟨cs ++ ds, by rw [hds, hcs, List.append_assoc], fun c hc l hl => ?_⟩
    have hle := h.le
    have hle' := h'.le
    rcases List.mem_append.mp hc with hc | hc
    · refine (hmem c hc l hl).imp_right fun hl => ?_
      omega
    · rcases hmem' c hc l hl with hl | hl
      · refine (hms l hl).imp_right fun hl => ?_
        omega
      · refine Or.inr ?_
        omega

theorem Extends.mono (h : Extends ls s t) (hsub : ls ⊆ ms) : Extends ms s t := by
  obtain ⟨cs, hcs, hmem⟩ := h.changes
  exact ⟨h.le, cs, hcs, fun c hc l hl => (hmem c hc l hl).imp_left (hsub ·)⟩

theorem Valid.extends (hs : s.Valid) (h : Extends ls s t) (hls : ∀ l ∈ ls, l < s.next) :
    t.Valid := by
  obtain ⟨cs, hcs, hmem⟩ := h.changes
  have hle := h.le
  intro c hc l hl
  rw [hcs] at hc
  rcases List.mem_append.mp hc with hc | hc
  · exact (hs c hc l hl).trans_le hle
  · rcases hmem c hc l hl with hl | hl
    · exact (hls l hl).trans_le hle
    · exact hl.2

theorem Valid.settled (hs : s.Valid) {n : Nat}
    (h : ∀ y ∈ ys, ∀ l, y.label? = some l → s.next ≤ l ∧ l < n) :
    Settled { s with next := n } ys :=
  ⟨fun hy hl => (h _ hy _ hl).2, fun hy hl hc hcl =>
    absurd (hs _ hc _ hcl) (Nat.not_lt.mpr (h _ hy _ hl).1)⟩

theorem Settled.mono (h : s.Settled ys) (hsub : xs ⊆ ys) : s.Settled xs :=
  ⟨fun hy => h.lt (hsub hy), fun hy => h.unchanged (hsub hy)⟩

/-- What is settled remains so as long as it is not among what may be changed. -/
theorem Settled.extends (h : s.Settled ys) (hext : Extends ls s t)
    (hls : Apart ls ys) : t.Settled ys where
  lt hy hl := (h.lt hy hl).trans_le hext.le
  unchanged := by
    intro y l c hy hl hc hcl
    obtain ⟨cs, hcs, hmem⟩ := hext.changes
    have hlt := h.lt hy hl
    rw [hcs] at hc
    rcases List.mem_append.mp hc with hc | hc
    · exact h.unchanged hy hl hc hcl
    · rcases hmem c hc l hcl with hmem | hmem
      · exact hls y hy l hmem hl
      · omega

theorem Settled.lt_of_mem_labelsAll (h : s.Settled (Object.nodesAll xs)) {l : Nat}
    (hl : l ∈ Object.labelsAll xs) : l < s.next := by
  rw [Object.labelsAll_eq_filterMap] at hl
  obtain ⟨y, hy, hyl⟩ := List.mem_filterMap.mp hl
  exact h.lt hy hyl

theorem apart_nil (ys : List (Object C)) : Apart [] ys := by simp [Apart]

theorem Settled.apart (h : s.Settled ys) (hls : ∀ l ∈ ls, s.next ≤ l) : Apart ls ys :=
  fun _ hy l hl hyl => absurd (h.lt hy hyl) (Nat.not_lt.mpr (hls l hl))

theorem Apart.mono (h : Apart ls ys) (hls : ms ⊆ ls) (hys : xs ⊆ ys) : Apart ms xs :=
  fun y hy l hl => h y (hys hy) l (hls hl)

theorem Settled.after_eq {x : Object C} (h : s.Settled x.nodes) : x.after s.changes = x := by
  refine Object.after_eq_self fun c hc l hcl hl => ?_
  obtain ⟨y, hy, hyl⟩ := Object.mem_labels_iff.mp hl
  exact h.unchanged hy hyl hc hcl

end Progress

theorem Progress.Settled.map_eq {s : Progress C} {v : Value C} (h : s.Settled v.nodes) :
    v.map (Object.after s.changes) = v :=
  Datum.map_eq_self fun _ hx => Settled.after_eq (h.mono fun _ hy => Datum.mem_nodes_trans hx hy)

/-- Where nothing has been changed yet, the nodes of a coherent pool are settled. -/
theorem Coherent.settled {next : Nat} {ys : List (Object C)} (h : Coherent next ys) :
    Progress.Settled ⟨[], next⟩ ys :=
  ⟨h.label_lt, fun _ _ hc => absurd hc List.not_mem_nil⟩

theorem Progress.valid_start (next : Nat) : Valid (⟨[], next⟩ : Progress C) :=
  fun _ hc => absurd hc List.not_mem_nil

end DiffAlgebra
