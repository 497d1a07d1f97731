import DiffAlgebra.Proofs.Sharing.Laws

/-!
# Operations keep a pool coherent

Every operation on data of a coherent pool is sound. Most only look at their operands, and what they
give is plain or taken from the operands; the others build objects, copy some, or make admissible
changes.
-/

namespace DiffAlgebra

variable {C : Catalog}

open Datum (Bare nodesAll mem_nodesAll)

theorem Slice.select_subset {α : Type} (s : Slice) (xs : List α) : s.select xs ⊆ xs := by
  intro x hx
  obtain ⟨i, _, hi⟩ := List.mem_filterMap.mp hx
  exact List.mem_of_getElem? hi

namespace Datum

private theorem insertSorted_subset {x : Value C} {xs ys : List (Value C)}
    (h : insertSorted x xs = .ok ys) : ys ⊆ x :: xs := by
  induction xs generalizing ys with
  | nil =>
    cases h
    exact List.Subset.refl _
  | cons y xs ih =>
    obtain ⟨b, _, h⟩ := bind_eq_ok.mp h
    split at h
    · cases h
      exact List.Subset.refl _
    · obtain ⟨zs, hzs, h⟩ := bind_eq_ok.mp h
      cases h
      intro z hz
      rcases List.mem_cons.mp hz with rfl | hz
      · simp
      · rcases List.mem_cons.mp (ih hzs hz) with rfl | hz
        · simp
        · simp [hz]

theorem sort_subset {xs ys : List (Value C)} (h : sort xs = .ok ys) : ys ⊆ xs := by
  have hfold (xs : List (Value C)) : ∀ {zs ys : List (Value C)},
      xs.foldlM (fun sorted x => insertSorted x sorted) zs = .ok ys → ys ⊆ zs ++ xs := by
    induction xs with
    | nil =>
      intro zs ys h
      cases h
      simp
    | cons x xs ih =>
      intro zs ys h
      rw [List.foldlM_cons] at h
      obtain ⟨us, hus, h⟩ := bind_eq_ok.mp h
      intro y hy
      rcases List.mem_append.mp (ih h hy) with hy | hy
      · rcases List.mem_cons.mp (insertSorted_subset hus hy) with rfl | hy
        · simp
        · simp [hy]
      · simp [hy]
  exact hfold xs h

private theorem nodesAll_reversed {v : Value C} {vs : List (Value C)} (h : v.reversed = .ok vs) :
    nodesAll vs ⊆ v.nodes := by
  have hreverse (us : List (Value C)) : us.reverse ⊆ us := fun u hu => List.mem_reverse.mp hu
  unfold reversed at h
  split at h
  · obtain ⟨us, hus, h⟩ := bind_eq_ok.mp h
    cases h
    exact List.Subset.trans (nodesAll_mono (hreverse us)) (nodesAll_items hus)
  · obtain ⟨us, hus, h⟩ := bind_eq_ok.mp h
    cases h
    exact List.Subset.trans (nodesAll_mono (hreverse us)) (nodesAll_sequence hus)

theorem nodesAll_map_diff {x : Object C} {xs : List (Object C)} (h : xs ⊆ x.parts) :
    nodesAll (xs.map diff) ⊆ x.nodes := by
  refine nodesAll_subset fun u hu y hy => ?_
  obtain ⟨p, hp, rfl⟩ := List.mem_map.mp hu
  exact Object.mem_nodes_of_mem_parts (h hp) hy

end Datum

namespace Session

open Outcome (Sound Looks)

variable {pool : List (Value C)} {next : Nat}

private theorem sound_coerce (hpool : Coherent next (nodesAll pool)) (t : Value C) {x : Value C}
    (hx : x.nodes ⊆ nodesAll pool) : Sound pool next (coerce t x next) := by
  refine Outcome.sound_made hpool fun h => ?_
  obtain ⟨t, _, h⟩ := bind_eq_ok.mp h
  obtain ⟨d, hd, h⟩ := bind_eq_ok.mp h
  cases h
  exact Object.joins_ofDraft d (List.Subset.trans (Draft.givenNodes_coerce t hd) hx) hpool

private theorem sound_zero (hpool : Coherent next (nodesAll pool)) (t : Value C) :
    Sound pool next (zero t next) := by
  unfold zero
  split
  · exact Outcome.sound_built hpool _
  · exact (Outcome.looks_plain (Returns.ok Datum.bare_null).plain).sound hpool
  · exact (Outcome.looks_failed _).sound hpool

private theorem sound_plusEquals (hpool : Coherent next (nodesAll pool)) {x operand : Value C}
    (hx : x.nodes ⊆ nodesAll pool) (hop : operand.nodes ⊆ nodesAll pool) :
    Sound pool next (plusEquals x operand next) := by
  unfold plusEquals
  split
  · exact (Outcome.looks_failed _).sound hpool
  next o ho =>
    rw [Datum.eq_diff_of_receiver ho] at hx
    exact sound_inPlace hpool hx
      (o.renews_plusEquals (Progress.valid_start next) (hpool.settled.mono hop))

private theorem sound_negate (hpool : Coherent next (nodesAll pool)) {x : Value C}
    (hx : x.nodes ⊆ nodesAll pool) : Sound pool next (negate x next) := by
  unfold negate
  split
  · exact (Outcome.looks_failed _).sound hpool
  next o ho =>
    rw [Datum.eq_diff_of_receiver ho] at hx
    exact sound_inPlace hpool hx (o.renews_negate (Progress.valid_start next))

private theorem sound_accumulate (hpool : Coherent next (nodesAll pool)) {x : Value C}
    (hx : x.nodes ⊆ nodesAll pool) : Sound pool next (accumulate x next) := by
  unfold accumulate
  split
  · exact (Outcome.looks_failed _).sound hpool
  next vs hvs =>
    exact sound_accumulate_items hpool (List.Subset.trans (Datum.nodesAll_items hvs) hx)

private theorem sound_multiply (hpool : Coherent next (nodesAll pool)) {x operand : Value C}
    (hx : x.nodes ⊆ nodesAll pool) (hop : operand.nodes ⊆ nodesAll pool) :
    Sound pool next (multiply x operand next) := by
  unfold multiply
  split
  · exact (Outcome.looks_failed _).sound hpool
  next o ho =>
    rw [Datum.eq_diff_of_receiver ho] at hx
    obtain ⟨hle, hcoherent⟩ := coherent_multiply hpool (x := o) hx hop
    refine ⟨hle, ?_⟩
    simpa [Outcome.data] using hcoherent

private theorem sound_clone (hpool : Coherent next (nodesAll pool)) (x : Value C) :
    Sound pool next (clone x next) := by
  refine Outcome.sound_made hpool fun h => ?_
  obtain ⟨o, _, h⟩ := bind_eq_ok.mp h
  obtain ⟨y, hy, h⟩ := bind_eq_ok.mp h
  obtain ⟨z, _, hz⟩ := bind_eq_ok.mp hy
  cases hz
  cases h
  exact Object.joins_ofDiff z hpool

/-- A range of a sequence is a new object, and other ranges consist of what they are taken from. -/
theorem slice_cases {x : Value C} (hx : x.nodes ⊆ nodesAll pool) (bounds : List (Value C)) :
    (∃ l t xs, x = .diff (.vec l t xs)) ∨ Looks pool next (slice x bounds next) := by
  have hselect (s : Slice) (xs : List (Value C)) (hxs : nodesAll xs ⊆ nodesAll pool) :
      nodesAll (s.select xs) ⊆ nodesAll pool :=
    List.Subset.trans (Datum.nodesAll_mono (s.select_subset xs)) hxs
  unfold slice
  split
  · exact .inl ⟨_, _, _, rfl⟩
  all_goals refine .inr ?_
  · refine Outcome.looks_listed fun h => ?_
    obtain ⟨s, _, h⟩ := bind_eq_ok.mp h
    cases h
    exact List.Subset.trans (Datum.nodesAll_map_diff (s.select_subset _)) hx
  · refine Outcome.looks_listed fun h => ?_
    obtain ⟨s, _, h⟩ := bind_eq_ok.mp h
    cases h
    exact hselect s _ hx
  · refine Outcome.looks_shown fun h => ?_
    obtain ⟨s, _, h⟩ := bind_eq_ok.mp h
    cases h
    exact hselect s _ hx
  · exact Outcome.looks_plain (Returns.bind (fun _ => .ok (Datum.bare_text _)) _).plain
  · exact Outcome.looks_plain (Returns.bind (fun _ => .ok (Datum.bare_bytes _)) _).plain
  · exact Outcome.looks_failed _

private theorem nodes_asTuple {x v : Value C} (h : asTuple x = .ok v) : v.nodes ⊆ x.nodes := by
  obtain ⟨o, ho, h⟩ := bind_eq_ok.mp h
  rw [Datum.eq_diff_of_receiver ho]
  split at h
  · cases h
    exact Datum.nodesAll_map_diff (List.Subset.refl _)
  · cases h

private theorem sound_decode (hpool : Coherent next (nodesAll pool)) (l data : Value C)
    (limit : Option (Value C)) : Sound pool next (decode l data limit next) := by
  unfold decode
  dsimp only
  split
  · exact Outcome.sound_built hpool _
  next f _ =>
    have hlooks : Looks pool next
        { result := .error f, log := f.logLine?.toList, next := next } :=
      ⟨Nat.le_refl _, rfl, List.nil_subset _⟩
    exact hlooks.sound hpool

/-- A schema has been given out before, or holds no objects. -/
theorem nodes_givenSchema {known : Schemas C} {t : DiffType C} {d : Value C} {last : Nat}
    (h : givenSchema known t next = .ok (d, last)) :
    next ≤ last ∧ d.nodes ⊆ nodesAll (known.map (·.2)) := by
  unfold givenSchema at h
  split at h
  next hfind =>
    cases h
    refine ⟨Nat.le_refl _, fun y hy => mem_nodesAll.mpr ⟨d, ?_, hy⟩⟩
    exact List.mem_map.mpr ⟨_, List.mem_of_find?_eq_some hfind, rfl⟩
  · obtain ⟨s, _, h⟩ := bind_eq_ok.mp h
    have h := Except.ok.inj h
    rw [Prod.ext_iff] at h
    obtain ⟨rfl, rfl⟩ := h
    refine ⟨Datum.le_settle _ _, ?_⟩
    rw [Datum.nodes_settle, (Contract.Document.bare_toDatum _).nodes_eq]
    exact List.nil_subset _

theorem looks_giveSchema {known : Schemas C} (hknown : nodesAll (known.map (·.2)) ⊆ nodesAll pool)
    {present : DiffType C → Value C → Value C} (hpresent : ∀ t d, (present t d).nodes = d.nodes)
    (l : Value C) : Looks pool next (giveSchema present known l next) := by
  unfold giveSchema
  dsimp only
  split
  next t d last h =>
    obtain ⟨u, _, h⟩ := bind_eq_ok.mp h
    obtain ⟨⟨e, last'⟩, he, h⟩ := bind_eq_ok.mp h
    cases h
    obtain ⟨hle, hd⟩ := nodes_givenSchema he
    have hd := List.Subset.trans hd hknown
    refine ⟨hle, rfl, ?_⟩
    simpa [Outcome.data, yields, nodesAll, hpresent] using hd
  · exact Outcome.looks_failed _

end Session

namespace Operation

open Outcome (Sound Looks)

variable {pool : List (Value C)} {next : Nat}

/-- What an operation on data of a pool comes to: it only looks at them, or it is one of those that
build objects, copy some or change some. -/
inductive Effect (pool : List (Value C)) (next : Nat) : Outcome C → Prop where
  | looks {o : Outcome C} (h : Looks pool next o) : Effect pool next o
  | coerce (t : Value C) {x : Value C} (hx : x.nodes ⊆ nodesAll pool) :
      Effect pool next (Session.coerce t x next)
  | zero (t : Value C) : Effect pool next (Session.zero t next)
  | plusEquals {x y : Value C} (hx : x.nodes ⊆ nodesAll pool) (hy : y.nodes ⊆ nodesAll pool) :
      Effect pool next (Session.plusEquals x y next)
  | negate {x : Value C} (hx : x.nodes ⊆ nodesAll pool) : Effect pool next (Session.negate x next)
  | multiply {x y : Value C} (hx : x.nodes ⊆ nodesAll pool) (hy : y.nodes ⊆ nodesAll pool) :
      Effect pool next (Session.multiply x y next)
  | clone {x : Value C} (hx : x.nodes ⊆ nodesAll pool) : Effect pool next (Session.clone x next)
  | sliceVec {l : Nat} {t : Option (DiffType C)} {xs : List (Object C)}
      (hx : (Datum.diff (.vec l t xs)).nodes ⊆ nodesAll pool) (bounds : List (Value C)) :
      Effect pool next (Session.slice (.diff (.vec l t xs)) bounds next)
  | copy {x : Value C} (hx : x.nodes ⊆ nodesAll pool) :
      Effect pool next (.made next (x.copy next))
  | deepCopy {x : Value C} (hx : x.nodes ⊆ nodesAll pool) :
      Effect pool next (.made next (x.deepCopy next))
  | archive {x : Value C} (hx : x.nodes ⊆ nodesAll pool) (version : Value C) :
      Effect pool next (.made next do
        Session.checkVersion version
        x.archive next)
  | decode (l data : Value C) (limit : Option (Value C)) :
      Effect pool next (Session.decode l data limit next)
  | load (l data : Value C) : Effect pool next (Session.load l data next)
  | accumulate {x : Value C} (hx : x.nodes ⊆ nodesAll pool) :
      Effect pool next (Session.accumulate x next)
  | checkLaw {α : Type} {rel : Option LawViolation → α → Progress C → Prop} {a : Except Fault α}
      {m : UpdateM C (Option LawViolation)} (hm : Mirrors rel a m ⟨[], next⟩) :
      Effect pool next (Session.checkLaw m next)
  | checkMultiplyPurity {x y : Value C} (hx : x.nodes ⊆ nodesAll pool)
      (hy : y.nodes ⊆ nodesAll pool) : Effect pool next (Session.checkMultiplyPurity x y next)
  | verifyLaws {samples config : Value C} (hs : samples.nodes ⊆ nodesAll pool)
      (hc : config.nodes ⊆ nodesAll pool) :
      Effect pool next (Session.verifyLaws samples config next)

theorem effect_call (op : Operation) {args : List (Value C)} {known : Schemas C}
    (hpool : Coherent next (nodesAll pool)) (hargs : nodesAll args ⊆ nodesAll pool)
    (hknown : nodesAll (known.map (·.2)) ⊆ nodesAll pool) :
    Effect pool next (op.call args known next) := by
  have hmem {v : Value C} (hv : v ∈ args) : v.nodes ⊆ nodesAll pool :=
    List.Subset.trans (Datum.nodes_subset_nodesAll hv) hargs
  have hbare {r : Except Fault (Value C)} (h : Returns Bare r) :
      Effect pool next (.shown next r) := .looks (Outcome.looks_plain h.plain)
  have hvalid := Progress.valid_start (C := C) next
  have hsettled {v : Value C} (hv : v ∈ args) : Progress.Settled ⟨[], next⟩ v.nodes :=
    hpool.settled.mono (hmem hv)
  unfold call
  split
  case h_1 x => exact .looks (Outcome.looks_shown fun h => by cases h; exact hmem (by simp))
  case h_2 => exact .coerce _ (hmem (by simp))
  case h_3 => exact .zero _
  case h_4 => exact .plusEquals (hmem (by simp)) (hmem (by simp))
  case h_5 => exact .negate (hmem (by simp))
  case h_6 => exact .multiply (hmem (by simp)) (hmem (by simp))
  case h_7 => exact hbare (Session.bare_isZero _)
  case h_8 => exact .clone (hmem (by simp))
  case h_11 =>
    exact .looks (Outcome.looks_listed fun h =>
      List.Subset.trans (Datum.nodesAll_items h) (hmem (by simp)))
  case h_13 x bounds =>
    have hx : x.nodes ⊆ nodesAll pool := hmem (by simp)
    rcases Session.slice_cases hx bounds with ⟨l, t, xs, rfl⟩ | h
    · exact .sliceVec hx bounds
    · exact .looks h
  case h_14 =>
    exact .looks (Outcome.looks_listed fun h =>
      List.Subset.trans (Datum.nodesAll_reversed h) (hmem (by simp)))
  case h_17 => exact hbare (Session.bare_index _ _ _)
  case h_18 =>
    exact .looks (Outcome.looks_shown fun h =>
      List.Subset.trans (Session.nodes_asTuple h) (hmem (by simp)))
  case h_19 => exact hbare (.ok (Datum.Comparison.bare_toRecord _))
  case h_20 =>
    refine .looks (Outcome.looks_listed fun h => ?_)
    obtain ⟨vs, hvs, h⟩ := bind_eq_ok.mp h
    exact List.Subset.trans (Datum.nodesAll_mono (Datum.sort_subset h))
      (List.Subset.trans (Datum.nodesAll_items hvs) (hmem (by simp)))
  case h_23 => exact .copy (hmem (by simp))
  case h_24 => exact .deepCopy (hmem (by simp))
  case h_25 => exact .archive (hmem (by simp)) _
  case h_26 => exact hbare (Session.bare_typeInfo _)
  case h_28 =>
    refine hbare (.bind (fun c => .ok ?_) _)
    exact Datum.bare_tuple.mpr ⟨rfl, List.forall_mem_map.mpr fun _ _ => Datum.bare_type _⟩
  case h_29 => exact hbare (.bind (fun _ => Session.bare_typeReference _) _)
  case h_32 => exact hbare (Session.bare_encode _)
  case h_33 => exact hbare (Session.bare_encodedSize _)
  case h_34 => exact .decode _ _ _
  case h_35 => exact .decode _ _ _
  case h_36 => exact hbare (Session.bare_toForm _)
  case h_37 => exact .looks (Session.looks_giveSchema hknown (fun _ _ => rfl) _)
  case h_38 =>
    exact .looks (Session.looks_giveSchema hknown
      (fun _ d => by simp [Datum.nodes, Datum.nodesFields]) _)
  case h_39 => exact .load _ _
  case h_42 =>
    exact .looks (Outcome.looks_listed fun h => by
      simp [Datum.nodesAll_of_bare (Session.bare_violations h)])
  case h_43 => exact .accumulate (hmem (by simp))
  case h_44 =>
    exact .checkLaw (Law.mirrors_checkZeroIdentity hvalid (hsettled (by simp)).upToDate)
  case h_45 => exact .checkLaw (Law.mirrors_checkNegationInverse hvalid (hsettled (by simp)))
  case h_46 =>
    exact .checkLaw (Law.mirrors_checkAssociativity hvalid (hsettled (by simp)).upToDate
      (hsettled (by simp)).upToDate (hsettled (by simp)).upToDate)
  case h_47 =>
    exact .checkLaw (Law.mirrors_checkCommutativity hvalid (hsettled (by simp)).upToDate
      (hsettled (by simp)).upToDate)
  case h_48 => exact .checkMultiplyPurity (hmem (by simp)) (hmem (by simp))
  case h_49 => exact .verifyLaws (hmem (by simp)) (List.nil_subset _)
  case h_50 => exact .verifyLaws (hmem (by simp)) (hmem (by simp))
  case h_51 => exact hbare (.ok Session.bare_constants)
  case h_52 => exact .looks (Outcome.looks_failed _)
  -- What is left shows an atom, if anything.
  all_goals first
    | exact hbare (.ok (Datum.bare_of_plain rfl rfl rfl))
    | exact hbare (.map (fun _ => Datum.bare_of_plain rfl rfl rfl) _)
    | exact hbare (.bind (fun _ => .bind (fun _ => .ok (Datum.bare_of_plain rfl rfl rfl)) _) _)

end Operation

/-- What carrying out a command on data of a coherent pool comes to. -/
theorem Command.effect_call (c : Command C) {pool : List (Value C)} {next : Nat}
    {args : List (Value C)} {known : Schemas C} (hpool : Coherent next (nodesAll pool))
    (hargs : nodesAll args ⊆ nodesAll pool)
    (hknown : nodesAll (known.map (·.2)) ⊆ nodesAll pool) :
    Operation.Effect pool next (c.call args known next) := by
  unfold call
  split
  · exact .looks (Outcome.looks_plain (Returns.ok (Datum.bare_bool _)).plain)
  · exact c.operation.effect_call hpool hargs hknown

theorem Operation.Effect.sound {pool : List (Value C)} {next : Nat} {o : Outcome C}
    (h : Effect pool next o) (hpool : Coherent next (nodesAll pool)) : Outcome.Sound pool next o := by
  cases h with
  | looks h => exact h.sound hpool
  | coerce t hx => exact Session.sound_coerce hpool t hx
  | zero t => exact Session.sound_zero hpool t
  | plusEquals hx hy => exact Session.sound_plusEquals hpool hx hy
  | negate hx => exact Session.sound_negate hpool hx
  | multiply hx hy => exact Session.sound_multiply hpool hx hy
  | clone => exact Session.sound_clone hpool _
  | sliceVec => exact Outcome.sound_built hpool _
  | copy hx => exact Outcome.sound_made hpool fun h => Datum.joins_copy h hx hpool
  | deepCopy hx => exact Outcome.sound_made hpool fun h => Datum.joins_deepCopy h hx hpool
  | archive hx =>
    refine Outcome.sound_made hpool fun h => ?_
    obtain ⟨_, _, h⟩ := bind_eq_ok.mp h
    exact Datum.joins_archive h hx hpool
  | decode l data limit => exact Session.sound_decode hpool l data limit
  | load => exact Outcome.sound_built hpool _
  | accumulate hx => exact Session.sound_accumulate hpool hx
  | checkLaw hm => exact Session.sound_checkLaw hpool hm
  | checkMultiplyPurity hx hy => exact Session.sound_checkMultiplyPurity hpool hx hy
  | verifyLaws hs hc => exact Session.sound_verifyLaws hpool hs hc

/-- Carrying out a command on data of a coherent pool is sound. -/
theorem Command.sound_call (c : Command C) {pool : List (Value C)} {next : Nat}
    {args : List (Value C)} {known : Schemas C} (hpool : Coherent next (nodesAll pool))
    (hargs : nodesAll args ⊆ nodesAll pool)
    (hknown : nodesAll (known.map (·.2)) ⊆ nodesAll pool) :
    Outcome.Sound pool next (c.call args known next) :=
  (c.effect_call hpool hargs hknown).sound hpool

end DiffAlgebra
