import DiffAlgebra.Proofs.Sharing.Outcomes

/-!
# What the checks of additive laws come to

A check works in place, on clones of its operands. It comes to a comparison of values, whatever the
operands share, and it changes nothing but the clones that it has made.
-/

namespace DiffAlgebra

variable {C : Catalog}

open Progress (Apart Extends Settled Valid)

/-- A datum is made of objects that there are, and is as they are by now. -/
structure Progress.UpToDate (s : Progress C) (v : Value C) : Prop where
  lt : ∀ y ∈ v.nodes, ∀ l, y.label? = some l → l < s.next
  eq : v.map (Object.after s.changes) = v

theorem Progress.Settled.upToDate {s : Progress C} {v : Value C} (h : s.Settled v.nodes) :
    s.UpToDate v :=
  ⟨fun _ hy _ hl => h.lt hy hl, h.map_eq⟩

/-- What is up to date remains so while only new objects are changed. -/
theorem Progress.UpToDate.extends {s t : Progress C} {v : Value C} (h : s.UpToDate v)
    (hext : Extends [] s t) : t.UpToDate v := by
  obtain ⟨cs, hcs, hmem⟩ := hext.changes
  have hnew : v.map (Object.after cs) = v := by
    refine Datum.map_eq_self fun x hx => Object.after_eq_self fun c hc l hcl hl => ?_
    obtain ⟨y, hy, hyl⟩ := Object.mem_labels_iff.mp hl
    have hlt := h.lt y (Datum.mem_nodes_trans hx hy) l hyl
    rcases hmem c hc l hcl with hl | hl
    · exact List.not_mem_nil hl
    · omega
  refine ⟨fun y hy l hl => (h.lt y hy l hl).trans_le hext.le, ?_⟩
  have hafter : v.map (Object.after t.changes) =
      (v.map (Object.after s.changes)).map (Object.after cs) := by
    rw [Datum.map_map, hcs]
    exact congrArg (Datum.map · v) (funext fun x => Object.after_append _ _ x)
  rw [hafter, h.eq, hnew]

theorem Object.OwnLabels.upToDate {s : Progress C} {x : Object C} {base : Nat}
    (h : OwnLabels base s.next x.labels) (hx : x.after s.changes = x) : s.UpToDate (.diff x) := by
  refine ⟨fun y hy l hl => (h.mem l (mem_labels_iff.mpr ⟨y, hy, hl⟩)).2, ?_⟩
  rw [Datum.map, hx]

/-- An operation in place mirrors a computation on values: it gives what that gives, as `rel` says
in the state it leads to, or fails as that fails, and it has changed new objects only. -/
def Mirrors {α β : Type} (rel : α → β → Progress C → Prop) (r : Except Fault β) (m : UpdateM C α)
    (s : Progress C) : Prop :=
  ∃ t, Extends [] s t ∧ t.Valid ∧
    ((∃ f, r = .error f ∧ m.run s = (.error f, t)) ∨
      ∃ b a, r = .ok b ∧ m.run s = (.ok a, t) ∧ rel a b t)

namespace Mirrors

variable {α β γ ε : Type} {s : Progress C}

theorem pure {rel : α → β → Progress C → Prop} (hs : s.Valid) {a : α} {b : β} (h : rel a b s) :
    Mirrors rel (.ok b) (Pure.pure a) s :=
  ⟨s, .refl _ _, hs, Or.inr ⟨b, a, rfl, rfl, h⟩⟩

theorem attempt (hs : s.Valid) (r : Except Fault α) :
    Mirrors (fun a b _ => a = b) r (Object.attempt r) s := by
  cases r with
  | error f => exact ⟨s, .refl _ _, hs, Or.inl ⟨f, rfl, rfl⟩⟩
  | ok a => exact .pure hs rfl

theorem extends_run {rel : α → β → Progress C → Prop} {r : Except Fault β} {m : UpdateM C α}
    (h : Mirrors rel r m s) : Extends [] s (m.run s).2 := by
  obtain ⟨t, hext, -, ⟨_, -, hrun⟩ | ⟨_, _, -, hrun, -⟩⟩ := h
  all_goals
    rw [hrun]
    exact hext

theorem run_eq {r : Except Fault α} {m : UpdateM C α} (h : Mirrors (fun a b _ => a = b) r m s) :
    (m.run s).1 = r := by
  obtain ⟨t, -, -, ⟨_, rfl, hrun⟩ | ⟨_, _, rfl, hrun, rfl⟩⟩ := h
  all_goals rw [hrun]

theorem bind {rel : α → β → Progress C → Prop} {rel' : γ → ε → Progress C → Prop}
    {r : Except Fault β} {m : UpdateM C α} {k : β → Except Fault ε} {f : α → UpdateM C γ}
    (hm : Mirrors rel r m s)
    (hf : ∀ {a b t}, Extends [] s t → t.Valid → rel a b t → Mirrors rel' (k b) (f a) t) :
    Mirrors rel' (r >>= k) (m >>= f) s := by
  obtain ⟨t, hext, ht, ⟨g, rfl, hrun⟩ | ⟨b, a, rfl, hrun, hab⟩⟩ := hm
  · refine ⟨t, hext, ht, Or.inl ⟨g, rfl, ?_⟩⟩
    rw [run_bind, hrun]
  · obtain ⟨u, hext', hu, hresult⟩ := hf hext ht hab
    refine ⟨u, hext.trans hext' (by simp), hu, ?_⟩
    rw [run_bind, hrun]
    exact hresult

end Mirrors

namespace Law

variable {s : Progress C} {x y z : Value C}

def found (law : Law) (operands : List (Datum C (Diff C))) (holds : Bool) (details : String) :
    Option LawViolation :=
  if holds then none else some (law.violatedBy operands details)

namespace OfValues

def zeroOf (x : Datum C (Diff C)) : Except Fault (Diff C) :=
  match x with
  | .diff d => do
    match ← Diff.zero? d.typeOf with
    | some z => .ok z
    | none => .error .missingMember
  | _ => .error .missingMember

def checkZeroIdentity (x : Datum C (Diff C)) : Except Fault (Option LawViolation) := do
  let z ← zeroOf x
  if !z.isZero then
    .ok (zeroIdentity.found [x] false ("zero() = " ++ z.render ++ " is not is_zero()"))
  else
    let r ← Diff.accumulate [x, .diff z]
    .ok (zeroIdentity.found [x] (x.same (.diff r)) ("x + zero = " ++ r.render))

def cancel (x : Datum C (Diff C)) : Except Fault (Diff C) := do
  let d ← x.receiver Class.isDiff
  let c ← d.clone
  let n ← c.negate
  n.plus x

def checkNegationInverse (x : Datum C (Diff C)) : Except Fault (Option LawViolation) := do
  let r ← cancel x
  .ok (negationInverse.found [x] r.isZero ("-x + x = " ++ r.render))

def checkAssociativity (x y z : Datum C (Diff C)) : Except Fault (Option LawViolation) := do
  let l ← Diff.accumulate [x, y, z]
  let i ← Diff.accumulate [y, z]
  let r ← Diff.accumulate [x, .diff i]
  .ok (associativity.found [x, y, z] (l = r)
    ("(x + y) + z = " ++ l.render ++ ", x + (y + z) = " ++ r.render))

def checkCommutativity (x y : Datum C (Diff C)) : Except Fault (Option LawViolation) := do
  let l ← Diff.accumulate [x, y]
  let r ← Diff.accumulate [y, x]
  .ok (commutativity.found [x, y] (l = r)
    ("x + y = " ++ l.render ++ ", y + x = " ++ r.render))

end OfValues

/-- A report writes its operands as they were all along, if they are up to date. -/
theorem mirrors_report (hs : s.Valid) (law : Law) (xs : List (Value C))
    (hxs : ∀ x ∈ xs, s.UpToDate x) (details : String) :
    Mirrors (fun a b _ => a = b) (.ok (law.found (xs.map Datum.values) false details))
      (law.report xs details) s := by
  have hcurrent : xs.map (fun x => (current s x).values) = xs.map Datum.values :=
    List.map_congr_left fun x hx => congrArg Datum.values (hxs x hx).eq
  refine .pure hs (?_ : some (law.violatedBy (xs.map fun x => (current s x).values) details) = _)
  rw [hcurrent]
  rfl

theorem mirrors_create (hs : s.Valid) (d : Diff C) :
    Mirrors (fun a b t => b = d ∧ a.value = b ∧ t.Settled a.nodes ∧
      Object.OwnLabels s.next t.next a.labels) (.ok d) (create d) s := by
  have hown := Object.ownLabels_ofDiff d s.next
  have hext : Extends [] s { s with next := (Object.ofDiff d s.next).2 } := .handOut _ hown.le
  refine ⟨_, hext, hs.extends hext (by simp), Or.inr ⟨d, _, rfl, rfl, rfl, ?_, ?_, hown⟩⟩
  · exact Object.value_ofDiff d s.next
  · exact hs.settled fun y hy l hl => hown.mem l (Object.mem_labels_iff.mpr ⟨y, hy, hl⟩)

/-- A sum comes to the sum of the values, and is a new object. -/
theorem mirrors_sum (hs : s.Valid) (xs : List (Value C)) (hxs : ∀ x ∈ xs, s.UpToDate x) :
    Mirrors (fun a b t => a.value = b ∧ t.UpToDate (.diff a))
      (Diff.accumulate (xs.map Datum.values)) (sum xs) s := by
  have hcurrent : xs.map (current s) = xs :=
    (List.map_congr_left fun x hx => (hxs x hx).eq).trans (List.map_id xs)
  have hsettled : Settled ⟨[], s.next⟩ (Datum.nodesAll xs) := by
    refine ⟨fun hy hl => ?_, fun _ _ hc => absurd hc List.not_mem_nil⟩
    obtain ⟨v, hv, hyv⟩ := Datum.mem_nodesAll.mp hy
    exact (hxs v hv).lt _ hyv _ hl
  obtain ⟨t, hext, hresult⟩ := Object.run_accumulate xs (Progress.valid_start s.next) hsettled
  -- the sum starts with nothing changed, and what it changes comes after what has been changed
  have hall : Extends [] s ⟨s.changes ++ t.changes, t.next⟩ := by
    obtain ⟨cs, hcs, hmem⟩ := hext.changes
    exact ⟨hext.le, t.changes, rfl, fun c hc => hmem c (by simpa [hcs] using hc)⟩
  have hrun {r : Except Fault (Object C)} (h : (Object.accumulate xs).run ⟨[], s.next⟩ = (r, t)) :
      (sum xs).run s = (r, ⟨s.changes ++ t.changes, t.next⟩) := by
    have hsum : (sum xs).run s =
        (((Object.accumulate xs).run ⟨[], s.next⟩).1,
          ⟨s.changes ++ ((Object.accumulate xs).run ⟨[], s.next⟩).2.changes,
            ((Object.accumulate xs).run ⟨[], s.next⟩).2.next⟩) := by
      conv_rhs => rw [← hcurrent]
      rfl
    rw [hsum, h]
  refine ⟨_, hall, hs.extends hall (by simp), ?_⟩
  rcases hresult with ⟨f, hf, hsum⟩ | ⟨a, ha, hsum, hafter, hown⟩
  · rw [hrun hsum]
    exact Or.inl ⟨f, hf, rfl⟩
  · rw [hrun hsum]
    refine Or.inr ⟨a.value, a, ha, rfl, rfl, ?_⟩
    have hbefore : a.after s.changes = a := by
      refine Object.after_eq_self fun c hc l hcl hl => ?_
      exact absurd (hs c hc l hcl) (Nat.not_lt.mpr (hown.mem l hl).1)
    refine hown.upToDate (s := ⟨s.changes ++ t.changes, t.next⟩) ?_
    rw [Object.after_append, hbefore, hafter]

private theorem zeroOf_values (x : Value C) : OfValues.zeroOf x.values = zeroOf x := by
  cases x <;> rfl

private theorem receiver_values (x : Value C) (declares : Class C → Bool) :
    x.values.receiver declares = (x.receiver declares).map Object.value := by
  cases x <;> rfl

theorem mirrors_found (hs : s.Valid) (law : Law) (xs : List (Value C))
    (hxs : ∀ x ∈ xs, s.UpToDate x) (holds : Bool) (details : String) :
    Mirrors (fun a b _ => a = b) (.ok (law.found (xs.map Datum.values) holds details))
      (if holds then Pure.pure none else law.report xs details) s := by
  cases holds with
  | true => exact .pure hs rfl
  | false => exact mirrors_report hs law xs hxs details

theorem mirrors_checkZeroIdentity (hs : s.Valid) (hx : s.UpToDate x) :
    Mirrors (fun a b _ => a = b) (OfValues.checkZeroIdentity x.values) (checkZeroIdentity x) s := by
  unfold OfValues.checkZeroIdentity checkZeroIdentity
  rw [zeroOf_values]
  refine (Mirrors.attempt hs _).bind fun {z _ t} hext ht hz => ?_
  subst hz
  have hx := hx.extends hext
  refine (mirrors_create ht z).bind (k := fun _ => _) fun {o _ u} hext' hu ho => ?_
  obtain ⟨rfl, rfl, hsettled, -⟩ := ho
  have hx := hx.extends hext'
  cases o.value.isZero with
  | false => exact mirrors_report hu zeroIdentity [x] (by simpa using hx) _
  | true =>
    have hboth : ∀ v ∈ [x, .diff o], u.UpToDate v := by
      simpa using ⟨hx, hsettled.upToDate (v := .diff o)⟩
    refine (mirrors_sum hu [x, .diff o] hboth).bind fun {r _ w} hext'' hw hr => ?_
    obtain ⟨rfl, -⟩ := hr
    have hx := hx.extends hext''
    change Mirrors _ _ (if (current w x).values.same (.diff r.value) then _ else _) w
    rw [current, hx.eq]
    exact mirrors_found hw zeroIdentity [x] (by simpa using hx) _ _

theorem mirrors_checkAssociativity (hs : s.Valid) (hx : s.UpToDate x) (hy : s.UpToDate y)
    (hz : s.UpToDate z) :
    Mirrors (fun a b _ => a = b) (OfValues.checkAssociativity x.values y.values z.values)
      (checkAssociativity x y z) s := by
  refine (mirrors_sum hs [x, y, z] (by simp [hx, hy, hz])).bind
    fun {l _ t} hext ht hl => ?_
  obtain ⟨rfl, -⟩ := hl
  have hx := hx.extends hext
  have hy := hy.extends hext
  have hz := hz.extends hext
  refine (mirrors_sum ht [y, z] (by simp [hy, hz])).bind fun {i _ u} hext' hu hi => ?_
  obtain ⟨rfl, hi⟩ := hi
  have hx := hx.extends hext'
  have hy := hy.extends hext'
  have hz := hz.extends hext'
  refine (mirrors_sum hu [x, .diff i] (by simp [hx, hi])).bind
    fun {r _ w} hext'' hw hr => ?_
  obtain ⟨rfl, -⟩ := hr
  have hxs : ∀ v ∈ [x, y, z], w.UpToDate v := by
    simp [hx.extends hext'', hy.extends hext'', hz.extends hext'']
  simpa using mirrors_found hw associativity [x, y, z] hxs (l.value = r.value) _

theorem mirrors_checkCommutativity (hs : s.Valid) (hx : s.UpToDate x) (hy : s.UpToDate y) :
    Mirrors (fun a b _ => a = b) (OfValues.checkCommutativity x.values y.values)
      (checkCommutativity x y) s := by
  refine (mirrors_sum hs [x, y] (by simp [hx, hy])).bind fun {l _ t} hext ht hl => ?_
  obtain ⟨rfl, -⟩ := hl
  have hx := hx.extends hext
  have hy := hy.extends hext
  refine (mirrors_sum ht [y, x] (by simp [hx, hy])).bind fun {r _ u} hext' hu hr => ?_
  obtain ⟨rfl, -⟩ := hr
  have hxs : ∀ v ∈ [x, y], u.UpToDate v := by simp [hx.extends hext', hy.extends hext']
  simpa using mirrors_found hu commutativity [x, y] hxs (l.value = r.value) _

private theorem mirrors_create_rework {d : Diff C} {r : Except Fault (Diff C)}
    {m : Object C → UpdateM C Unit}
    (hs : s.Valid)
    (h : ∀ {c t}, Extends [] s t → t.Valid → c.after t.changes = c → c.value = d →
      Object.OwnLabels s.next t.next c.labels → Object.Reworks s.next c r (m c) t) :
    Mirrors (fun a b _ => a.value = b) r
      (create d >>= fun c => m c >>= fun _ => c.read) s := by
  obtain ⟨t, hext, ht, ⟨f, hf, -⟩ | ⟨_, c, -, hrun, rfl, hvalue, hsettled, hown⟩⟩ :=
    mirrors_create hs d
  · cases hf
  obtain ⟨u, hext', hresult⟩ := h hext ht hsettled.after_eq hvalue hown
  have hlabel {l : Nat} (hl : l ∈ c.label?.toList) : s.next ≤ l ∧ l < t.next := by
    refine Object.mem_labels_of_own ?_ hl
    rw [hsettled.after_eq]
    exact hown
  have hall : Extends [] s u := hext.trans hext' fun l hl => Or.inr (hlabel hl)
  refine ⟨u, hall, hs.extends hall (by simp), ?_⟩
  rw [run_bind, hrun]
  dsimp only
  rw [run_bind]
  rcases hresult with ⟨f, hf, hrun'⟩ | ⟨hr, hrun', -⟩
  · rw [hrun']
    exact Or.inl ⟨f, hf, rfl⟩
  · rw [hrun']
    exact Or.inr ⟨_, _, hr, rfl, rfl⟩

private theorem mirrors_cancel (hs : s.Valid) (hx : s.Settled x.nodes) :
    Mirrors (fun a b _ => a.value = b) (OfValues.cancel x.values) (cancel x) s := by
  unfold OfValues.cancel cancel
  rw [receiver_values]
  cases ho : x.receiver Class.isDiff with
  | error f => exact ⟨s, .refl _ _, hs, Or.inl ⟨f, rfl, rfl⟩⟩
  | ok o =>
    obtain rfl := Datum.eq_diff_of_receiver ho
    have hread : o.after s.changes = o := hx.after_eq
    change Mirrors _ (o.value.clone >>= _) (Object.attempt (o.after s.changes).value.clone >>= _) s
    rw [hread]
    refine (Mirrors.attempt hs _).bind fun {d _ t} hext ht hd => ?_
    subst hd
    have hx := hx.extends hext (Progress.apart_nil _)
    have hwork := mirrors_create_rework (d := d)
      (r := d.negate >>= fun n => n.plus (Datum.values (.diff o)))
      (m := fun c => c.negate >>= fun _ => c.plusEquals (.diff o)) ht
      fun {c u} hext' hu hc hvalue hown => ?_
    · simpa only [bind_assoc] using hwork
    · have hown : Object.OwnLabels t.next u.next (c.after u.changes).labels := by rwa [hc]
      have hlabel (l : Nat) (hl : l ∈ c.label?.toList) := Object.mem_labels_of_own hown hl
      have hapart : Apart c.label?.toList (Datum.nodes (.diff o)) :=
        hx.apart fun l hl => (hlabel l hl).1
      have hnegate := (c.renews_negate hu).reworks hown
      rw [hc, hvalue] at hnegate
      refine hnegate.bind fun w hext'' hown' => ?_
      have hw := hu.extends hext'' fun l hl => (hlabel l hl).2
      have hx := (hx.extends hext' (Progress.apart_nil _)).extends hext'' hapart
      exact (c.renews_plusEquals hw hx).reworks hown'

theorem mirrors_checkNegationInverse (hs : s.Valid) (hx : s.Settled x.nodes) :
    Mirrors (fun a b _ => a = b) (OfValues.checkNegationInverse x.values)
      (checkNegationInverse x) s := by
  refine (mirrors_cancel hs hx).bind fun {r _ t} hext ht hr => ?_
  subst hr
  have hones : ∀ v ∈ [x], t.UpToDate v := by simpa using hx.upToDate.extends hext
  exact mirrors_found ht negationInverse [x] hones _ _

end Law

end DiffAlgebra
