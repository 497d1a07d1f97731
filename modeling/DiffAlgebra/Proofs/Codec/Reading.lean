import DiffAlgebra.Proofs.Codec.Wire
import DiffAlgebra.Proofs.Shape

/-!
# What reading can do

A reader takes bytes off the front of the input, and what it has taken decides whether it goes on,
finishes with a result or refuses the bytes. It looks at the input in no other way. So it either
comes to the end of the input while it takes bytes, or does what it would do in front of any more
bytes as well. Decoding fails if the reader of a type refuses its input or comes to its end, and
otherwise only if bytes are left over.
-/

namespace DiffAlgebra

/-- Readers whose results have the property `P` and that refuse bytes with faults in `Q`. -/
inductive Reads {α : Type} (P : α → Prop) (Q : Fault → Prop) :
    (Cursor → Except Fault (α × Cursor)) → Prop where
  | done {x : α} (result : P x) : Reads P Q fun c => .ok (x, c)
  | refuse {f : Fault} (fault : Q f) : Reads P Q fun _ => .error f
  | take {size : Nat} {what : String} {next : List UInt8 × Cursor → Except Fault (α × Cursor)}
      (rest : ∀ bs, Reads P Q fun c => next (bs, c)) : Reads P Q fun c => c.take size what >>= next

namespace Cursor

def total (c : Cursor) : Nat := c.offset + c.rest.length

def extend (c : Cursor) (bs : List UInt8) : Cursor := ⟨c.offset, c.rest ++ bs⟩

theorem total_start (bs : List UInt8) : (start bs).total = bs.length := Nat.zero_add _

end Cursor

/-- The faults by which an input of `total` bytes ends where more of them are needed. -/
inductive Fault.Ends (total : Nat) : Fault → Prop where
  | truncated {what : String} {size offset available : Nat} (lt : available < size)
      (total_eq : offset + available = total) :
      Ends total (.truncated what size offset available)

/-- Bytes are taken whatever comes behind them, unless the input ends. -/
theorem Cursor.take_cases (c : Cursor) (size : Nat) (what : String) :
    (∃ bs d, c.take size what = .ok (bs, d) ∧ d.total = c.total ∧
      ∀ more, (c.extend more).take size what = .ok (bs, d.extend more)) ∨
    ∃ f, c.take size what = .error f ∧ f.Ends c.total := by
  unfold take
  split
  next hsize =>
    refine Or.inl ⟨_, _, rfl, ?_, fun more => ?_⟩
    · simp only [total, List.length_drop]
      omega
    · have hmore : size ≤ (c.extend more).rest.length := by
        simp only [extend, List.length_append]
        omega
      rw [if_pos hmore]
      simp only [extend, List.take_append_of_le_length hsize, List.drop_append_of_le_length hsize]
  next hsize => exact Or.inr ⟨_, rfl, .truncated (Nat.lt_of_not_le hsize) rfl⟩

namespace Reads

variable {α β : Type} {P : α → Prop} {R : β → Prop} {Q : Fault → Prop}
  {read : Cursor → Except Fault (α × Cursor)}

theorem bind {next : α × Cursor → Except Fault (β × Cursor)} (h : Reads P Q read)
    (hnext : ∀ x, P x → Reads R Q fun c => next (x, c)) : Reads R Q fun c => read c >>= next := by
  induction h with
  | done result => exact hnext _ result
  | refuse fault => exact .refuse fault
  | take _ ih =>
    simp only [bind_assoc]
    exact .take ih

/-- A reader finishes or refuses whatever comes behind the input, unless the input ends. -/
theorem cases (h : Reads P Q read) (c : Cursor) :
    (∃ x d, read c = .ok (x, d) ∧ P x ∧ d.total = c.total ∧
      ∀ more, read (c.extend more) = .ok (x, d.extend more)) ∨
    (∃ f, read c = .error f ∧ Q f ∧ ∀ more, read (c.extend more) = .error f) ∨
    ∃ f, read c = .error f ∧ f.Ends c.total := by
  induction h generalizing c with
  | done result => exact Or.inl ⟨_, _, rfl, result, rfl, fun _ => rfl⟩
  | refuse fault => exact Or.inr (Or.inl ⟨_, rfl, fault, fun _ => rfl⟩)
  | @take size what _ _ ih =>
    rcases c.take_cases size what with ⟨bs, d, htake, htotal, hmore⟩ | ⟨f, htake, hends⟩
    · simp only [htake, hmore, ok_bind, ← htotal]
      exact ih bs d
    · exact Or.inr (Or.inr ⟨f, by simp only [htake, error_bind], hends⟩)

end Reads

/-- What reading a value refuses: integers outside the range of their kind, and lengths above the
limit. -/
inductive Fault.Refuses : Fault → Prop where
  | outOfRange {type : String} {value : Int} : Refuses (.outOfRange type value)
  | sequenceLimit {length : Nat} {limit : Int} : Refuses (.sequenceLimit length limit)

open Fault (Refuses)

private theorem IntKind.reads_decode (k : IntKind) : Reads k.Holds Refuses k.decode := by
  refine .take fun bs => ?_
  cases hn : k.ofInt (Bytes.toInt k.isSigned bs) with
  | ok n =>
    simp only [hn]
    exact .done (holds_of_fit hn)
  | error f =>
    simp only [hn]
    exact .refuse .outOfRange

namespace Diff

variable {C : Catalog}

private theorem reads_decodeLength (limit : Int) :
    Reads (fun _ => True) Refuses (decodeLength limit) := by
  refine .take fun bs => ?_
  by_cases h : limit < Bytes.toNat bs
  · simp only [if_pos h]
    exact .refuse .sequenceLimit
  · simp only [if_neg h]
    exact .done trivial

open IntKind (Holds)

theorem reads_decodeAll {limit : Int} {ts : List (DiffType C)}
    (h : ∀ t ∈ ts, Reads (Shaped Holds t) Refuses (decodeFrom limit t)) :
    Reads (List.Forall₂ (Shaped Holds) ts) Refuses (decodeAll limit ts) := by
  induction ts with
  | nil => exact .done .nil
  | cons t ts ih =>
    obtain ⟨ht, hts⟩ := List.forall_mem_cons.mp h
    exact ht.bind fun x hx => (ih hts).bind fun xs hxs => .done (.cons hx hxs)

/-- Reading a type gives values of the type. -/
theorem reads_decodeFrom {t : DiffType C} (ht : t.Concrete) (limit : Int) :
    Reads (Shaped Holds t) Refuses (decodeFrom limit t) := by
  induction ht with
  | int k => exact k.reads_decode.bind fun n hn => .done (.int hn)
  | present => exact .done .present
  | tuple _ _ ih =>
    exact (reads_decodeAll ih).bind fun xs hxs => .done (Shaped.tuple_of_forall₂ hxs)
  | @vec t _ ih =>
    refine (reads_decodeLength limit).bind fun n _ => ?_
    have helements : ∀ u ∈ List.replicate n t,
        Reads (Shaped Holds u) Refuses (decodeFrom limit u) := by
      intro u hu
      rw [List.eq_of_mem_replicate hu]
      exact ih
    simp only [decodeRepeat_eq_decodeAll]
    exact (reads_decodeAll helements).bind fun xs hxs =>
      .done (Shaped.vec (forall_mem_of_forall₂_replicate hxs))

theorem decode_of_decodeFrom {limit : Int} {t : DiffType C} {bs : List UInt8} {x : Diff C}
    {d : Cursor} (h : decodeFrom limit t (Cursor.start bs) = .ok (x, d)) :
    decode limit t bs =
      if d.rest = [] then .ok x else .error (.trailing t.name d.rest.length) := by
  simp [decode, h]

/-- All of the input is a value of the type, or it ends too early, or it is refused, or bytes are
left over. -/
theorem decode_cases {t : DiffType C} (ht : t.Concrete) (limit : Int) (bs : List UInt8) :
    (∃ x, decode limit t bs = .ok x ∧ Shaped Holds t x) ∨
      ∃ f, decode limit t bs = .error f ∧
        (f.Ends bs.length ∨ f.Refuses ∨ ∃ n, f = .trailing t.name n) := by
  rcases (reads_decodeFrom ht limit).cases (Cursor.start bs) with
    ⟨x, d, hread, hx, -⟩ | ⟨f, hread, hrefuses, -⟩ | ⟨f, hread, hends⟩
  · rw [decode_of_decodeFrom hread]
    split
    · exact Or.inl ⟨x, rfl, hx⟩
    · exact Or.inr ⟨_, rfl, Or.inr (Or.inr ⟨_, rfl⟩)⟩
  · exact Or.inr ⟨f, by simp [decode, hread], Or.inr (Or.inl hrefuses)⟩
  · rw [Cursor.total_start] at hends
    exact Or.inr ⟨f, by simp [decode, hread], Or.inl hends⟩

end Diff

theorem Fault.Ends.kind_eq {f : Fault} {total : Nat} (h : f.Ends total) : f.kind = .decode := by
  cases h
  rfl

theorem Fault.Refuses.kind_eq {f : Fault} (h : f.Refuses) : f.kind = .decode := by
  cases h <;> rfl

private theorem Fault.exists_logLine {f : Fault} (h : f.kind = .decode) :
    ∃ line, f.logLine? = some line ∧ line.level = .debug := by
  cases f with
  | truncated | outOfRange | sequenceLimit | sequenceBound | trailing => exact ⟨_, rfl, rfl⟩
  | _ => cases h

namespace Session

variable {C : Catalog}

private theorem log_decode {l : Value C} {t : DiffType C} (hl : layoutType l = .ok t)
    (bs : List UInt8)
    (limit : Option Int) (next : Nat) :
    (decode l (.bytes bs) (limit.map .int) next).log =
      match Diff.decode (limit.getD Diff.defaultLimit) t bs with
      | .ok _ => []
      | .error f => f.logLine?.toList := by
  have hread : decodeWithin t (.spelled bs) ((limit.map .int).getD (.int Diff.defaultLimit)) =
      Diff.decode (limit.getD Diff.defaultLimit) t bs := by
    cases limit <;> rfl
  simp only [decode, hl, toBytes, ok_bind, hread]
  cases Diff.decode (limit.getD Diff.defaultLimit) t bs <;> rfl

/-- Decoding gives a value of the type and logs nothing, or it fails with a decoding fault and logs
one line for debugging. If it fails since the input ends, then fewer bytes are left than needed. -/
theorem decode_total {l : Value C} {t : DiffType C} (hl : layoutType l = .ok t) (ht : t.Concrete)
    (bs : List UInt8) (limit : Option Int) (next : Nat) :
    let out := decode l (.bytes bs) (limit.map .int) next
    (∃ o, out.result = .ok (.diff o) ∧ o.typeOf = t ∧ Diff.Exact t o.value ∧ out.log = []) ∨
      ∃ f line, out.result = .error f ∧ f.kind = .decode ∧ out.log = [line] ∧
        line.level = .debug ∧ ∀ what size offset rest, f = .truncated what size offset rest →
          f.message? = some
            s!"truncated input: {what} needs {size} bytes at offset {offset}, {rest} available" ∧
          (rest : Int) = bs.length - offset ∧ rest < size := by
  intro out
  have hresult := result_decode_int hl bs limit next
  have hlog := log_decode hl bs limit next
  rcases Diff.decode_cases ht (limit.getD Diff.defaultLimit) bs with
    ⟨x, hread, hx⟩ | ⟨f, hread, hf⟩
  · rw [hread] at hresult hlog
    refine Or.inl ⟨_, hresult, ?_, ?_, hlog⟩
    · rw [Object.typeOf, Object.value_ofDiff, hx.typeOf_eq]
    · rw [Object.value_ofDiff]
      exact hx.exact
  · rw [hread] at hresult hlog
    have hkind : f.kind = .decode := by
      rcases hf with hends | hrefuses | ⟨n, rfl⟩
      · exact hends.kind_eq
      · exact hrefuses.kind_eq
      · rfl
    obtain ⟨line, hline, hlevel⟩ := Fault.exists_logLine hkind
    refine Or.inr ⟨f, line, hresult, hkind, hlog.trans (by simp [hline]), hlevel, ?_⟩
    rintro what size offset rest rfl
    refine ⟨rfl, ?_⟩
    rcases hf with hends | hrefuses | ⟨n, hn⟩
    · cases hends with
      | truncated lt total_eq => omega
    · cases hrefuses
    · cases hn

/-- Two elements are announced, and the input ends inside the second. -/
theorem decode_total_truncated :
    let k : IntKind := ⟨.signed, .narrow 32 (by decide) (by decide)⟩
    let l : Value specimens := .list 0 [.type (.diff (.int k))]
    let bs : List UInt8 := [2, 0, 0, 0, 0, 0, 0, 0, 1, 0, 0, 0, 0, 0, 0, 0, 7, 0, 0]
    let out := decode l (.bytes bs) (some (.int 2)) 1
    ∃ what size offset rest line, out.result = .error (.truncated what size offset rest) ∧
      out.log = [line] ∧ line.level = .debug ∧
      (rest : Int) = bs.length - offset ∧ rest < size := by
  intro k l bs out
  have hread : out.result = .error (.truncated k.name 8 16 3) := by rfl
  have hl : layoutType l = .ok (.vec (.int k)) := rfl
  rcases decode_total hl (.vec (.int k)) bs (some 2) 1 with
    ⟨o, ho, -⟩ | ⟨f, line, hf, -, hlog, hlevel, htruncated⟩
  · cases ho.symm.trans hread
  · cases hf.symm.trans hread
    obtain ⟨-, hrest, hlt⟩ := htruncated _ _ _ _ rfl
    exact ⟨_, _, _, _, line, hread, hlog, hlevel, hrest, hlt⟩

end Session

end DiffAlgebra
