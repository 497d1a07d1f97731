import DiffAlgebra.DiffType.Name
import DiffAlgebra.Proofs.Text.Words
import Mathlib.Data.List.Basic

/-!
# Names tell types apart

The name of a type over integers and presence markers begins with a word, and the word with one of
six capital letters. The word tells the form of the type, and the kind of an integer type; the names
of component types follow it in brackets. So the type is known from its name, and so is what follows
the name unless it carries on a word.
-/

namespace DiffAlgebra

open Text

variable {C : Catalog}

theorem Width.suffix_injective {w v : Width} (h : w.suffix = v.suffix) : w = v := by
  cases w <;> cases v
  case narrow.narrow m _ _ n _ _ =>
    rw [suffix, suffix, String.append_right_inj] at h
    cases natural_injective h
    rfl
  all_goals simp_all [suffix, ← String.toList_inj]

def Family.letters : Family → String
  | signed => "I"
  | unsigned => "U"
  | wrapping => "WrappingI"

namespace IntKind

theorem name_eq (k : IntKind) : k.name = k.family.letters ++ k.width.suffix := by
  unfold name
  cases k.family <;> rfl

/-- The first letter of a name tells the family, and the digits tell the width. -/
theorem name_injective {k l : IntKind} (h : k.name = l.name) : k = l := by
  obtain ⟨f, w⟩ := k
  obtain ⟨g, v⟩ := l
  rw [name_eq, name_eq] at h
  have hfamily : f = g := by
    cases f <;> cases g <;> simp_all [Family.letters, ← String.toList_inj]
  subst hfamily
  rw [String.append_right_inj] at h
  cases Width.suffix_injective h
  rfl

theorem head?_of_name_eq (k : IntKind) {cs : List Char} (h : k.name.toList = cs) :
    cs.head? ∈ [some 'I', some 'U', some 'W'] := by
  rw [← h, name_eq, String.toList_append]
  cases k.family <;> simp [Family.letters]

private theorem isWord_name (k : IntKind) : IsWord k.name.toList := by
  rw [name_eq, String.toList_append]
  refine IsWord.append ?_ ?_
  · cases k.family <;> simp [IsWord, isWordChar, Family.letters]
  · cases k.width with
    | narrow n =>
      rw [Width.suffix, String.toList_append]
      exact IsWord.append (by simp [IsWord, isWordChar]) (isWord_natural n)
    | _ => simp [IsWord, isWordChar, Width.suffix]

end IntKind

namespace Text

def isInitial (c : Char) : Bool := c ∈ ['I', 'U', 'W', 'P', 'T', 'V']

private theorem isWordChar_of_isInitial {c : Char} (hc : isInitial c = true) :
    isWordChar c = true := by
  simp only [isInitial, List.mem_cons, List.not_mem_nil, or_false, decide_eq_true_eq] at hc
  rcases hc with rfl | rfl | rfl | rfl | rfl | rfl <;> rfl

end Text

namespace DiffType

def word : DiffType C → List Char
  | int k => k.name.toList
  | tuple _ => "Tuple".toList
  | vec _ => "Vec".toList
  | t => t.name.toList

def brackets : DiffType C → List Char
  | tuple ts => '[' :: (commaSeparated (ts.map name)).toList ++ [']']
  | vec t => '[' :: t.name.toList ++ [']']
  | _ => []

theorem toList_name (t : DiffType C) : t.name.toList = t.word ++ t.brackets := by
  cases t <;> simp [name, word, brackets, names_eq_map]

variable {t u : DiffType C}

theorem Concrete.isWord_word (ht : t.Concrete) : IsWord t.word := by
  cases ht with
  | int k => exact k.isWord_name
  | _ => simp [IsWord, isWordChar, word, name]

theorem Concrete.exists_initial (ht : t.Concrete) :
    ∃ c cs, t.name.toList = c :: cs ∧ isInitial c = true := by
  cases ht with
  | int k =>
    have hhead := k.head?_of_name_eq rfl
    simp only [List.mem_cons, List.not_mem_nil, or_false] at hhead
    rcases hhead with h | h | h <;> exact ⟨_, _, List.eq_cons_of_mem_head? h, rfl⟩
  | _ => simp [name, isInitial]

theorem Concrete.beginsWord_name (ht : t.Concrete) : BeginsWord t.name.toList := by
  obtain ⟨c, cs, hname, hc⟩ := ht.exists_initial
  rw [hname]
  exact ⟨c, rfl, isWordChar_of_isInitial hc⟩

theorem Concrete.eq_int {k : IntKind} (hu : u.Concrete) (h : u.word = k.name.toList) :
    u = DiffType.int k := by
  cases hu with
  | int l => exact congrArg DiffType.int (IntKind.name_injective (String.toList_inj.mp h))
  | _ => exact absurd (k.head?_of_name_eq h.symm) (by simp [word, name])

theorem Concrete.eq_present (hu : u.Concrete) (h : u.word = "Present".toList) :
    u = DiffType.present := by
  cases hu with
  | present => rfl
  | int k => exact absurd (k.head?_of_name_eq h) (by simp)
  | _ => simp [word] at h

theorem Concrete.eq_tuple (hu : u.Concrete) (h : u.word = "Tuple".toList) :
    ∃ us, u = DiffType.tuple us ∧ ∀ v ∈ us, v.Concrete := by
  cases hu with
  | tuple _ components => exact ⟨_, rfl, components⟩
  | int k => exact absurd (k.head?_of_name_eq h) (by simp)
  | _ => simp [word, name] at h

theorem Concrete.eq_vec (hu : u.Concrete) (h : u.word = "Vec".toList) :
    ∃ v, u = DiffType.vec v ∧ v.Concrete := by
  cases hu with
  | vec element => exact ⟨_, rfl, element⟩
  | int k => exact absurd (k.head?_of_name_eq h) (by simp)
  | _ => simp [word, name] at h

/-- Names tell two types apart if, where their words are alike, what stands in the brackets does. -/
theorem Concrete.toldApart_of_brackets (ht : t.Concrete) (hu : u.Concrete)
    (h : t.word = u.word → ∀ r s, t.brackets ++ r = u.brackets ++ s → t = u ∧ r = s) :
    ToldApart name t u := by
  intro r s hr hs heq
  have hends {v : DiffType C} {r : List Char} (hr : EndsWord r) : EndsWord (v.brackets ++ r) := by
    cases v <;> first | exact hr | exact endsWord_cons.mpr (by decide)
  rw [toList_name, toList_name, List.append_assoc, List.append_assoc] at heq
  obtain ⟨hword, hrest⟩ :=
    ht.isWord_word.eq_of_append_eq hu.isWord_word (hends hr) (hends hs) heq
  exact h hword r s hrest

theorem Concrete.toldApart_name (ht : t.Concrete) (hu : u.Concrete) : ToldApart name t u := by
  induction ht generalizing u with
  | int k =>
    refine Concrete.toldApart_of_brackets (.int k) hu fun hword r s hrest => ?_
    cases hu.eq_int hword.symm
    exact ⟨rfl, hrest⟩
  | present =>
    refine Concrete.toldApart_of_brackets .present hu fun hword r s hrest => ?_
    cases hu.eq_present (by simpa [word, name] using hword.symm)
    exact ⟨rfl, hrest⟩
  | tuple arity components ih =>
    refine Concrete.toldApart_of_brackets (.tuple arity components) hu fun hword r s hrest => ?_
    obtain ⟨us, rfl, hus⟩ := hu.eq_tuple hword.symm
    simp only [brackets, List.cons_append, List.append_assoc, List.nil_append, List.cons.injEq,
      true_and] at hrest
    obtain ⟨rfl, hrs⟩ := items_eq_of_commaSeparated_eq (by decide) (by decide)
      (fun t ht u hu => ih t ht (hus u hu)) (fun t ht => (components t ht).beginsWord_name)
      (fun u hu => (hus u hu).beginsWord_name) hrest
    exact ⟨rfl, hrs⟩
  | vec element ih =>
    refine Concrete.toldApart_of_brackets (.vec element) hu fun hword r s hrest => ?_
    obtain ⟨v, rfl, hv⟩ := hu.eq_vec hword.symm
    simp only [brackets, List.cons_append, List.append_assoc, List.nil_append, List.cons.injEq,
      true_and] at hrest
    -- the closing bracket is behind the name of the element type
    have hends {r : List Char} : EndsWord (']' :: r) := endsWord_cons.mpr (by decide)
    obtain ⟨rfl, hrs⟩ := ih hv _ _ hends hends hrest
    exact ⟨rfl, (List.cons.inj hrs).2⟩

/-- Two types with one name are one type. -/
theorem Concrete.name_inj (ht : t.Concrete) (hu : u.Concrete) : t.name = u.name ↔ t = u := by
  refine ⟨fun h => ?_, congrArg name⟩
  exact (ht.toldApart_name hu [] [] endsWord_nil endsWord_nil (by rw [h])).1

end DiffType

end DiffAlgebra
