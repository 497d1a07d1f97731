import DiffAlgebra.Text.Quoted

/-!
# Words and lists in text

Text is told apart from the front. A word ends where no more of its characters follow, so that it
and what follows it are known from the two together. The items of a list between brackets are known
as well, if the text of each item can be told from what follows it: a comma is behind every item but
the last, which the closing bracket follows.
-/

namespace DiffAlgebra.Text

/-- The characters of words: letters, digits and the minus sign. -/
def isWordChar (c : Char) : Bool := c.isAlphanum || c == '-'

def IsWord (cs : List Char) : Prop := ∀ c ∈ cs, isWordChar c = true

/-- Text that begins with a word. -/
def BeginsWord (cs : List Char) : Prop := ∃ c ∈ cs.head?, isWordChar c = true

/-- Text that does not carry on a word that stands in front of it. -/
def EndsWord (cs : List Char) : Prop := ∀ c ∈ cs.head?, isWordChar c = false

variable {c : Char} {cs v w r s : List Char}

theorem endsWord_nil : EndsWord [] := by simp [EndsWord]

@[simp] theorem endsWord_cons : EndsWord (c :: cs) ↔ isWordChar c = false :=
  ⟨fun h => h c rfl, fun h d hd => by cases hd; exact h⟩

theorem IsWord.append (hv : IsWord v) (hw : IsWord w) : IsWord (v ++ w) :=
  List.forall_mem_append.mpr ⟨hv, hw⟩

theorem BeginsWord.append (h : BeginsWord cs) (r : List Char) : BeginsWord (cs ++ r) := by
  obtain ⟨c, hc, hword⟩ := h
  exact ⟨c, by simp_all, hword⟩

/-- Text that begins with a word does not begin with a bracket. -/
theorem BeginsWord.ne_cons (h : BeginsWord cs) (hc : isWordChar c = false) : cs ≠ c :: r := by
  rintro rfl
  obtain ⟨d, hd, hword⟩ := h
  cases hd
  exact absurd hword (by simp [hc])

theorem takeWhile_eq_nil_of_endsWord (hr : EndsWord r) : r.takeWhile isWordChar = [] := by
  cases r with
  | nil => rfl
  | cons c r => simp [endsWord_cons.mp hr]

/-- A word and what follows it are known from the text of both. -/
theorem IsWord.eq_of_append_eq (hv : IsWord v) (hw : IsWord w) (hr : EndsWord r) (hs : EndsWord s)
    (h : v ++ r = w ++ s) : v = w ∧ r = s := by
  have hword : v = w := by
    calc v = (v ++ r).takeWhile isWordChar := by
          rw [List.takeWhile_append_of_pos hv, takeWhile_eq_nil_of_endsWord hr, List.append_nil]
      _ = (w ++ s).takeWhile isWordChar := by rw [h]
      _ = w := by
          rw [List.takeWhile_append_of_pos hw, takeWhile_eq_nil_of_endsWord hs, List.append_nil]
  exact ⟨hword, by rwa [hword, List.append_cancel_left_eq] at h⟩

theorem isDigit_of_mem_toDigits {n : Nat} (hc : c ∈ Nat.toDigits 10 n) : c.isDigit = true :=
  Nat.isDigit_of_mem_toDigits (by decide) (by decide) hc

theorem isDigit_or_eq_of_mem_repr {n : Int} (hc : c ∈ n.repr.toList) :
    c.isDigit = true ∨ c = '-' := by
  rw [Int.repr_eq_if] at hc
  split at hc
  · exact .inl (isDigit_of_mem_toDigits (by simpa using hc))
  · rw [String.toList_append] at hc
    rcases List.mem_append.mp hc with hc | hc
    · exact .inr (by simpa using hc)
    · exact .inl (isDigit_of_mem_toDigits (by simpa using hc))

/-- A number is known from its digits. -/
theorem natural_injective {m n : Nat} (h : toString m = toString n) : m = n := by
  rw [Nat.toString_eq_ofList_toDigits, Nat.toString_eq_ofList_toDigits, String.ofList_inj] at h
  rw [← Nat.ofDigitChars_ten_toDigits (n := m), h, Nat.ofDigitChars_ten_toDigits]

theorem natural_ne_minus {m : Nat} {s : String} : toString m ≠ "-" ++ s := by
  intro h
  have hminus : '-' ∈ (toString m).toList := by simp [h]
  rw [Nat.toString_eq_ofList_toDigits, String.toList_ofList] at hminus
  exact absurd (isDigit_of_mem_toDigits hminus) (by decide)

/-- An integer is known from its sign and its digits. -/
theorem integer_injective {m n : Int} (h : toString m = toString n) : m = n := by
  simp only [Int.toString_eq_repr, Int.repr_eq_if, ← Nat.toString_eq_repr] at h
  split at h <;> split at h
  · have habs := natural_injective h
    omega
  · exact absurd h natural_ne_minus
  · exact absurd h.symm natural_ne_minus
  · have habs := natural_injective ((String.append_right_inj "-").mp h)
    omega

theorem isWordChar_of_isDigit (hc : c.isDigit = true) : isWordChar c = true := by
  simp [isWordChar, Char.isAlphanum, hc]

theorem isWord_natural (n : Nat) : IsWord (toString n).toList := by
  intro c hc
  rw [Nat.toString_eq_ofList_toDigits, String.toList_ofList] at hc
  exact isWordChar_of_isDigit (isDigit_of_mem_toDigits hc)

theorem isWord_integer (n : Int) : IsWord (toString n).toList := by
  intro c hc
  rw [Int.toString_eq_repr] at hc
  rcases isDigit_or_eq_of_mem_repr hc with hdigit | rfl
  · exact isWordChar_of_isDigit hdigit
  · rfl

/-- Two things are told apart by their texts: with whatever text behind them that carries on no
word, they are alike only if they are one thing and the same text follows. -/
def ToldApart {α : Type} (write : α → String) (a b : α) : Prop :=
  ∀ r s, EndsWord r → EndsWord s → (write a).toList ++ r = (write b).toList ++ s → a = b ∧ r = s

theorem toList_commaSeparated_cons (p : String) (ps : List String) :
    (commaSeparated (p :: ps)).toList = p.toList ++ ps.flatMap fun q => ',' :: ' ' :: q.toList := by
  induction ps generalizing p with
  | nil => simp [commaSeparated]
  | cons q ps ih =>
    have hcomma : ", ".toList = [',', ' '] := rfl
    rw [commaSeparated, String.intercalate_cons_cons, String.toList_append, String.toList_append,
      ← commaSeparated, ih, hcomma]
    simp

section Lists

variable {α : Type} {write : α → String} {as bs : List α} {close : Char}
  (hclose : isWordChar close = false) (hcomma : close ≠ ',')
  (h : ∀ a ∈ as, ∀ b ∈ bs, ToldApart write a b)

include hclose hcomma h

/-- Items behind commas are known from their text, up to a closing bracket. -/
theorem items_eq_of_flatMap_eq
    (heq : (as.flatMap fun a => ',' :: ' ' :: (write a).toList) ++ close :: r =
      (bs.flatMap fun b => ',' :: ' ' :: (write b).toList) ++ close :: s) :
    as = bs ∧ r = s := by
  -- what follows an item begins with a comma or with the closing bracket
  have hends (cs : List α) (r : List Char) :
      EndsWord ((cs.flatMap fun a => ',' :: ' ' :: (write a).toList) ++ close :: r) := by
    cases cs with
    | nil => exact endsWord_cons.mpr hclose
    | cons => exact endsWord_cons.mpr (by decide)
  induction as generalizing bs with
  | nil =>
    cases bs with
    | nil => exact ⟨rfl, (List.cons.inj heq).2⟩
    | cons => exact absurd (List.cons.inj heq).1 hcomma
  | cons a as ih =>
    cases bs with
    | nil => exact absurd (List.cons.inj heq).1.symm hcomma
    | cons b bs =>
      simp only [List.flatMap_cons, List.cons_append, List.append_assoc, List.cons.injEq,
        true_and] at heq
      obtain ⟨rfl, hrest⟩ := h a List.mem_cons_self b List.mem_cons_self _ _ (hends as r)
        (hends bs s) heq
      obtain ⟨rfl, hrs⟩ := ih (fun a ha b hb =>
        h a (List.mem_cons_of_mem _ ha) b (List.mem_cons_of_mem _ hb)) hrest
      exact ⟨rfl, hrs⟩

theorem items_eq_of_commaSeparated_eq (has : ∀ a ∈ as, BeginsWord (write a).toList)
    (hbs : ∀ b ∈ bs, BeginsWord (write b).toList)
    (heq : (commaSeparated (as.map write)).toList ++ close :: r =
      (commaSeparated (bs.map write)).toList ++ close :: s) :
    as = bs ∧ r = s := by
  cases as with
  | nil =>
    cases bs with
    | nil => exact ⟨rfl, (List.cons.inj heq).2⟩
    | cons b bs =>
      rw [List.map_cons, toList_commaSeparated_cons, List.append_assoc] at heq
      exact absurd heq.symm (((hbs b List.mem_cons_self).append _).ne_cons hclose)
  | cons a as =>
    rw [List.map_cons, toList_commaSeparated_cons, List.append_assoc] at heq
    cases bs with
    | nil => exact absurd heq (((has a List.mem_cons_self).append _).ne_cons hclose)
    | cons b bs =>
      rw [List.map_cons, toList_commaSeparated_cons, List.append_assoc] at heq
      refine items_eq_of_flatMap_eq hclose hcomma h ?_
      simpa [List.flatMap_map] using heq

end Lists

end DiffAlgebra.Text
