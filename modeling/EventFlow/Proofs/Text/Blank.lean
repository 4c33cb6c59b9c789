import EventFlow.Proofs.Text.Line

/-! Trimmed texts, and replacing in a text.

A text is trimmed when there is no blank at either end of it. Blanks around such a text are taken
away exactly:

    trimChars (blanks ++ cs ++ blanks) = cs        if cs is trimmed and not empty -/

namespace EventFlow.Text

variable {cs b : List Char}

/-! ## Trimming -/

/-- The text does not begin with a blank. -/
def IsTrimmedStart (cs : List Char) : Prop := ∀ c ∈ cs.head?, isBlank c = false

/-- The text does not end with a blank. -/
def IsTrimmedEnd (cs : List Char) : Prop := ∀ c ∈ cs.getLast?, isBlank c = false

instance (cs : List Char) : Decidable (IsTrimmedStart cs) :=
  decidable_of_iff (cs.head?.all (!isBlank ·) = true) (by simp [IsTrimmedStart, Option.all_eq_true])

instance (cs : List Char) : Decidable (IsTrimmedEnd cs) :=
  decidable_of_iff (cs.getLast?.all (!isBlank ·) = true)
    (by simp [IsTrimmedEnd, Option.all_eq_true])

theorem not_isBlank_of_all (h : cs.all (!isBlank ·) = true) : ∀ c ∈ cs, isBlank c = false := by
  simpa using h

theorem dropWhile_of_head? {α : Type} {p : α → Bool} {xs : List α}
    (h : ∀ x ∈ xs.head?, p x = false) : xs.dropWhile p = xs := by
  cases xs with
  | nil => rfl
  | cons x xs => rw [List.dropWhile_cons, if_neg (by simp [h x rfl])]

theorem dropBlanks_of_isTrimmedStart (h : IsTrimmedStart cs) : dropBlanks cs = cs :=
  dropWhile_of_head? h

theorem dropBlanks_append (hb : b.all isBlank = true) : dropBlanks (b ++ cs) = dropBlanks cs :=
  List.dropWhile_append_of_pos (List.all_eq_true.1 hb)

/-- A text is some blanks and a text that begins with none. -/
theorem exists_blanks (cs : List Char) :
    ∃ b r, cs = b ++ r ∧ b.all isBlank = true ∧ IsTrimmedStart r ∧ dropBlanks cs = r := by
  induction cs with
  | nil => exact ⟨[], [], rfl, rfl, by simp [IsTrimmedStart], rfl⟩
  | cons c cs ih =>
    by_cases hc : isBlank c = true
    · obtain ⟨b, r, rfl, hb, hr, hdrop⟩ := ih
      refine ⟨c :: b, r, rfl, by simp [hc, hb], hr, ?_⟩
      rw [dropBlanks, List.dropWhile_cons, if_pos hc]
      exact hdrop
    · have hstart : IsTrimmedStart (c :: cs) := by
        rintro d ⟨⟩
        simpa using hc
      exact ⟨[], c :: cs, rfl, rfl, hstart, dropBlanks_of_isTrimmedStart hstart⟩

theorem isTrimmedStart_reverse : IsTrimmedStart cs.reverse ↔ IsTrimmedEnd cs := by
  rw [IsTrimmedStart, IsTrimmedEnd, List.head?_reverse]

theorem dropTrailingBlanks_of_isTrimmedEnd (h : IsTrimmedEnd cs) : dropTrailingBlanks cs = cs := by
  have hdrop := dropBlanks_of_isTrimmedStart (isTrimmedStart_reverse.2 h)
  rw [dropBlanks] at hdrop
  rw [dropTrailingBlanks, hdrop, List.reverse_reverse]

theorem dropTrailingBlanks_append (hb : b.all isBlank = true) :
    dropTrailingBlanks (cs ++ b) = dropTrailingBlanks cs := by
  have hdrop : dropBlanks (b.reverse ++ cs.reverse) = dropBlanks cs.reverse :=
    dropBlanks_append ((List.all_reverse).trans hb)
  rw [dropBlanks, dropBlanks] at hdrop
  rw [dropTrailingBlanks, List.reverse_append, hdrop]
  rfl

theorem isTrimmedEnd_dropTrailingBlanks (cs : List Char) :
    IsTrimmedEnd (dropTrailingBlanks cs) := by
  obtain ⟨b, r, -, -, hr, hdrop⟩ := exists_blanks cs.reverse
  rw [dropBlanks] at hdrop
  rw [dropTrailingBlanks, hdrop, ← isTrimmedStart_reverse, List.reverse_reverse]
  exact hr

theorem exists_trailing (cs : List Char) :
    ∃ b, b.all isBlank = true ∧ cs = dropTrailingBlanks cs ++ b := by
  obtain ⟨b, r, hcs, hb, -, hdrop⟩ := exists_blanks cs.reverse
  rw [dropBlanks] at hdrop
  refine ⟨b.reverse, List.all_reverse.trans hb, ?_⟩
  rw [dropTrailingBlanks, hdrop, ← List.reverse_append, ← hcs, List.reverse_reverse]

/-- Two characters in a row, the second of which is no blank, are not trimmed away. -/
theorem pair_infix_dropTrailingBlanks {x y : Char} (hy : isBlank y = false) (cs : List Char) :
    [x, y] <:+: dropTrailingBlanks cs ↔ [x, y] <:+: cs := by
  obtain ⟨b, hb, hcs⟩ := exists_trailing cs
  have hno : y ∉ b := by
    intro hmem
    rw [List.all_eq_true.1 hb y hmem] at hy
    cases hy
  constructor
  · intro h
    rw [hcs]
    exact pair_infix_append.2 (Or.inl h)
  · intro h
    rw [hcs] at h
    rcases pair_infix_append.1 h with h | h | ⟨-, h⟩
    · exact h
    · exact absurd (h.subset (by simp)) hno
    · exact absurd (List.mem_of_head? h) hno

theorem isTrimmedEnd_append {a : List Char} (hb : IsTrimmedEnd b) (hne : b ≠ []) :
    IsTrimmedEnd (a ++ b) := by
  intro c hc
  rw [List.getLast?_append, List.getLast?_eq_some_getLast hne] at hc
  exact hb c ((List.getLast?_eq_some_getLast hne).trans hc)

theorem isTrimmedStart_append {a : List Char} (ha : IsTrimmedStart a) (hne : a ≠ []) :
    IsTrimmedStart (a ++ b) := by
  cases a with
  | nil => exact absurd rfl hne
  | cons c a => exact ha

/-- What is dropped at both ends is exactly what stands around the rest. -/
theorem dropWhile_ends {α : Type} {p : α → Bool} {a xs b : List α} (ha : a.all p = true)
    (hb : b.all p = true) (hfirst : ∀ x ∈ xs.head?, p x = false)
    (hlast : ∀ x ∈ xs.getLast?, p x = false) :
    (((a ++ (xs ++ b)).dropWhile p).reverse.dropWhile p).reverse = xs := by
  rw [List.dropWhile_append_of_pos (List.all_eq_true.1 ha)]
  cases xs with
  | nil =>
    have hdrop : (b ++ []).dropWhile p = [] := List.dropWhile_append_of_pos (List.all_eq_true.1 hb)
    rw [List.append_nil] at hdrop
    rw [List.nil_append, hdrop]
    rfl
  | cons x xs =>
    have hrest : ∀ y ∈ (x :: xs ++ b).head?, p y = false := hfirst
    rw [dropWhile_of_head? hrest, List.reverse_append,
      List.dropWhile_append_of_pos (fun y hy => List.all_eq_true.1 hb y (List.mem_reverse.1 hy)),
      dropWhile_of_head? (by simpa only [List.head?_reverse] using hlast), List.reverse_reverse]

/-- Blanks around a trimmed text are all that trimming takes away. -/
theorem trimChars_eq {a : List Char} (ha : a.all isBlank = true) (hb : b.all isBlank = true)
    (hstart : IsTrimmedStart cs) (hend : IsTrimmedEnd cs) : trimChars (a ++ (cs ++ b)) = cs :=
  dropWhile_ends ha hb hstart hend

theorem trimChars_of_isTrimmed (hstart : IsTrimmedStart cs) (hend : IsTrimmedEnd cs) :
    trimChars cs = cs := by
  simpa using trimChars_eq (a := []) (b := []) rfl rfl hstart hend

/-! ## Replacing -/

/-- More fuel than the text is long changes nothing. -/
theorem replaceWithin_of_le {old new : List Char} (hold : old ≠ []) {n k : Nat} (hn : cs.length ≤ n)
    (hk : cs.length ≤ k) : replaceWithin old new n cs = replaceWithin old new k cs := by
  induction n generalizing k cs with
  | zero =>
    obtain rfl : cs = [] := by simpa using hn
    cases k <;> rfl
  | succ n ih =>
    cases cs with
    | nil => cases k <;> rfl
    | cons c cs =>
      obtain ⟨k, rfl⟩ := Nat.exists_eq_succ_of_ne_zero (by simp at hk; omega : k ≠ 0)
      simp only [List.length_cons] at hn hk
      simp only [replaceWithin]
      cases hs : stripStart old (c :: cs) with
      | none => exact congrArg (c :: ·) (ih (by omega) (by omega))
      | some rest =>
        have hlen := congrArg List.length (stripStart_eq_some_iff.1 hs)
        have hpos := List.length_pos_iff.2 hold
        simp only [List.length_cons, List.length_append] at hlen
        exact congrArg (new ++ ·) (ih (by omega) (by omega))

theorem replaceAll_append (old new : String) (hold : old ≠ "") (cs : List Char) :
    replaceAll old new (old.toList ++ cs) = new.toList ++ replaceAll old new cs := by
  have hne : old.toList ≠ [] := fun h => hold (String.toList_eq_nil_iff.1 h)
  cases hs : old.toList with
  | nil => exact absurd hs hne
  | cons c rest =>
    have hstrip : stripStart old.toList (c :: (rest ++ cs)) = some cs := by
      rw [← List.cons_append, ← hs, stripStart_append_self]
    show replaceWithin old.toList new.toList (rest ++ cs).length.succ (c :: (rest ++ cs)) = _
    simp only [replaceWithin, hstrip]
    rw [replaceWithin_of_le hne (by simp) (Nat.le_refl cs.length)]
    rfl

theorem replaceAll_cons {old new : String} {c : Char} (h : ¬ old.toList <+: c :: cs) :
    replaceAll old new (c :: cs) = c :: replaceAll old new cs := by
  show replaceWithin old.toList new.toList cs.length.succ (c :: cs) = _
  rw [replaceWithin, stripStart_eq_none_iff.2 h]
  rfl

/-- A text is replaced from the left, one occurrence or one character at a time. -/
theorem replaceAll_induction {old : List Char} (hold : old ≠ []) {motive : List Char → Prop}
    (nil : motive []) (found : ∀ cs, motive cs → motive (old ++ cs))
    (cons : ∀ c cs, ¬ old <+: c :: cs → motive cs → motive (c :: cs)) (cs : List Char) :
    motive cs := by
  suffices ∀ n cs, cs.length ≤ n → motive cs from this cs.length cs (Nat.le_refl _)
  intro n
  induction n with
  | zero =>
    intro cs hcs
    obtain rfl : cs = [] := by simpa using hcs
    exact nil
  | succ n ih =>
    intro cs hcs
    match cs with
    | [] => exact nil
    | c :: cs =>
      simp only [List.length_cons] at hcs
      by_cases h : old <+: c :: cs
      · obtain ⟨rest, hrest⟩ := h
        have hlen := congrArg List.length hrest
        have hpos := List.length_pos_iff.2 hold
        simp only [List.length_append, List.length_cons] at hlen
        rw [← hrest]
        exact found rest (ih rest (by omega))
      · exact cons c cs h (ih cs (by omega))

/-- Blanks before a text are not replaced, since the old text does not begin with one. -/
theorem replaceAll_blanks {old : String} (new : String) (hb : b.all isBlank = true)
    (hold : ∃ c ∈ old.toList.head?, isBlank c = false) (cs : List Char) :
    replaceAll old new (b ++ cs) = b ++ replaceAll old new cs := by
  induction b with
  | nil => rfl
  | cons c b ih =>
    rw [List.all_cons, Bool.and_eq_true] at hb
    rw [List.cons_append, replaceAll_cons, ih hb.2, List.cons_append]
    intro hprefix
    obtain ⟨d, hd, hblank⟩ := hold
    obtain ⟨more, hmore⟩ := List.head?_eq_some_iff.1 hd
    rw [hmore] at hprefix
    obtain ⟨rfl, -⟩ := List.cons_prefix_cons.1 hprefix
    rw [hb.1] at hblank
    cases hblank

end EventFlow.Text
