import EventFlow.Text.Blank
import EventFlow.Text.Line

/-! Cutting, joining and searching texts, in terms of lists.

    startsWith p cs ↔ p <+: cs        endsWith p cs ↔ p <:+ cs        contains p cs ↔ p <:+: cs

    cut sep (a ++ sep :: b) = cut sep a ++ cut sep b        joinWith "\n" (lines s) = s -/

namespace EventFlow.Text

variable {cs : List Char} {x y : Char}

/-- The text is an indentation. -/
abbrev IsIndent (s : String) : Prop := s.toList.all (· = ' ') = true

/-! ## Parts of a text -/

theorem stripStart_eq_some_iff {start rest : List Char} :
    stripStart start cs = some rest ↔ cs = start ++ rest := by
  fun_induction stripStart start cs with
  | case1 cs => simp
  | case2 => simp
  | case3 s start cs ih => simp [ih]
  | case4 s start c cs hne =>
    simp only [reduceCtorEq, List.cons_append, List.cons.injEq, false_iff, not_and]
    exact fun h => absurd h.symm hne

theorem stripStart_append_self (start rest : List Char) :
    stripStart start (start ++ rest) = some rest :=
  stripStart_eq_some_iff.2 rfl

theorem stripStart_eq_none_iff {start : List Char} :
    stripStart start cs = none ↔ ¬ start <+: cs := by
  constructor
  · rintro h ⟨rest, rfl⟩
    rw [stripStart_append_self] at h
    cases h
  · intro h
    cases hs : stripStart start cs with
    | none => rfl
    | some rest => exact absurd ⟨rest, (stripStart_eq_some_iff.1 hs).symm⟩ h

theorem isSome_stripStart_iff {start : List Char} :
    (stripStart start cs).isSome = true ↔ start <+: cs := by
  rw [Option.isSome_iff_ne_none, ne_eq, stripStart_eq_none_iff, Classical.not_not]

theorem startsWith_iff {start : String} : startsWith start cs = true ↔ start.toList <+: cs :=
  isSome_stripStart_iff

theorem endsWith_iff {ending : String} : endsWith ending cs = true ↔ ending.toList <:+ cs := by
  rw [← List.reverse_prefix, endsWith, isSome_stripStart_iff]

theorem contains_iff {part : String} : contains part cs = true ↔ part.toList <:+: cs := by
  induction cs with
  | nil => rw [contains, List.infix_nil, String.isEmpty_iff, String.toList_eq_nil_iff]
  | cons c cs ih => rw [contains, Bool.or_eq_true, startsWith_iff, ih, List.infix_cons_iff]

theorem pair_prefix_iff {c : Char} : [x, y] <+: c :: cs ↔ c = x ∧ cs.head? = some y := by
  rw [List.cons_prefix_cons, List.head?_eq_some_iff]
  constructor
  · rintro ⟨rfl, t, rfl⟩
    exact ⟨rfl, t, rfl⟩
  · rintro ⟨rfl, t, rfl⟩
    exact ⟨rfl, t, rfl⟩

theorem not_infix_pair (h : x ∉ cs) : ¬ [x, y] <:+: cs :=
  fun hi => h (hi.subset List.mem_cons_self)

/-- Two characters in a row stand on one side of a seam, or one on each side. -/
theorem pair_infix_append {a b : List Char} :
    [x, y] <:+: a ++ b ↔
      [x, y] <:+: a ∨ [x, y] <:+: b ∨ (a.getLast? = some x ∧ b.head? = some y) := by
  induction a with
  | nil => simp
  | cons c a ih =>
    rw [List.cons_append, List.infix_cons_iff, List.infix_cons_iff, ih, pair_prefix_iff,
      pair_prefix_iff]
    cases a with
    | nil => simp [or_comm]
    | cons d a =>
      simp only [List.cons_append, List.head?_cons, List.getLast?_cons_cons, or_assoc]

/-- A text in which `old` does not occur stays as it is. -/
theorem replaceAll_of_not_infix {old : String} (new : String) (h : ¬ old.toList <:+: cs) :
    replaceAll old new cs = cs := by
  suffices ∀ fuel cs, ¬ old.toList <:+: cs →
      replaceWithin old.toList new.toList fuel cs = cs from this _ _ h
  intro fuel cs h
  induction fuel generalizing cs with
  | zero => rfl
  | succ fuel ih =>
    cases cs with
    | nil => rfl
    | cons c cs =>
      rw [List.infix_cons_iff, not_or] at h
      rw [replaceWithin, stripStart_eq_none_iff.2 h.1]
      exact congrArg (c :: ·) (ih cs h.2)

/-! ## Cutting -/

theorem cut_ne_nil (sep : Char) (cs : List Char) : cut sep cs ≠ [] := by
  fun_cases cut sep cs <;> simp

theorem cut_cons_sep (sep : Char) (cs : List Char) : cut sep (sep :: cs) = [] :: cut sep cs := by
  rw [cut, if_pos rfl]

/-- One more character goes to the first piece. -/
theorem cut_cons {sep c : Char} (h : c ≠ sep) {piece : List Char} {pieces : List (List Char)}
    (hcut : cut sep cs = piece :: pieces) : cut sep (c :: cs) = (c :: piece) :: pieces := by
  rw [cut, if_neg h, hcut]

theorem cut_of_not_mem {sep : Char} (h : sep ∉ cs) : cut sep cs = [cs] := by
  induction cs with
  | nil => rfl
  | cons c cs ih =>
    rw [List.mem_cons, not_or] at h
    exact cut_cons (fun e => h.1 e.symm) (ih h.2)

theorem cut_append_sep (sep : Char) (a b : List Char) :
    cut sep (a ++ sep :: b) = cut sep a ++ cut sep b := by
  induction a with
  | nil => exact cut_cons_sep sep b
  | cons c a ih =>
    rw [List.cons_append]
    by_cases hc : c = sep
    · rw [hc, cut_cons_sep, cut_cons_sep, ih]
      rfl
    · obtain ⟨piece, pieces, hcut⟩ := List.exists_cons_of_ne_nil (cut_ne_nil sep a)
      rw [cut_cons hc hcut, cut_cons hc (ih.trans (by rw [hcut, List.cons_append]))]
      rfl

theorem not_mem_of_mem_cut {sep : Char} {piece : List Char} (h : piece ∈ cut sep cs) :
    sep ∉ piece := by
  induction cs generalizing piece with
  | nil => simp_all [cut]
  | cons c cs ih =>
    by_cases hc : c = sep
    · rw [hc, cut_cons_sep, List.mem_cons] at h
      rcases h with rfl | h
      · simp
      · exact ih h
    · obtain ⟨first, rest, hcut⟩ := List.exists_cons_of_ne_nil (cut_ne_nil sep cs)
      rw [cut_cons hc hcut, List.mem_cons] at h
      rcases h with rfl | h
      · simp only [List.mem_cons, not_or]
        exact ⟨fun e => hc e.symm, ih (hcut ▸ List.mem_cons_self)⟩
      · exact ih (hcut ▸ List.mem_cons_of_mem _ h)

/-! ## Joining -/

theorem joinWith_cons_cons (sep s t : String) (rest : List String) :
    joinWith sep (s :: t :: rest) = s ++ sep ++ joinWith sep (t :: rest) := rfl

theorem joinWith_cons {sep s : String} {rest : List String} (h : rest ≠ []) :
    joinWith sep (s :: rest) = s ++ sep ++ joinWith sep rest := by
  cases rest with
  | nil => exact absurd rfl h
  | cons t rest => rfl

theorem joinWith_append {sep : String} {a b : List String} (ha : a ≠ []) (hb : b ≠ []) :
    joinWith sep (a ++ b) = joinWith sep a ++ sep ++ joinWith sep b := by
  induction a with
  | nil => exact absurd rfl ha
  | cons s a ih =>
    cases a with
    | nil => exact joinWith_cons hb
    | cons t a =>
      rw [List.cons_append, joinWith_cons (by simp), ih (by simp), joinWith_cons_cons]
      simp only [String.append_assoc]

theorem flatMap_eq_map {α β : Type} {f : α → List β} {g : α → β} {xs : List α}
    (h : ∀ x ∈ xs, f x = [g x]) : xs.flatMap f = xs.map g := by
  induction xs with
  | nil => rfl
  | cons x xs ih =>
    rw [List.flatMap_cons, h x List.mem_cons_self, ih fun y hy => h y (List.mem_cons_of_mem _ hy)]
    rfl

/-- The lines of joined lines are the lines of each. -/
theorem cut_unlines {ls : List String} (h : ls ≠ []) :
    cut '\n' (unlines ls).toList = ls.flatMap fun l => cut '\n' l.toList := by
  induction ls with
  | nil => exact absurd rfl h
  | cons l ls ih =>
    cases ls with
    | nil => simp [unlines, joinWith]
    | cons m ls =>
      rw [unlines, joinWith_cons_cons, String.toList_append, String.toList_append,
        List.append_assoc]
      rw [show "\n".toList = ['\n'] from rfl, List.singleton_append, cut_append_sep]
      rw [List.flatMap_cons, ← ih (by simp)]
      rfl

theorem unlines_cut (cs : List Char) :
    unlines ((cut '\n' cs).map String.ofList) = String.ofList cs := by
  induction cs with
  | nil => rfl
  | cons c cs ih =>
    obtain ⟨piece, pieces, hcut⟩ := List.exists_cons_of_ne_nil (cut_ne_nil '\n' cs)
    rw [← String.toList_inj] at ih ⊢
    by_cases hc : c = '\n'
    · rw [hc, cut_cons_sep, unlines, List.map_cons, joinWith_cons (by simp [hcut])]
      simpa [unlines] using ih
    · rw [cut_cons hc hcut]
      rw [hcut] at ih
      cases pieces with
      | nil => simpa [unlines, joinWith] using ih
      | cons next pieces => simpa [unlines, joinWith] using ih

/-- Two characters in a row that do not break lines stand in one of the lines. -/
theorem pair_infix_unlines (hx : x ≠ '\n') (hy : y ≠ '\n') {ls : List String} :
    [x, y] <:+: (unlines ls).toList ↔ ∃ l ∈ ls, [x, y] <:+: l.toList := by
  induction ls with
  | nil => simp [unlines, joinWith]
  | cons l ls ih =>
    cases ls with
    | nil => simp [unlines, joinWith]
    | cons m ls =>
      have hlist : (unlines (l :: m :: ls)).toList =
          l.toList ++ '\n' :: (unlines (m :: ls)).toList := by
        simp [unlines, joinWith_cons_cons, String.toList_append]
      rw [hlist, pair_infix_append, List.infix_cons_iff, pair_prefix_iff, ih]
      simp [hx.symm, hy.symm]

theorem cut_eq_singleton {piece : List Char} (h : cut '\n' cs = [piece]) :
    cs = piece ∧ '\n' ∉ cs := by
  have hjoin := unlines_cut cs
  rw [h, List.map_singleton] at hjoin
  obtain rfl : piece = cs := String.ofList_injective hjoin
  exact ⟨rfl, not_mem_of_mem_cut (h ▸ List.mem_cons_self)⟩

end EventFlow.Text
