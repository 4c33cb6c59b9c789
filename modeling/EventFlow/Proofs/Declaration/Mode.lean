import EventFlow.Declaration.Basic
import EventFlow.Proofs.Text.Line
import Mathlib.Algebra.Ring.Nat

/-! Where a source text is inside a comment or a text.

The search for declarations reads a source line by line and carries its state over from one line to
the next. Of that state, the mode says whether a comment or a text in quotes is open. It does not
depend on brackets or remarks, and there is a reading of the whole source, line breaks and all,
that comes to the same modes:

    walk p m cs = starts p m (cut '\n' cs)

Both list the place where each further line begins and the mode there. -/

namespace EventFlow.Declaration

open Text

/-- What a place in a source text lies in. -/
inductive Mode where
  | code
  | comment
  | quoted (quote : Char)
  deriving DecidableEq

namespace Mode

def quote? : Mode → Option Char
  | .quoted q => some q
  | _ => none

/-- Texts in single or double quotes end with their line. -/
def endLine : Mode → Mode
  | .quoted q => if q = '\'' || q = '"' then .code else .quoted q
  | m => m

/-- The mode after a character of code that starts no comment. -/
def code? (c : Char) : Mode := if c = '"' || c = '\'' || c = '`' then .quoted c else .code

/-- The mode after the rest of a line. -/
def past : Mode → List Char → Mode
  | m, [] => m.endLine
  | .comment, c :: rest =>
    if c = '*' && rest.head? = some '/' then past .code (rest.drop 1) else past .comment rest
  | .quoted q, c :: rest =>
    if c = '\\' then past (.quoted q) (rest.drop 1)
    else past (if c = q then .code else .quoted q) rest
  | .code, c :: rest =>
    if c = '/' && rest.head? = some '/' then .code
    else if c = '/' && rest.head? = some '*' then past .comment (rest.drop 1)
    else past (code? c) rest
termination_by _ cs => cs.length

end Mode

/-- A comment or a text is open exactly as the mode says. -/
structure LineState.In (s : LineState) (m : Mode) : Prop where
  comment : s.inComment = decide (m = .comment)
  quote : s.quote = m.quote?

namespace LineState

variable {s : LineState} {m : Mode}

theorem In.eq_comment (h : s.In m) (hs : s.inComment = true) : m = .comment := by
  have := h.comment
  rw [hs] at this
  exact of_decide_eq_true this.symm

theorem In.eq_quoted (h : s.In m) {q : Char} (hs : s.quote = some q) : m = .quoted q := by
  have := h.quote
  rw [hs] at this
  cases m with
  | quoted q' => rw [Option.some.inj this]
  | code | comment => cases this

theorem In.eq_code (h : s.In m) (hs : ¬s.inComment = true) (hq : s.quote = none) : m = .code := by
  cases m with
  | code => rfl
  | comment => exact absurd h.comment hs
  | quoted q =>
    have := h.quote
    rw [hq] at this
    cases this

theorem In.endLine (h : s.In m) : s.endLine.In m.endLine := by
  have hquote := h.quote
  unfold LineState.endLine Mode.endLine
  cases m with
  | code | comment => simpa [hquote, Mode.quote?] using h
  | quoted q =>
    rw [hquote, Mode.quote?]
    by_cases hq : q = '\'' ∨ q = '"'
    · simpa [hq] using (⟨h.comment, rfl⟩ : In { s with quote := none } .code)
    · simpa [hq] using h

theorem In.code (h : s.In .code) (previous : Option Char) (c : Char) :
    (s.code previous c).In (Mode.code? c) := by
  unfold LineState.code Mode.code?
  by_cases hc : (c = '"' || c = '\'' || c = '`') = true
  · rw [if_pos hc, if_pos hc]
    exact ⟨h.comment, rfl⟩
  · rw [if_neg hc, if_neg hc]
    repeat' split
    all_goals exact ⟨h.comment, h.quote⟩

/-- The mode of a line does not depend on anything but the mode before it. -/
theorem In.past (h : s.In m) (previous : Option Char) (i : Nat) (cs : List Char) :
    (s.past previous i cs).In (m.past cs) := by
  fun_induction LineState.past s previous i cs generalizing m with
  | case1 s =>
    rw [Mode.past]
    exact h.endLine
  | case2 s previous i c rest hs hclose ih =>
    obtain rfl := h.eq_comment hs
    rw [Mode.past, if_pos hclose]
    exact ih ⟨rfl, h.quote⟩
  | case3 s previous i c rest hs hclose ih =>
    obtain rfl := h.eq_comment hs
    rw [Mode.past, if_neg hclose]
    exact ih h
  | case4 s previous i rest hs q hq ih =>
    obtain rfl := h.eq_quoted hq
    rw [Mode.past, if_pos rfl]
    exact ih h
  | case5 s previous i c rest hs q hq hc ih =>
    obtain rfl := h.eq_quoted hq
    rw [Mode.past, if_neg hc]
    refine ih ?_
    by_cases hend : c = q
    · rw [if_pos hend, dif_pos hend]
      exact ⟨h.comment, rfl⟩
    · rw [if_neg hend, dif_neg hend]
      exact ⟨h.comment, rfl⟩
  | case6 s previous i c rest hs hq hremark =>
    obtain rfl := h.eq_code hs hq
    rw [Mode.past, if_pos hremark]
    exact ⟨h.comment, h.quote⟩
  | case7 s previous i c rest hs hq hremark hcomment ih =>
    obtain rfl := h.eq_code hs hq
    rw [Mode.past, if_neg hremark, if_pos hcomment]
    exact ih ⟨rfl, h.quote⟩
  | case8 s previous i c rest hs hq hremark hcomment ih =>
    obtain rfl := h.eq_code hs hq
    rw [Mode.past, if_neg hremark, if_neg hcomment]
    exact ih (h.code previous c)

theorem In.consume (h : s.In m) (line : String) : (s.consume line).In (m.past line.toList) :=
  In.past (s := { s with remark := none }) ⟨h.comment, h.quote⟩ none 0 line.toList

end LineState

namespace Mode

/-! ## Line by line -/

/-- Where each further line begins, and the mode there, if the first line begins at `p`. -/
def starts (p : Nat) (m : Mode) : List (List Char) → List (Nat × Mode)
  | l :: next :: ls =>
    (p + l.length + 1, m.past l) :: starts (p + l.length + 1) (m.past l) (next :: ls)
  | _ => []

/-- Only the end of the first line and the mode there matter. -/
theorem starts_congr {p p' : Nat} {m m' : Mode} {l l' : List Char} {ls : List (List Char)}
    (hp : p + l.length = p' + l'.length) (hm : m.past l = m'.past l') :
    starts p m (l :: ls) = starts p' m' (l' :: ls) := by
  cases ls with
  | nil => rfl
  | cons next ls => rw [starts, starts, hp, hm]

/-- The mode that the search is in at the start of a line is the one that is listed for it. -/
theorem foldl_consume {s : LineState} {m : Mode} (h : s.In m) (p : Nat) (ls : List (List Char))
    (k : Nat) (hk : k + 1 < ls.length) :
    ∃ mode, (p + ((ls.take (k + 1)).map fun l => l.length + 1).sum, mode) ∈ starts p m ls ∧
      (((ls.take (k + 1)).map String.ofList).foldl LineState.consume s).In mode := by
  induction ls generalizing s m p k with
  | nil => simp at hk
  | cons l ls ih =>
    have hl : (s.consume (String.ofList l)).In (m.past l) := by
      have := h.consume (String.ofList l)
      rwa [String.toList_ofList] at this
    cases ls with
    | nil => simp at hk
    | cons next ls =>
      cases k with
      | zero =>
        refine ⟨m.past l, ?_, hl⟩
        simp [starts, Nat.add_assoc]
      | succ k =>
        obtain ⟨mode, hmem, hin⟩ := ih hl (p + l.length + 1) k (by simpa using hk)
        refine ⟨mode, ?_, hin⟩
        rw [starts, List.take_succ_cons, List.map_cons, List.sum_cons]
        exact List.mem_cons_of_mem _ (by rwa [← Nat.add_assoc, ← Nat.add_assoc])

/-! ## Character by character -/

/-- The first line of a text. -/
def firstLine (cs : List Char) : List Char := cs.takeWhile (· ≠ '\n')

/-- The same, read off the text: `p` characters are behind. -/
def walk (p : Nat) (m : Mode) : List Char → List (Nat × Mode)
  | [] => []
  | c :: rest =>
    if c = '\n' then (p + 1, m.endLine) :: walk (p + 1) m.endLine rest
    else match m with
    | .comment =>
      if c = '*' && rest.head? = some '/' then walk (p + 2) .code (rest.drop 1)
      else walk (p + 1) .comment rest
    | .quoted q =>
      if c = '\\' then
        if rest.head? = some '\n' then walk (p + 1) (.quoted q) rest
        else walk (p + 2) (.quoted q) (rest.drop 1)
      else walk (p + 1) (if c = q then .code else .quoted q) rest
    | .code =>
      if c = '/' && rest.head? = some '/' then
        walk (p + 1 + (firstLine rest).length) .code (rest.drop (firstLine rest).length)
      else if c = '/' && rest.head? = some '*' then walk (p + 2) .comment (rest.drop 1)
      else walk (p + 1) (code? c) rest
termination_by cs => cs.length

theorem firstLine_cons {c : Char} (hc : c ≠ '\n') (cs : List Char) :
    firstLine (c :: cs) = c :: firstLine cs :=
  List.takeWhile_cons_of_pos (by simpa using hc)

theorem head?_firstLine {x : Char} (hx : x ≠ '\n') (cs : List Char) :
    (firstLine cs).head? = some x ↔ cs.head? = some x := by
  cases cs with
  | nil => rfl
  | cons c cs =>
    by_cases hc : c = '\n'
    · subst hc
      simp [firstLine, hx.symm]
    · rw [firstLine_cons hc]
      simp

theorem exists_cut (cs : List Char) : ∃ ls, cut '\n' cs = firstLine cs :: ls := by
  induction cs with
  | nil => exact ⟨[], rfl⟩
  | cons c cs ih =>
    obtain ⟨ls, hls⟩ := ih
    by_cases hc : c = '\n'
    · subst hc
      exact ⟨_, cut_cons_sep _ _⟩
    · exact ⟨ls, by rw [cut_cons hc hls, firstLine_cons hc]⟩

theorem cut_drop_firstLine {cs : List Char} {ls : List (List Char)}
    (h : cut '\n' cs = firstLine cs :: ls) :
    cut '\n' (cs.drop (firstLine cs).length) = [] :: ls := by
  induction cs generalizing ls with
  | nil => exact h
  | cons c cs ih =>
    by_cases hc : c = '\n'
    · subst hc
      exact h
    · obtain ⟨ls', hls'⟩ := exists_cut cs
      rw [cut_cons hc hls', firstLine_cons hc, List.cons.injEq] at h
      obtain ⟨-, rfl⟩ := h
      rw [firstLine_cons hc]
      exact ih hls'

theorem starts_cons {p : Nat} {m t : Mode} {c : Char} (hc : c ≠ '\n') (cs : List Char)
    (hm : m.past (c :: firstLine cs) = t.past (firstLine cs)) :
    starts p m (cut '\n' (c :: cs)) = starts (p + 1) t (cut '\n' cs) := by
  obtain ⟨ls, hls⟩ := exists_cut cs
  rw [cut_cons hc hls, hls]
  exact starts_congr (by rw [List.length_cons]; omega) hm

theorem starts_cons_cons {p : Nat} {m t : Mode} {c d : Char} (hc : c ≠ '\n') (hd : d ≠ '\n')
    (cs : List Char) (hm : m.past (c :: d :: firstLine cs) = t.past (firstLine cs)) :
    starts p m (cut '\n' (c :: d :: cs)) = starts (p + 2) t (cut '\n' cs) := by
  obtain ⟨ls, hls⟩ := exists_cut cs
  rw [cut_cons hc (cut_cons hd hls), hls]
  exact starts_congr (by rw [List.length_cons, List.length_cons]; omega) hm

/-- Reading a source line by line is the same as reading it as a whole. -/
theorem walk_eq_starts (p : Nat) (m : Mode) (cs : List Char) :
    walk p m cs = starts p m (cut '\n' cs) := by
  fun_induction walk p m cs with
  | case1 => rfl
  | case2 p m rest ih =>
    obtain ⟨ls, hls⟩ := exists_cut rest
    rw [cut_cons_sep, ih, hls, starts, Mode.past]
    rfl
  | case3 p c rest hc hclose ih =>
    obtain ⟨rfl, hslash⟩ : c = '*' ∧ rest.head? = some '/' := by simpa using hclose
    obtain ⟨rest, rfl⟩ := List.head?_eq_some_iff.1 hslash
    rw [ih, starts_cons_cons hc (by decide) rest (t := .code)]
    · rfl
    · rw [past]
      rfl
  | case4 p c rest hc hclose ih =>
    rw [ih, starts_cons hc rest]
    rw [past, if_neg (by simpa [head?_firstLine] using hclose)]
  | case5 p rest q hbreak hc ih =>
    obtain ⟨rest, rfl⟩ := List.head?_eq_some_iff.1 hbreak
    rw [ih, starts_cons hc]
    rw [past, if_pos rfl]
    rfl
  | case6 p rest q hbreak hc ih =>
    cases rest with
    | nil =>
      rw [ih]
      rfl
    | cons d rest =>
      have hd : d ≠ '\n' := by simpa using hbreak
      rw [ih, starts_cons_cons hc hd rest (t := .quoted q)]
      · rfl
      · rw [past, if_pos rfl]
        rfl
  | case7 p c rest hc q hslash ih =>
    rw [dite_eq_ite] at ih
    rw [ih, starts_cons hc rest]
    rw [past, if_neg hslash]
  | case8 p c rest hc hremark ih =>
    obtain ⟨ls, hls⟩ := exists_cut rest
    rw [ih, cut_cons hc hls, cut_drop_firstLine hls]
    refine starts_congr ?_ ?_
    · show p + 1 + (firstLine rest).length + 0 = p + ((firstLine rest).length + 1)
      omega
    · rw [past, past, if_pos (by simpa [head?_firstLine] using hremark)]
      rfl
  | case9 p c rest hc hremark hcomment ih =>
    obtain ⟨rfl, hstar⟩ : c = '/' ∧ rest.head? = some '*' := by simpa using hcomment
    obtain ⟨rest, rfl⟩ := List.head?_eq_some_iff.1 hstar
    rw [ih, starts_cons_cons hc (by decide) rest (t := .comment)]
    · rfl
    · rw [past]
      rfl
  | case10 p c rest hc hremark hcomment ih =>
    rw [ih, starts_cons hc rest]
    rw [past, if_neg (by simpa [head?_firstLine] using hremark),
      if_neg (by simpa [head?_firstLine] using hcomment)]

end Mode

end EventFlow.Declaration
