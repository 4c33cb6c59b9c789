import EventFlow.Proofs.Declaration.Line

/-! Lines that the search for declarations goes past.

`Skips P s ls t` says that no declaration starts on the lines `ls`, that they take the state `s` to
the state `t`, and that `P` holds of the state after each of them. Code, comments and templates are
skipped; what the search finds is then said without looking into them:

    Skips P s ls t → scanFrom i s none (ls ++ rest) = scanFrom (i + ls.length) t none rest -/

namespace EventFlow.Declaration

open LineState Text Token

variable {s t : LineState} {lines : List String} {indent : String}

/-- The lines hold no declaration and take one state to the other. -/
def Skips (P : LineState → Prop) : LineState → List String → LineState → Prop
  | s, [], t => s = t
  | s, line :: lines, t =>
    (s.insideText = false → declaredName? line = none) ∧ P (s.consume line) ∧
      Skips P (s.consume line) lines t

variable {P : LineState → Prop}

theorem Skips.append {u : LineState} {a b : List String} (ha : Skips P s a t) (hb : Skips P t b u) :
    Skips P s (a ++ b) u := by
  induction a generalizing s with
  | nil =>
    obtain rfl : s = t := ha
    exact hb
  | cons line lines ih => exact ⟨ha.1, ha.2.1, ih ha.2.2⟩

theorem Skips.one {line : String} (hname : declaredName? line = none) (hP : P (s.consume line)) :
    Skips P s [line] (s.consume line) :=
  ⟨fun _ => hname, hP, rfl⟩

/-- Between declarations. -/
theorem scanFrom_skips (h : Skips P s lines t) (index : Nat) (rest : List String) :
    scanFrom index s none (lines ++ rest) = scanFrom (index + lines.length) t none rest := by
  induction lines generalizing s index with
  | nil =>
    obtain rfl : s = t := h
    rfl
  | cons line lines ih =>
    obtain ⟨hname, -, hmore⟩ := h
    have hnone : (if s.insideText then none else declaredName? line) = none := by
      cases hs : s.insideText with
      | true => rfl
      | false => exact hname hs
    rw [List.cons_append, scanFrom]
    simp only [hnone]
    rw [ih hmore, List.length_cons]
    congr 1
    omega

/-- Inside a declaration that still has a brace open. -/
theorem scanFrom_skips_pending (h : Skips (fun s => 0 < s.braces) s lines t) (index : Nat)
    (outer : LineState) (name : String) (start : Nat) (rest : List String) :
    scanFrom index outer (some ⟨name, start, s⟩) (lines ++ rest) =
      scanFrom (index + lines.length) outer (some ⟨name, start, t⟩) rest := by
  induction lines generalizing s index with
  | nil =>
    obtain rfl : s = t := h
    rfl
  | cons line lines ih =>
    obtain ⟨hname, hopen, hmore⟩ := h
    have hnone : (if s.insideText then none else declaredName? line) = none := by
      cases hs : s.insideText with
      | true => rfl
      | false => exact hname hs
    have hcloses : (s.consume line).closes line = false := by
      have : ¬ (s.consume line).braces ≤ 0 := by omega
      simp [closes, balanced, this]
    rw [List.cons_append, scanFrom]
    simp only [hnone, hcloses, Bool.false_eq_true, if_false]
    rw [ih hmore, List.length_cons]
    congr 1
    omega

/-! ## Code -/

theorem declaredName?_of_head {line : String} (ht : line.toList.head? ≠ some 't')
    (he : line.toList.head? ≠ some 'e') : declaredName? line = none := by
  have hkeyword : ∀ (c : Char) (word : String) (cs : List Char), word.toList.head? = some c →
      cs.head? ≠ some c → keyword? word cs = none := by
    intro c word cs hword hcs
    have hnone : stripStart word.toList cs = none := by
      rw [stripStart_eq_none_iff]
      rintro ⟨more, rfl⟩
      obtain ⟨tail, htail⟩ := List.head?_eq_some_iff.1 hword
      rw [htail] at hcs
      exact hcs rfl
    rw [keyword?, hnone]
  unfold declaredName?
  dsimp only
  rw [hkeyword 'e' "export" _ (by decide) he, Option.getD_none,
    hkeyword 't' "type" _ (by decide) ht]

theorem Skips.inline {t : String} {ls : List Lexeme} (h : Inline t ls)
    (hname : declaredName? t = none) (b a : Int)
    (hP : P (level (b + netBraces ls) (a + netAngles ls))) :
    Skips P (level b a) [t] (level (b + netBraces ls) (a + netAngles ls)) := by
  rw [← consume_inline h] at hP ⊢
  exact Skips.one hname hP

/-! ## Comments -/

namespace LineState

theorem past_open (b a : Int) (previous : Option Char) (i : Nat) (rest : List Char) :
    (level b a).past previous i ('/' :: '*' :: rest) =
      (inRemark b a).past (some '*') (i + 2) rest := by
  rw [past]
  simp [level, inRemark]

theorem past_remark {c : Char} {rest : List Char} (h : ¬ (c = '*' ∧ rest.head? = some '/'))
    (b a : Int) (previous : Option Char) (i : Nat) :
    (inRemark b a).past previous i (c :: rest) =
      (inRemark b a).past (some c) (i + 1) rest := by
  rw [past]
  simp only [inRemark, if_true]
  rw [if_neg (by simpa using h)]

/-- A comment goes on to the end of a line that does not close it. -/
theorem past_inRemark {cs : List Char} (h : ¬ ['*', '/'] <:+: cs) (b a : Int)
    (previous : Option Char) (i : Nat) : (inRemark b a).past previous i cs = inRemark b a := by
  induction cs generalizing previous i with
  | nil =>
    rw [past]
    rfl
  | cons c rest ih =>
    rw [List.infix_cons_iff, not_or] at h
    rw [past_remark _ b a previous i, ih h.2]
    rintro ⟨rfl, hhead⟩
    obtain ⟨more, rfl⟩ := List.head?_eq_some_iff.1 hhead
    exact h.1 ⟨more, rfl⟩

theorem past_close {w : List Char} (h : ¬ ['*', '/'] <:+: w ++ ['*']) (b a : Int)
    (previous : Option Char) (i : Nat) (rest : List Char) :
    ∃ j, (inRemark b a).past previous i (w ++ '*' :: '/' :: rest) =
      (level b a).past (some '/') j rest := by
  induction w generalizing previous i with
  | nil =>
    refine ⟨i + 2, ?_⟩
    rw [List.nil_append, past]
    simp [inRemark, level]
  | cons c w ih =>
    rw [List.cons_append, List.infix_cons_iff, not_or] at h
    obtain ⟨j, hj⟩ := ih h.2 (some c) (i + 1)
    refine ⟨j, ?_⟩
    rw [List.cons_append, past_remark _ b a previous i, hj]
    rintro ⟨rfl, hhead⟩
    cases w with
    | nil => simp at hhead
    | cons d w =>
      obtain rfl : d = '/' := Option.some.inj hhead
      exact h.1 ⟨w ++ ['*'], rfl⟩

end LineState

theorem isInert_of_blanks (h : IsIndent indent) :
    ∀ c ∈ indent.toList, isInert c = true := by
  intro c hc
  have := of_decide_eq_true (List.all_eq_true.1 h c hc)
  subst this
  decide

/-- What a line with an indent begins with. -/
theorem declaredName?_of_indent {line : String} (h : IsIndent indent)
    (hline : line.toList.head? ≠ some 't' ∧ line.toList.head? ≠ some 'e') :
    declaredName? (indent ++ line) = none := by
  cases hi : indent.toList with
  | nil =>
    have hempty : indent = "" := String.toList_eq_nil_iff.1 hi
    rw [hempty, String.empty_append]
    exact declaredName?_of_head hline.1 hline.2
  | cons c cs =>
    have hc : c = ' ' := by
      rw [IsIndent, hi] at h
      simpa using (List.all_eq_true.1 h c List.mem_cons_self)
    refine declaredName?_of_head ?_ ?_ <;> simp [String.toList_append, hi, hc]

/-- A comment on one line. -/
theorem Skips.comment (hindent : IsIndent indent) {body : List Char}
    (hbody : ¬ ['*', '/'] <:+: body) (b a : Int) (hP : P (level b a)) :
    Skips P (level b a) [indent ++ "/** " ++ String.ofList body ++ " */"] (level b a) := by
  have hconsume : (level b a).consume (indent ++ "/** " ++ String.ofList body ++ " */") =
      level b a := by
    have hlist : (indent ++ "/** " ++ String.ofList body ++ " */").toList =
        indent.toList ++ '/' :: '*' :: (('*' :: ' ' :: body ++ [' ']) ++ '*' :: '/' :: []) := by
      simp [String.toList_append]
    have hinner : ¬ ['*', '/'] <:+: ('*' :: ' ' :: body ++ [' ']) ++ ['*'] := by
      have hparts : ('*' :: ' ' :: body ++ [' ']) ++ ['*'] =
        ['*', ' '] ++ (body ++ [' ', '*']) := by
        simp
      rw [hparts, pair_infix_append, pair_infix_append]
      rintro (h | (h | h | ⟨-, h⟩) | ⟨h, -⟩)
      · exact absurd h (by decide)
      · exact hbody h
      · exact absurd h (by decide)
      · simp at h
      · simp at h
    obtain ⟨j, hj⟩ := past_close hinner b a (some '*')
      (0 + indent.toList.length + 2) []
    show (level b a).past none 0 _ = _
    rw [hlist, past_inert b a none 0 (isInert_of_blanks hindent), past_open, hj, past]
    rfl
  refine ⟨fun _ => ?_, by rwa [hconsume], hconsume⟩
  rw [String.append_assoc, String.append_assoc]
  exact declaredName?_of_indent hindent (by simp [String.toList_append])

/-- The lines in a comment that goes on. -/
theorem Skips.remarks (h : ∀ line ∈ lines, ¬ ['*', '/'] <:+: line.toList) (b a : Int)
    (hP : P (inRemark b a)) : Skips P (inRemark b a) lines (inRemark b a) := by
  induction lines with
  | nil => rfl
  | cons line lines ih =>
    have hconsume : (inRemark b a).consume line = inRemark b a :=
      past_inRemark (h line List.mem_cons_self) b a none 0
    refine ⟨(fun hs => by cases hs), by rwa [hconsume], ?_⟩
    rw [hconsume]
    exact ih fun l hl => h l (List.mem_cons_of_mem _ hl)

/-- A comment on several lines. -/
theorem Skips.comments (hindent : IsIndent indent)
    (h : ∀ line ∈ lines, ¬ ['*', '/'] <:+: line.toList) (b a : Int) (hP : P (level b a))
    (hremark : P (inRemark b a)) :
    Skips P (level b a) ([indent ++ "/**"] ++ lines ++ [indent ++ " */"]) (level b a) := by
  have hopen : (level b a).consume (indent ++ "/**") = inRemark b a := by
    show (level b a).past none 0 (indent ++ "/**").toList = _
    rw [String.toList_append, past_inert b a none 0 (isInert_of_blanks hindent)]
    show (level b a).past _ _ ('/' :: '*' :: ['*']) = _
    rw [past_open, past_inRemark (by decide)]
  have hclose : (inRemark b a).consume (indent ++ " */") = level b a := by
    have hspaces : ¬ ['*', '/'] <:+: (indent.toList ++ [' ']) ++ ['*'] := by
      have hno : '*' ∉ indent.toList := fun hmem => by
        simpa using List.all_eq_true.1 hindent _ hmem
      rw [pair_infix_append, pair_infix_append]
      rintro ((h | h | ⟨-, h⟩) | h | ⟨-, h⟩)
      · exact hno (h.subset (by simp))
      · exact absurd h (by decide)
      · simp at h
      · exact absurd h (by decide)
      · simp at h
    obtain ⟨j, hj⟩ := past_close hspaces b a none 0 []
    have hlist : (indent ++ " */").toList = (indent.toList ++ [' ']) ++ '*' :: '/' :: [] := by
      simp [String.toList_append]
    show (inRemark b a).past none 0 (indent ++ " */").toList = _
    rw [hlist, hj, past]
    rfl
  refine Skips.append (Skips.append (t := inRemark b a) ?_ (Skips.remarks h b a hremark)) ?_
  · refine ⟨fun _ => declaredName?_of_indent hindent (by simp), by rwa [hopen], hopen⟩
  · refine ⟨(fun hs => by cases hs), by rwa [hclose], hclose⟩

/-! ## Templates -/

/-- The first of some pieces ends a line that is already begun, and the lines after it are
skipped. -/
def Finishes (P : LineState → Prop) (s : LineState) (previous : Option Char) (i : Nat)
    (cuts : List (List Char)) (t : LineState) : Prop :=
  ∃ first more, cuts = first :: more ∧ P (s.past previous i first) ∧
    Skips P (s.past previous i first) (more.map String.ofList) t

/-- A template is left where it ends, on whatever line that is. -/
theorem finishes_template (b a : Int) (r post : List Char) (hP : P (inText b a '`'))
    (hpost : '\n' ∉ post) (hend : ∀ i, (level b a).past (some '`') i post = t) (ht : P t)
    (previous : Option Char) (i : Nat) :
    Finishes P (inText b a '`') previous i
      (Text.cut '\n' (Emission.templateChars r ++ '`' :: post)) t := by
  fun_induction Emission.templateChars r generalizing previous i with
  | case1 =>
    have hcut : Text.cut '\n' ([] ++ '`' :: post) = ['`' :: post] :=
      cut_of_not_mem (by simpa using hpost)
    have hpast : (inText b a '`').past previous i ('`' :: post) = t := by
      rw [past_text b a (by decide), if_pos rfl, hend]
    exact ⟨_, [], hcut, by rwa [hpast], hpast⟩
  | case2 rest ih =>
    obtain ⟨first, more, hcut, hfirst, hmore⟩ := ih (some '{') (i + 2 + 1)
    have hpast : (inText b a '`').past previous i ('\\' :: '$' :: '{' :: first) =
        (inText b a '`').past (some '{') (i + 2 + 1) first := by
      rw [past_text_escape]
      show (inText b a '`').past _ _ ('{' :: first) = _
      rw [past_text b a (by decide), if_neg (by decide)]
    refine ⟨'\\' :: '$' :: '{' :: first, more, ?_, by rwa [hpast], by rwa [hpast]⟩
    exact cut_cons (by decide) (cut_cons (by decide) (cut_cons (by decide) hcut))
  | case3 c rest hno hc ih =>
    obtain ⟨first, more, hcut, hfirst, hmore⟩ := ih (some c) (i + 2)
    have hpast : (inText b a '`').past previous i ('\\' :: c :: first) =
        (inText b a '`').past (some c) (i + 2) first := by
      rw [past_text_escape]
      rfl
    have hline : c ≠ '\n' := by rintro rfl; exact absurd hc (by decide)
    refine ⟨'\\' :: c :: first, more, ?_, by rwa [hpast], by rwa [hpast]⟩
    exact cut_cons (by decide) (cut_cons hline hcut)
  | case4 c rest hno hc ih =>
    by_cases hline : c = '\n'
    · -- a new line, on which the template goes on
      subst hline
      obtain ⟨first, more, hcut, hfirst, hmore⟩ := ih none 0
      have hstay : (inText b a '`').past previous i [] = inText b a '`' := by
        rw [past]
        rfl
      refine ⟨[], first :: more, by rw [List.cons_append, cut_cons_sep, hcut], by rwa [hstay],
        ?_⟩
      rw [hstay]
      have hconsume : (inText b a '`').consume (String.ofList first) =
          (inText b a '`').past none 0 first := by
        show (inText b a '`').past none 0 (String.ofList first).toList = _
        rw [String.toList_ofList]
      exact ⟨(fun hs => by cases hs), by rwa [hconsume], by rwa [hconsume]⟩
    · obtain ⟨first, more, hcut, hfirst, hmore⟩ := ih (some c) (i + 1)
      simp only [Bool.or_eq_true, decide_eq_true_eq, not_or] at hc
      have hpast : (inText b a '`').past previous i (c :: first) =
          (inText b a '`').past (some c) (i + 1) first := by
        rw [past_text b a hc.1, if_neg hc.2]
      exact ⟨c :: first, more, cut_cons hline hcut, by rwa [hpast], by rwa [hpast]⟩

end EventFlow.Declaration
