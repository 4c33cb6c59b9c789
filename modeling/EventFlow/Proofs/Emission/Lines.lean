import EventFlow.Emission.Flow
import EventFlow.Proofs.Declaration.Scan
import EventFlow.Proofs.Program.Reading

/-! Emitted lines of code.

A line may go on over several lines of the text when it has a template in it. `Line t ls` says that
`t` spells the lexemes `ls`, that the search for declarations goes past it, and that no line break
follows a carriage return. Lines are put one below the other:

    Lines a la → Lines b lb → Lines (a ++ b) (la ++ lb)
    Lines ts ls → Code (unlines ts) ls -/

namespace EventFlow.Emission

open Declaration Declaration.LineState Text Token

variable {t : String} {ls lb : List Lexeme} {a b ts : List String} {lp lo la : List Lexeme}
  {indent post pre : String}

/-- No line break follows a carriage return, also when one comes after the text. -/
def HasPlainBreaks (cs : List Char) : Prop :=
  ¬ ['\r', '\n'] <:+: cs ∧ cs.getLast? ≠ some '\r'

theorem HasPlainBreaks.append_line {a b : List Char} (ha : HasPlainBreaks a)
    (hb : HasPlainBreaks b) : HasPlainBreaks (a ++ '\n' :: b) := by
  refine ⟨?_, ?_⟩
  · rw [pair_infix_append, List.infix_cons_iff, pair_prefix_iff]
    rintro (h | (⟨h, -⟩ | h) | ⟨h, -⟩)
    · exact ha.1 h
    · exact absurd h (by decide)
    · exact hb.1 h
    · exact ha.2 h
  · rw [List.getLast?_append, List.getLast?_cons]
    cases hlast : b.getLast? with
    | none => simp
    | some x =>
      intro h
      simp only [Option.getD_some, Option.some_or, Option.some.injEq] at h
      exact hb.2 (by rw [hlast, h])

/-- What an emitted line is to the tokenizer and to the search for declarations. -/
structure Line (t : String) (ls : List Lexeme) : Prop where
  code : Code t.toList ls
  quiet : ∀ b a, ∃ b' a', Skips (fun _ => True) (level b a) (lines t) (level b' a')
  tidy : HasPlainBreaks t.toList

/-- The text begins with something, and with neither of the words that begin a declaration. -/
def isQuiet (t : String) : Bool := t.toList.head?.any fun c => c ≠ 't' && c ≠ 'e'

/-- The text ends with something, and with no carriage return. -/
def isTidy (t : String) : Bool := t.toList.getLast?.any (· ≠ '\r')

theorem isQuiet_append {a b : String} (h : isQuiet a = true) : isQuiet (a ++ b) = true := by
  unfold isQuiet at h ⊢
  rw [String.toList_append, List.head?_append]
  cases hhead : a.toList.head? with
  | none => rw [hhead] at h; cases h
  | some x => rw [hhead] at h; exact h

theorem isTidy_append {a b : String} (h : isTidy b = true) : isTidy (a ++ b) = true := by
  unfold isTidy at h ⊢
  rw [String.toList_append, List.getLast?_append]
  cases hlast : b.toList.getLast? with
  | none => rw [hlast] at h; cases h
  | some x => rw [hlast] at h; exact h

theorem isQuiet_indent (hindent : IsIndent indent) (h : isQuiet t = true) :
    isQuiet (indent ++ t) = true := by
  unfold isQuiet at h ⊢
  rw [String.toList_append]
  cases hcs : indent.toList with
  | nil => simpa using h
  | cons c cs =>
    rw [IsIndent, hcs, List.all_cons, Bool.and_eq_true, decide_eq_true_eq] at hindent
    simp [hindent.1]

theorem inline_indent (hindent : IsIndent indent) (h : Inline t ls) : Inline (indent ++ t) ls := by
  by_cases hempty : indent = ""
  · rw [hempty, String.empty_append]
    exact h
  · refine (Inline.blanks hindent).append h (Or.inl (closed_iff.2 ?_))
    have hne : indent.toList ≠ [] := fun h => hempty (String.toList_eq_nil_iff.1 h)
    refine ⟨_, List.getLast?_eq_some_getLast hne, ?_⟩
    rw [of_decide_eq_true (List.all_eq_true.1 hindent _ (List.getLast_mem hne))]
    decide

theorem lines_of_flat (h : '\n' ∉ t.toList) : lines t = [t] := by
  rw [lines, cut_of_not_mem h]
  simp

theorem declaredName?_of_isQuiet (h : isQuiet t = true) : declaredName? t = none := by
  refine declaredName?_of_head ?_ ?_ <;> (intro hhead; rw [isQuiet, hhead] at h; simp at h)

theorem getLast?_ne_of_isTidy (h : isTidy t = true) : t.toList.getLast? ≠ some '\r' := by
  intro hlast
  rw [isTidy, hlast] at h
  simp at h

theorem Line.of_inline (h : Inline t ls) (hquiet : isQuiet t = true) (htidy : isTidy t = true) :
    Line t ls where
  code := h.code
  quiet b a := by
    rw [lines_of_flat h.flat]
    exact ⟨_, _, Skips.inline h (declaredName?_of_isQuiet hquiet) b a trivial⟩
  tidy := ⟨fun hmem => h.flat (hmem.subset (by simp)), getLast?_ne_of_isTidy htidy⟩

theorem Line.empty : Line "" [] where
  code := Code.nil
  quiet b a := ⟨_, _, Skips.inline Inline.empty (by decide) b a trivial⟩
  tidy := ⟨by decide, by decide⟩

/-! ## Lists of lines -/

/-- Lines one below the other. -/
def Lines (ts : List String) (ls : List Lexeme) : Prop :=
  ∃ lss, List.Forall₂ Line ts lss ∧ ls = lss.flatten

theorem Lines.nil : Lines [] [] := ⟨[], .nil, rfl⟩

theorem Lines.one (h : Line t ls) : Lines [t] ls :=
  ⟨[ls], .cons h .nil, by simp⟩

theorem Lines.append (ha : Lines a la) (hb : Lines b lb) :
    Lines (a ++ b) (la ++ lb) := by
  obtain ⟨lssa, hlssa, rfl⟩ := ha
  obtain ⟨lssb, hlssb, rfl⟩ := hb
  exact ⟨lssa ++ lssb, List.rel_append hlssa hlssb, by simp⟩

theorem Lines.eq_nil (h : Lines [] ls) : ls = [] := by
  obtain ⟨lss, hlss, rfl⟩ := h
  cases hlss
  rfl

theorem toList_unlines_cons_cons (t u : String) (ts : List String) :
    (unlines (t :: u :: ts)).toList = t.toList ++ '\n' :: (unlines (u :: ts)).toList := by
  simp [unlines, joinWith_cons_cons, String.toList_append]

/-- What is spelled line by line is spelled by the text of the lines. -/
theorem code_unlines {lss : List (List Lexeme)}
    (h : List.Forall₂ (fun t ls => Code t.toList ls) ts lss) :
    Code (unlines ts).toList lss.flatten := by
  induction h with
  | nil => exact Code.nil
  | @cons t ls ts lss ht hts ih =>
    cases hts with
    | nil => simpa [unlines, joinWith] using ht
    | @cons u lu ts lss hu hts =>
      rw [toList_unlines_cons_cons, List.flatten_cons]
      exact ht.append_stop (Code.cons_blank (by decide) ih) (by simp; decide)

/-- The text of the lines spells all their lexemes. -/
theorem Lines.code (h : Lines ts ls) : Code (unlines ts).toList ls := by
  obtain ⟨lss, hlss, rfl⟩ := h
  exact code_unlines (hlss.imp fun _ _ ht => ht.code)

theorem Lines.quiet (h : Lines ts ls) (b a : Int) :
    ∃ b' a', Skips (fun _ => True) (level b a) (ts.flatMap lines) (level b' a') := by
  obtain ⟨lss, hlss, rfl⟩ := h
  induction hlss generalizing b a with
  | nil => exact ⟨b, a, rfl⟩
  | @cons t ls ts lss ht hts ih =>
    obtain ⟨b', a', hfirst⟩ := ht.quiet b a
    obtain ⟨b'', a'', hrest⟩ := ih b' a'
    rw [List.flatMap_cons]
    exact ⟨b'', a'', hfirst.append hrest⟩

theorem hasPlainBreaks_unlines (h : ∀ t ∈ ts, HasPlainBreaks t.toList) :
    HasPlainBreaks (unlines ts).toList := by
  induction ts with
  | nil => exact ⟨by decide, by decide⟩
  | cons t ts ih =>
    have hrest := ih fun u hu => h u (List.mem_cons_of_mem _ hu)
    cases ts with
    | nil => exact h t List.mem_cons_self
    | cons u ts =>
      rw [toList_unlines_cons_cons]
      exact (h t List.mem_cons_self).append_line hrest

theorem Lines.tidy (h : Lines ts ls) : ∀ t ∈ ts, HasPlainBreaks t.toList := by
  obtain ⟨lss, hlss, -⟩ := h
  exact Program.forall_left hlss fun t ls ht => ht.tidy

/-! ## Lines that a semicolon may end -/

/-- Lines of code, with or without a semicolon after the last of them. -/
def Closable (ts : List String) (ls : List Lexeme) : Prop :=
  Lines ts ls ∧ (ts ≠ [] → Lines (ended ts) (ls ++ [.punct ";"]))

theorem Closable.nil : Closable [] [] := ⟨Lines.nil, fun h => absurd rfl h⟩

theorem ended_append (hb : b ≠ []) : ended (a ++ b) = a ++ ended b := by
  induction a with
  | nil => rfl
  | cons t a ih =>
    have hne : a ++ b ≠ [] := by simp [hb]
    obtain ⟨u, us, hu⟩ := List.exists_cons_of_ne_nil hne
    rw [List.cons_append, List.cons_append, ← ih, hu]
    rfl

/-- Only the last line matters for the semicolon. -/
theorem Lines.append_closable (ha : Lines a la) (hb : Closable b lb) (hne : b ≠ []) :
    Closable (a ++ b) (la ++ lb) := by
  refine ⟨ha.append hb.1, fun _ => ?_⟩
  rw [ended_append hne, List.append_assoc]
  exact ha.append (hb.2 hne)

theorem Closable.append (ha : Closable a la) (hb : Closable b lb) :
    Closable (a ++ b) (la ++ lb) := by
  by_cases hne : b = []
  · subst hne
    rw [hb.1.eq_nil, List.append_nil, List.append_nil]
    exact ha
  · exact ha.1.append_closable hb hne

theorem Closable.of_inline (h : Inline t ls) (hquiet : isQuiet t = true) (htidy : isTidy t = true) :
    Closable [t] ls := by
  refine ⟨Lines.one (Line.of_inline h hquiet htidy), fun _ => Lines.one ?_⟩
  exact Line.of_inline (h.append Inline.semicolon (Or.inr (by decide))) (isQuiet_append hquiet)
    (isTidy_append (by decide))

/-! ## Templates -/

theorem head?_templateChars {r : List Char} (h : (templateChars r).head? = some '\n') :
    r.head? = some '\n' := by
  fun_induction templateChars r with
  | case1 => cases h
  | case2 => simp at h
  | case3 => simp at h
  | case4 c rest hno hc => simpa using h

theorem templateChars_tidy {r : List Char} (h : ¬ ['\r', '\n'] <:+: r) :
    ¬ ['\r', '\n'] <:+: templateChars r := by
  fun_induction templateChars r with
  | case1 => exact h
  | case2 rest ih =>
    simp only [List.infix_cons_iff, pair_prefix_iff, not_or] at h ⊢
    exact ⟨by simp, by simp, by simp, ih h.2.2⟩
  | case3 c rest hno hc ih =>
    simp only [List.infix_cons_iff, pair_prefix_iff, not_or] at h ⊢
    refine ⟨by simp, ?_, ih h.2⟩
    rintro ⟨rfl, -⟩
    exact absurd hc (by decide)
  | case4 c rest hno hc ih =>
    simp only [List.infix_cons_iff, pair_prefix_iff, not_or] at h ⊢
    refine ⟨?_, ih h.2⟩
    rintro ⟨rfl, hhead⟩
    exact h.1 ⟨rfl, head?_templateChars hhead⟩

theorem cut_append_of_not_mem {sep : Char} {a b first : List Char} {more : List (List Char)}
    (ha : sep ∉ a) (hb : cut sep b = first :: more) :
    cut sep (a ++ b) = (a ++ first) :: more := by
  induction a with
  | nil => exact hb
  | cons c a ih =>
    rw [List.mem_cons, not_or] at ha
    exact cut_cons (Ne.symm ha.1) (ih ha.2)

theorem toList_template (pre post r : String) :
    (pre ++ quoteTemplate r ++ post).toList =
      pre.toList ++ '`' :: (templateChars r.toList ++ '`' :: post.toList) := by
  simp [quoteTemplate, String.toList_append]

/-- A template between code is one lexeme, whatever its text is. -/
theorem code_template (hpre : Inline pre lp) (hpost : Inline post lo) (r : String) :
    Code (pre ++ quoteTemplate r ++ post).toList (lp ++ .template r false :: lo) := by
  have hcode := Code.template r hpost.code
  rw [String.append_assoc, String.toList_append, String.toList_append]
  refine hpre.code.append_stop hcode ?_
  simp only [quoteTemplate, String.toList_ofList, List.cons_append, List.head?_cons,
    Option.mem_some_iff]
  rintro y rfl
  decide

/-- The search for declarations goes past a template, between code that opens and closes nothing. -/
theorem quiet_template (hpre : Inline pre lp) (hpost : Inline post lo) (hquiet : isQuiet pre = true)
    (hinert : ∀ c ∈ pre.toList ++ post.toList, isInert c = true) (r : String) (b a : Int) :
    ∃ b' a', Skips (fun _ => True) (level b a) (lines (pre ++ quoteTemplate r ++ post))
      (level b' a') := by
  have hend : ∀ i, (level b a).past (some '`') i post.toList = level b a := by
    intro i
    have := past_inert b a (some '`') i (fun c hc => hinert c (List.mem_append_right _ hc)) []
    rw [List.append_nil] at this
    rw [this, past]
    rfl
  obtain ⟨first, more, hcut, -, hmore⟩ := finishes_template (P := fun _ => True) b a r.toList
    post.toList trivial hpost.flat hend trivial (some '`') (pre.toList.length + 1)
  have hcut' : cut '\n' ('`' :: (templateChars r.toList ++ '`' :: post.toList)) =
      ('`' :: first) :: more := cut_cons (by decide) hcut
  have hlines : lines (pre ++ quoteTemplate r ++ post) =
      String.ofList (pre.toList ++ '`' :: first) :: more.map String.ofList := by
    rw [lines, toList_template, cut_append_of_not_mem hpre.flat hcut', List.map_cons]
  have hconsume : (level b a).consume (String.ofList (pre.toList ++ '`' :: first)) =
      (inText b a '`').past (some '`') (pre.toList.length + 1) first := by
    show (level b a).past none 0 (String.ofList (pre.toList ++ '`' :: first)).toList = _
    rw [String.toList_ofList,
      past_inert b a none 0 (fun c hc => hinert c (List.mem_append_left _ hc)),
      past_code _ _ _ _ (by rintro ⟨⟩), Nat.zero_add]
    rfl
  rw [hlines]
  refine ⟨b, a, fun _ => ?_, trivial, by rwa [hconsume]⟩
  have hofList : String.ofList (pre.toList ++ '`' :: first) =
      pre ++ String.ofList ('`' :: first) := by
    rw [String.ofList_append, String.ofList_toList]
  rw [hofList]
  exact declaredName?_of_isQuiet (isQuiet_append hquiet)

/-- A line with a template, between code that opens and closes nothing. -/
theorem Line.template (hpre : Inline pre lp) (hpost : Inline post lo) (hquiet : isQuiet pre = true)
    (htidy : isTidy post = true) (hinert : ∀ c ∈ pre.toList ++ post.toList, isInert c = true)
    {r : String} (hr : ¬ ['\r', '\n'] <:+: r.toList) :
    Line (pre ++ quoteTemplate r ++ post) (lp ++ .template r false :: lo) := by
  refine ⟨code_template hpre hpost r, quiet_template hpre hpost hquiet hinert r, ?_, ?_⟩
  · have hflat : ∀ {t : String} {ls : List Lexeme}, Inline t ls → ¬ ['\r', '\n'] <:+: t.toList :=
      fun h hmem => h.flat (hmem.subset (by simp))
    rw [toList_template]
    simp only [pair_infix_append, List.infix_cons_iff, pair_prefix_iff, not_or]
    refine ⟨hflat hpre, ⟨by simp, templateChars_tidy hr, ⟨by simp, hflat hpost⟩, by simp⟩, by simp⟩
  · exact getLast?_ne_of_isTidy (isTidy_append htidy)

/-! ## Blocks -/

/-- The lexemes of a callback with the given body. -/
def callbackLexemes (ls : List Lexeme) : List Lexeme :=
  .punct "(" :: .punct ")" :: .punct "=>" :: .punct r"{" :: ls ++ [.punct r"}"]

theorem closable_block {header footer : String} (hindent : IsIndent indent) {lh lf : List Lexeme}
    (hheader : Inline header lh) (hclosed : closed header = true) (hquiet : isQuiet header = true)
    (hfooter : Inline footer lf) (htidy : isTidy footer = true) {body : List String}
    (hbody : Lines body lb) :
    Closable (block indent header footer body) (lh ++ callbackLexemes lb ++ lf) := by
  have hstart := inline_indent hindent hheader
  have hstartQuiet := isQuiet_indent hindent hquiet
  have hstartClosed : closed (indent ++ header) = true := closed_append hclosed
  unfold block
  split
  · next hempty =>
    obtain rfl : body = [] := by simpa using hempty
    obtain rfl := hbody.eq_nil
    have hfunction : Inline "() => {}" (callbackLexemes []) := Inline.of_check
    exact Closable.of_inline
      ((hstart.append hfunction (Or.inl hstartClosed)).append hfooter
        (Or.inl (closed_append (by decide))))
      (isQuiet_append (isQuiet_append hstartQuiet)) (isTidy_append htidy)
  · have hopen : Inline r"() => {" [.punct "(", .punct ")", .punct "=>", .punct r"{"] :=
      Inline.of_check
    have hfirst := Line.of_inline (hstart.append hopen (Or.inl hstartClosed))
      (isQuiet_append hstartQuiet) (isTidy_append (by decide))
    have hlast := Closable.of_inline
      ((inline_indent hindent Inline.blockEnd).append hfooter (Or.inl (closed_append (by decide))))
      (isQuiet_append (isQuiet_indent hindent (by decide))) (isTidy_append htidy)
    have hall := ((Lines.one hfirst).append hbody).append_closable hlast (by simp)
    simpa [callbackLexemes] using hall

end EventFlow.Emission
