import EventFlow.Declaration.Basic
import EventFlow.Proofs.Token.Inline
import Mathlib.Algebra.Ring.Int.Defs

/-! Lines of code as the search for declarations sees them.

The search counts braces and angle brackets character by character; the tokenizer knows texts,
comments and the arrow as units. On code without templates the two agree:

    (level b a).past … cs = level (b + braces in ls) (a + angle brackets in ls)     if cs spells ls

Between two lines nothing is open but brackets, unless a comment or a template goes on. -/

namespace EventFlow.Declaration

open Text Token

variable (b a : Int)

namespace LineState

variable {c : Char} {w cs : List Char} {n : Nat} {previous : Option Char}

/-- Only brackets are open. -/
def level : LineState := { braces := b, angles := a }

/-- A text is open that `q` closes. -/
def inText (q : Char) : LineState := { braces := b, angles := a, quote := some q }

/-- A comment is open. -/
def inRemark : LineState := { braces := b, angles := a, inComment := true }

/-! ## Runs of characters -/

/-- A character that opens and closes nothing. -/
def isInert (c : Char) : Bool :=
  !(['"', '\'', '`', '{', '}', '<', '>', '/'].contains c)

theorem past_code (previous : Option Char) (i : Nat) {rest : List Char}
    (h : IsPlainSlash c rest) :
    (level b a).past previous i (c :: rest) =
      ((level b a).code previous c).past (some c) (i + 1) rest := by
  have hremark : (c = '/' && rest.head? = some '/') = false := by
    simp only [Bool.and_eq_false_iff, decide_eq_false_iff_not]
    by_cases hc : c = '/'
    · exact Or.inr (h hc).1
    · exact Or.inl hc
  have hcomment : (c = '/' && rest.head? = some '*') = false := by
    simp only [Bool.and_eq_false_iff, decide_eq_false_iff_not]
    by_cases hc : c = '/'
    · exact Or.inr (h hc).2
    · exact Or.inl hc
  rw [past]
  simp only [level, Bool.false_eq_true, if_false, hremark, hcomment]

theorem code_of_isInert (s : LineState) (previous : Option Char) (h : isInert c = true) :
    s.code previous c = s := by
  simp only [isInert, List.contains_eq_mem, Bool.not_eq_true', decide_eq_false_iff_not,
    List.mem_cons, List.not_mem_nil, or_false, not_or] at h
  obtain ⟨h1, h2, h3, h4, h5, h6, h7, -⟩ := h
  simp [code, h1, h2, h3, h4, h5, h6, h7]

/-- Characters that leave the state as it is are passed over. -/
theorem past_append {s : LineState} (previous : Option Char) (i : Nat) (rest : List Char)
    (hw : ∀ c ∈ w, ∀ previous i rest,
      s.past previous i (c :: rest) = s.past (some c) (i + 1) rest) :
    s.past previous i (w ++ rest) = s.past (w.getLast?.or previous) (i + w.length) rest := by
  induction w generalizing previous i with
  | nil => rfl
  | cons c w ih =>
    rw [List.cons_append, hw c List.mem_cons_self,
      ih _ _ fun x hx => hw x (List.mem_cons_of_mem _ hx)]
    congr 1
    · cases w with
      | nil => rfl
      | cons d w => simp [List.getLast?_cons]
    · simp only [List.length_cons]
      omega

theorem past_inert (previous : Option Char) (i : Nat) (hw : ∀ c ∈ w, isInert c = true)
    (rest : List Char) :
    (level b a).past previous i (w ++ rest) =
      (level b a).past (w.getLast?.or previous) (i + w.length) rest := by
  refine past_append previous i rest fun c hc previous i rest => ?_
  have hslash : IsPlainSlash c rest := by
    rintro rfl
    exact absurd (hw _ hc) (by decide)
  rw [past_code b a previous i hslash, code_of_isInert _ _ (hw c hc)]

/-! ## Texts in quotes -/

theorem past_text {q : Char} (h : c ≠ '\\') (previous : Option Char) (i : Nat) (rest : List Char) :
    (inText b a q).past previous i (c :: rest) =
      (if c = q then level b a else inText b a q).past (some c) (i + 1) rest := by
  rw [past]
  simp only [inText, Bool.false_eq_true, if_false, if_neg h]
  by_cases hc : c = q
  · rw [if_pos hc, if_pos hc]
    rfl
  · rw [if_neg hc, if_neg hc]

theorem past_text_escape (q : Char) (previous : Option Char) (i : Nat) (rest : List Char) :
    (inText b a q).past previous i ('\\' :: rest) =
      (inText b a q).past rest.head? (i + 2) (rest.drop 1) := by
  rw [past]
  simp [inText]

theorem past_inText (q : Char) (previous : Option Char) (i : Nat) (hw : ∀ c ∈ w, c ≠ q ∧ c ≠ '\\')
    (rest : List Char) :
    (inText b a q).past previous i (w ++ rest) =
      (inText b a q).past (w.getLast?.or previous) (i + w.length) rest := by
  refine past_append previous i rest fun c hc previous i rest => ?_
  rw [past_text b a (hw c hc).2, if_neg (hw c hc).1]

/-- A text that the tokenizer reads to its end is left at the same place by the search. -/
theorem past_stringBody {b a : Int} {q : Char} (hq : q = '\'' ∨ q = '"') {units : List Nat}
    (h : StringBody q w units) (previous : Option Char) (i : Nat) (rest : List Char) :
    ∃ j, (inText b a q).past previous i (w ++ rest) = (level b a).past (some q) j rest := by
  induction h generalizing previous i with
  | close =>
    refine ⟨i + 1, ?_⟩
    rw [List.singleton_append, past_text b a (by rcases hq with rfl | rfl <;> decide), if_pos rfl]
  | @escape e w units more _ he _ ih =>
    obtain ⟨c, t, rfl, hdigits⟩ := he.digits
    have ht : ∀ x ∈ t, x ≠ q ∧ x ≠ '\\' := by
      intro x hx
      have hx := hdigits x hx
      refine ⟨?_, ?_⟩ <;> rintro rfl
      · rcases hq with rfl | rfl <;> exact absurd hx (by decide)
      · exact absurd hx (by decide)
    obtain ⟨j, hj⟩ := ih (t.getLast?.or (some c)) (i + 2 + t.length)
    refine ⟨j, ?_⟩
    rw [List.cons_append, List.append_assoc, past_text_escape]
    exact (past_inText b a q _ _ ht _).trans hj
  | @char c w more _ hcq hb _ ih =>
    obtain ⟨j, hj⟩ := ih (some c) (i + 1)
    refine ⟨j, ?_⟩
    rw [List.cons_append, past_text b a hb, if_neg hcq, hj]

/-! ## Numbers -/

/-- A character that can stand in a number. -/
def isNumeric (c : Char) : Bool :=
  Token.isNamePart c || isDecimal c || ['.', '+', '-'].contains c

theorem isInert_of_isNumeric (h : isNumeric c = true) : isInert c = true ∧ c ≠ '=' := by
  by_cases hc : c.toNat < 128
  · have hall : ∀ n < 128, isNumeric (Char.ofNat n) = true →
        isInert (Char.ofNat n) = true ∧ Char.ofNat n ≠ '=' := by decide +kernel
    have := hall c.toNat hc
    rw [Char.ofNat_toNat] at this
    exact this h
  · have hne : ∀ x : Char, x.toNat < 128 → c ≠ x := by
      rintro x hx rfl
      exact hc hx
    refine ⟨?_, hne '=' (by decide)⟩
    simp only [isInert, List.contains_eq_mem, Bool.not_eq_true', decide_eq_false_iff_not,
      List.mem_cons, List.not_mem_nil, or_false, not_or]
    exact ⟨hne _ (by decide), hne _ (by decide), hne _ (by decide), hne _ (by decide),
      hne _ (by decide), hne _ (by decide), hne _ (by decide), hne _ (by decide)⟩

/-- The first characters of a text, as many as it begins with decimal digits. -/
theorem isNumeric_of_mem_decimals (cs : List Char) :
    ∀ c ∈ cs.take (cs.takeWhile isDecimal).length, isNumeric c = true := by
  intro c hc
  rw [← List.prefix_iff_eq_take.1 (List.takeWhile_prefix isDecimal)] at hc
  simp [isNumeric, List.all_eq_true.1 List.all_takeWhile c hc]

theorem exponent?_numeric {power : Int} (h : Number.exponent? isDecimal cs = some (power, n)) :
    ∀ c ∈ cs.take n, isNumeric c = true := by
  cases cs with
  | nil => cases h
  | cons mark rest =>
    rw [exponent?_cons] at h
    split at h
    · next hmark =>
      dsimp only at h
      split at h
      · cases h
      · cases h
        have hsign : ∀ c ∈ rest.take (signLength rest), isNumeric c = true := by
          intro c hc
          unfold signLength at hc
          split at hc
          · simp at hc; subst hc; decide
          · simp at hc; subst hc; decide
          · simp at hc
        intro c hc
        rw [Nat.add_assoc, Nat.add_comm 1, List.take_succ_cons, List.mem_cons, List.take_add,
          List.mem_append] at hc
        rcases hc with rfl | hc | hc
        · rcases Bool.or_eq_true_iff.1 hmark with hc | hc <;>
            (obtain rfl := of_decide_eq_true hc; decide)
        · exact hsign c hc
        · exact isNumeric_of_mem_decimals _ c hc
    · cases h

theorem hexNumber?_numeric {value : Number} (h : hexNumber? cs = some (value, n)) :
    ∀ c ∈ cs.take n, isNumeric c = true := by
  unfold hexNumber? at h
  split at h
  · next mark rest =>
    dsimp only at h
    split at h
    · next hmark =>
      cases h
      intro c hc
      rw [List.take_succ_cons, List.take_succ_cons, List.mem_cons, List.mem_cons,
        ← List.prefix_iff_eq_take.1 (List.takeWhile_prefix isHex)] at hc
      rcases hc with rfl | rfl | hc
      · decide
      · have hname : Token.isNamePart c = true := by
          have hx := (Bool.and_eq_true_iff.1 hmark).1
          rcases Bool.or_eq_true_iff.1 hx with hx | hx <;>
            (obtain rfl := of_decide_eq_true hx; decide)
        simp [isNumeric, hname]
      · have hx := List.all_eq_true.1 List.all_takeWhile c hc
        simp [isNumeric, isNamePart_of_isHex c hx]
    · cases h
  · cases h

theorem decimalNumber_numeric {value : Number} (h : decimalNumber cs = .ok (value, n)) :
    ∀ c ∈ cs.take n, isNumeric c = true := by
  unfold decimalNumber at h
  dsimp only at h
  have hwhole := isNumeric_of_mem_decimals cs
  generalize cs.takeWhile isDecimal = whole at h hwhole
  generalize hq : cs.drop whole.length = q at h
  generalize hp : (if q.head? = some '.' then (q.drop 1).takeWhile isDecimal else []) =
    fraction at h
  generalize hpt : (if q.head? = some '.' then 1 + fraction.length else 0) = point at h
  have hpoint : ∀ c ∈ q.take point, isNumeric c = true := by
    intro c hc
    by_cases hd : q.head? = some '.'
    · rw [if_pos hd] at hp hpt
      obtain ⟨rest, rfl⟩ := List.head?_eq_some_iff.1 hd
      rw [← hpt, Nat.add_comm, List.take_succ_cons, List.mem_cons, ← hp] at hc
      rcases hc with rfl | hc
      · decide
      · exact isNumeric_of_mem_decimals rest c hc
    · rw [if_neg hd] at hpt
      simp [← hpt] at hc
  have hboth : ∀ c ∈ cs.take (whole.length + point), isNumeric c = true := by
    intro c hc
    rw [List.take_add, List.mem_append, hq] at hc
    exact hc.elim (hwhole c) (hpoint c)
  split at h
  · cases h
  · split at h
    · next hexp =>
      cases h
      intro c hc
      rw [List.take_add, List.mem_append, ← List.drop_drop, hq] at hc
      exact hc.elim (hboth c) (exponent?_numeric hexp c)
    · split at h
      · cases h
        exact hboth
      · split at h
        · cases h
        · cases h
          exact hwhole

theorem readNumber_numeric {value : Number} (h : readNumber cs = .ok (value, n)) :
    ∀ c ∈ cs.take n, isNumeric c = true := by
  unfold readNumber at h
  split at h
  · next hhex =>
    cases h
    exact hexNumber?_numeric hhex
  · exact decimalNumber_numeric h

/-! ## Lexemes -/

/-- How many more braces are open after a lexeme. -/
def braceStep (l : Lexeme) : Int :=
  if l = .punct r"{" then 1 else if l = .punct r"}" then -1 else 0

/-- How many more angle brackets are open after a lexeme. -/
def angleStep (l : Lexeme) : Int :=
  if l = .punct "<" then 1 else if l = .punct ">" then -1 else 0

theorem punct_singleton_inj {d : Char} :
    Lexeme.punct (String.singleton c) = .punct (String.singleton d) ↔ c = d := by
  rw [Lexeme.punct.injEq]
  constructor
  · intro h
    have := congrArg String.toList h
    simpa using this
  · rintro rfl
    rfl

theorem code_mark (hquote : c ≠ '"' ∧ c ≠ '\'' ∧ c ≠ '`')
    (hprevious : previous = some '=' → c ≠ '>') :
    (level b a).code previous c =
      level (b + braceStep (.punct (String.singleton c)))
        (a + angleStep (.punct (String.singleton c))) := by
  have hmark : ∀ d : Char, (Lexeme.punct (String.singleton c) = .punct (String.singleton d)) =
      (c = d) := fun d => propext punct_singleton_inj
  have hbrace : braceStep (.punct (String.singleton c)) =
      if c = '{' then 1 else if c = '}' then -1 else 0 := by
    simp only [braceStep, ← hmark]
    rfl
  have hangle : angleStep (.punct (String.singleton c)) =
      if c = '<' then 1 else if c = '>' then -1 else 0 := by
    simp only [angleStep, ← hmark]
    rfl
  rw [hbrace, hangle, code, if_neg (by simp [hquote])]
  by_cases h1 : c = '{'
  · subst h1; simp [level]
  by_cases h2 : c = '}'
  · subst h2; simp [level]; omega
  by_cases h3 : c = '<'
  · subst h3; simp [level]
  by_cases h4 : c = '>'
  · subst h4
    have hne : previous ≠ some '=' := fun h => hprevious h rfl
    simp [level, hne]
    omega
  · simp [h1, h2, h3, h4]

/-- A run of characters of a name or a number. -/
theorem past_numeric (previous : Option Char) (i : Nat) (hne : w ≠ [])
    (hw : ∀ c ∈ w, isNumeric c = true) (rest : List Char) :
    ∃ p j, (level b a).past previous i (w ++ rest) = (level b a).past p j rest ∧ p ≠ some '=' := by
  refine ⟨_, _, past_inert b a previous i (fun c hc => (isInert_of_isNumeric (hw c hc)).1) rest, ?_⟩
  rw [List.getLast?_eq_some_getLast hne, Option.some_or]
  intro h
  exact (isInert_of_isNumeric (hw _ (List.getLast_mem hne))).2 (Option.some.inj h)

theorem longMark_facts : ∀ mark ∈ longMarks, braceStep (.punct mark) = 0 ∧
    angleStep (.punct mark) = 0 ∧ mark.toList ≠ [] ∧
      (mark = "=>" ∨ mark.toList.all (fun x => isInert x && x != '=') = true) := by
  decide

/-- A mark of one or more characters; an arrow is no closing bracket. -/
theorem past_punct {rest : List Char} {mark : String} (h : punctAt? (c :: rest) = some mark)
    (hquote : c ≠ '"' ∧ c ≠ '\'' ∧ c ≠ '`')
    (hslash : IsPlainSlash c rest) (b a : Int)
    (hprevious : previous = some '=' → c ≠ '>') (i : Nat) :
    ∃ p j, (level b a).past previous i (c :: rest) =
        (level (b + braceStep (.punct mark)) (a + angleStep (.punct mark))).past p j
          (rest.drop (mark.length - 1)) ∧
      (p = some '=' → (rest.drop (mark.length - 1)).head? ≠ some '>') := by
  obtain ⟨⟨more, hmore⟩, hmem | ⟨rfl, -, hlong⟩⟩ := punctAt?_cases h
  · obtain ⟨hbrace, hangle, hne, hchars⟩ := longMark_facts mark hmem
    rw [hbrace, hangle, Int.add_zero, Int.add_zero]
    have hdrop : rest.drop (mark.length - 1) = more := by
      rw [← String.length_toList]
      cases hlist : mark.toList with
      | nil => exact absurd hlist hne
      | cons x xs =>
        rw [hlist] at hmore
        obtain ⟨-, rfl⟩ := List.cons.inj hmore
        simp
    rw [hdrop, ← hmore]
    rcases hchars with rfl | hchars
    · refine ⟨some '>', i + 1 + 1, ?_, by simp⟩
      show (level b a).past previous i ('=' :: '>' :: more) = _
      rw [past_code b a previous i (by rintro ⟨⟩), code_of_isInert _ _ (by decide),
        past_code b a _ _ (by rintro ⟨⟩)]
      rfl
    · have hinert : ∀ x ∈ mark.toList, isInert x = true ∧ x ≠ '=' := by
        simpa using hchars
      refine ⟨_, _, past_inert b a previous i (fun x hx => (hinert x hx).1) more, ?_⟩
      rw [List.getLast?_eq_some_getLast hne, Option.some_or]
      exact fun h => absurd (Option.some.inj h) (hinert _ (List.getLast_mem hne)).2
  · have hone : rest.drop ((String.singleton c).length - 1) = rest := by
      rw [String.length_singleton]
      rfl
    rw [hone]
    refine ⟨some c, i + 1, ?_, ?_⟩
    · rw [past_code b a previous i hslash, code_mark b a hquote hprevious]
    · -- after an equals sign there is no closing bracket, or the two would be an arrow
      intro hc hhead
      obtain rfl := Option.some.inj hc
      obtain ⟨more, rfl⟩ := List.head?_eq_some_iff.1 hhead
      exact hlong "=>" (by decide) ⟨more, rfl⟩

theorem isNumeric_of_name (hc : Token.isNameStart c = true) (rest : List Char) :
    ∀ x ∈ (c :: rest).take ((rest.takeWhile Token.isNamePart).length + 1), isNumeric x = true := by
  intro x hx
  rw [List.take_succ_cons, List.mem_cons,
    ← List.prefix_iff_eq_take.1 (List.takeWhile_prefix Token.isNamePart)] at hx
  have hpart : Token.isNamePart x = true := by
    rcases hx with rfl | hx
    · exact isNamePart_of_isNameStart hc
    · exact List.all_eq_true.1 List.all_takeWhile x hx
  simp [isNumeric, hpart]

theorem past_lexeme {rest : List Char} {l : Lexeme} (h : pieceAt c rest = .ok (.lexeme l, n))
    (hplain : isTemplate l = false) (b a : Int) (hprevious : previous = some '=' → c ≠ '>')
    (i : Nat) :
    ∃ p j, (level b a).past previous i (c :: rest) =
        (level (b + braceStep l) (a + angleStep l)).past p j (rest.drop (n - 1)) ∧
      (p = some '=' → (rest.drop (n - 1)).head? ≠ some '>') := by
  obtain ⟨hslash, hl⟩ : IsPlainSlash c rest ∧ LexemeAt c rest l n := by
    cases pieceAt_eq_ok_iff.1 h with
    | lexeme _ hopen hl => exact ⟨opensRemark_eq_false_iff.1 hopen, hl⟩
  obtain ⟨hpos, -⟩ := hl.bounds
  -- a name or a number leaves the brackets as they are
  have hrun : (∀ x ∈ (c :: rest).take n, isNumeric x = true) →
      ∃ p j, (level b a).past previous i (c :: rest) =
          (level b a).past p j (rest.drop (n - 1)) ∧
        (p = some '=' → (rest.drop (n - 1)).head? ≠ some '>') := by
    intro hw
    have hsplit : c :: rest = (c :: rest).take n ++ rest.drop (n - 1) := by
      rw [drop_pred hpos c, List.take_append_drop]
    have hne : (c :: rest).take n ≠ [] := by
      simp only [ne_eq, List.take_eq_nil_iff, reduceCtorEq, or_false]
      omega
    obtain ⟨p, j, hpast, hp⟩ := past_numeric b a previous i hne hw (rest.drop (n - 1))
    rw [← hsplit] at hpast
    exact ⟨p, j, hpast, fun h => absurd h hp⟩
  cases hl with
  | @text w rest units hq hw =>
    obtain ⟨j, hj⟩ := past_stringBody (b := b) (a := a) hq hw (some c) (i + 1) rest
    refine ⟨some c, j, ?_, by rcases hq with rfl | rfl <;> simp⟩
    have hcode : (level b a).code previous c = inText b a c := by
      rcases hq with rfl | rfl <;> rfl
    show _ = (level (b + 0) (a + 0)).past _ _ _
    rw [past_code b a previous i hslash, hcode, Int.add_zero, Int.add_zero, Nat.add_sub_cancel,
      List.drop_left, hj]
  | template => cases hplain
  | number _ _ hread => simpa [braceStep, angleStep] using hrun (readNumber_numeric hread)
  | name _ _ hname => simpa [braceStep, angleStep] using hrun (isNumeric_of_name hname rest)
  | punct hc _ _ hmark => exact past_punct hmark (isQuote_eq_false_iff.1 hc) hslash b a hprevious i

/-! ## Lines of code -/

/-- How many more braces are open after some lexemes. -/
def netBraces (ls : List Lexeme) : Int := (ls.map braceStep).sum

/-- How many more angle brackets are open after some lexemes. -/
def netAngles (ls : List Lexeme) : Int := (ls.map angleStep).sum

theorem past_pieces {here : Cursor} {placed : List Placed} {ls : List Lexeme}
    (h : pieces here cs = .ok placed) (hcode : codeOf (placed.map (·.piece)) = some ls)
    (hplain : ∀ l ∈ ls, isTemplate l = false) (b a : Int)
    (hprevious : previous = some '=' → cs.head? ≠ some '>') (i : Nat) :
    (level b a).past previous i cs = level (b + netBraces ls) (a + netAngles ls) := by
  rw [pieces_eq_ok_iff] at h
  induction h generalizing ls b a previous i with
  | nil here =>
    cases hcode
    rw [past]
    simp [level, endLine, netBraces, netAngles]
  | @cons here c rest piece n more hat _ ih =>
    have hc : previous = some '=' → c ≠ '>' := fun h hc => hprevious h (by simp [hc])
    cases piece with
    | blank =>
      obtain ⟨hblank, rfl⟩ := pieceAt_blank hat
      have hinert : isInert c = true ∧ c ≠ '=' := by
        refine ⟨?_, by rintro rfl; exact absurd hblank (by decide)⟩
        simp only [isInert, List.contains_eq_mem, Bool.not_eq_true', decide_eq_false_iff_not]
        intro hmem
        have hall : ['"', '\'', '`', '{', '}', '<', '>', '/'].any isBlank = false := by
          decide
        exact List.any_eq_false.1 hall c hmem hblank
      have hslash : IsPlainSlash c rest := by
        rintro rfl
        exact absurd hblank (by decide)
      rw [past_code b a previous i hslash, code_of_isInert _ _ hinert.1]
      exact ih hcode hplain b a (fun h => absurd (Option.some.inj h) hinert.2) (i + 1)
    | remark => cases hcode
    | comment raw => cases hcode
    | lexeme l =>
      simp only [List.map_cons, codeOf] at hcode
      split at hcode
      · obtain ⟨ls, hls, rfl⟩ := Option.map_eq_some_iff.1 hcode
        obtain ⟨p, j, hpast, hp⟩ := past_lexeme hat (hplain l List.mem_cons_self) b a hc i
        rw [hpast, ih hls (fun x hx => hplain x (List.mem_cons_of_mem _ hx)) _ _ hp j]
        simp only [netBraces, netAngles, List.map_cons, List.sum_cons, Int.add_assoc]
      · cases hcode

/-- A line of code opens and closes the brackets that stand in it as lexemes. -/
theorem consume_inline {t : String} {ls : List Lexeme} (h : Inline t ls) (b a : Int) :
    (level b a).consume t = level (b + netBraces ls) (a + netAngles ls) := by
  obtain ⟨placed, hplaced, hcode⟩ := h.code (.start 1)
  exact past_pieces hplaced hcode h.plain b a (by simp) 0

end LineState

end EventFlow.Declaration
