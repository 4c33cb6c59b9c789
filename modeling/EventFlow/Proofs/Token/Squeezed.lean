import EventFlow.Proofs.Declaration.Line
import EventFlow.Proofs.Text.Squeeze
import EventFlow.Proofs.Token.Pieces

/-! Source text with its blanks squeezed.

`squeeze` writes one space for every run of blanks, whatever the run stands in. Between lexemes
nothing is lost by that. Inside a literal the blanks belong to its value, and a remark whose line
break is gone runs on to the end of the text:

    squeeze "'a  b'" = "'a b'"        squeeze "A // x\n| B" = "A // x | B"

These are the only two ways in which squeezing changes what a text says. -/

namespace EventFlow

open Text

variable {w : List Char} {units : List Nat} {l : Lexeme}

namespace Token

/-! ## Literals with fewer blanks -/

/-- With its blanks squeezed an escape is an escape. An escaped blank becomes an escaped space, and
the run of blanks goes on behind it; no other escape has blanks in it. -/
theorem IsEscape.collapse {e : List Char} (h : IsEscape e units) (body : List Char) : ∃ e' r units',
      Text.collapse false (e ++ body) = e' ++ Text.collapse r body ∧ IsEscape e' units' := by
  obtain ⟨c, t, rfl, hdigits⟩ := h.digits
  cases hc : isBlank c with
  | true =>
    -- a blank stands alone
    obtain ⟨hself, units', hone⟩ := escape_single (c := c) (by rintro rfl; cases hc)
      (by rintro rfl; cases hc) t
    have hread := h.read []
    rw [List.append_nil, hself, hone] at hread
    obtain rfl : t = [] := by simpa using (Prod.mk.inj (Except.ok.inj hread)).2
    exact ⟨[' '], true, _, collapse_blank hc false body, fun rest => rfl, ' ', [], rfl, nofun⟩
  | false =>
    have hblank : ∀ d ∈ c :: t, isBlank d = false := by
      intro d hd
      rcases List.mem_cons.1 hd with rfl | hd
      · exact hc
      · rcases hdigits d hd with hhex | rfl | rfl
        · exact (isNamePart_facts (isNamePart_of_isHex d hhex)).1
        · rfl
        · rfl
    exact ⟨c :: t, false, units, collapse_append_of_not_blank hblank body, h⟩

/-- With its blanks squeezed a text in quotes still ends with its closing quote. -/
theorem StringBody.collapse {quote : Char} (hquote : isBlank quote = false)
    (h : StringBody quote w units) :
    ∃ body, w = body ++ [quote] ∧
      ∀ r, ∃ units', StringBody quote (Text.collapse r body ++ [quote]) units' := by
  induction h with
  | close hn => exact ⟨[], rfl, fun r => ⟨[], .close hn⟩⟩
  | @escape e w units more hq he _ ih =>
    obtain ⟨body, rfl, hbody⟩ := ih
    refine ⟨'\\' :: (e ++ body), by simp, fun r => ?_⟩
    obtain ⟨e', r', units', hcollapse, he'⟩ := he.collapse body
    obtain ⟨more', hmore⟩ := hbody r'
    rw [collapse_cons (by decide), hcollapse, List.cons_append, List.append_assoc]
    exact ⟨_, .escape hq he' hmore⟩
  | @char c w more hn hq hb _ ih =>
    obtain ⟨body, rfl, hbody⟩ := ih
    refine ⟨c :: body, rfl, fun r => ?_⟩
    cases hc : isBlank c with
    | false =>
      obtain ⟨more', hmore⟩ := hbody false
      rw [collapse_cons hc]
      exact ⟨_, .char hn hq hb hmore⟩
    | true =>
      obtain ⟨more', hmore⟩ := hbody true
      rw [collapse_blank hc]
      cases r with
      | true => exact ⟨_, hmore⟩
      | false => exact ⟨_, .char (by decide) (by rintro rfl; cases hquote) (by decide) hmore⟩

/-- With its blanks squeezed the rest of a substitution ends with its closing brace. -/
def Closes (depth : Nat) (quote : Option Char) (body : List Char) : Prop :=
  ∀ r, IsSubstitution depth quote (Text.collapse r body ++ ['}'])

section Closes

variable {depth depth' : Nat} {quote quote' : Option Char} {c : Char} {body : List Char}

theorem Closes.cons (hc : isBlank c = false)
    (hstep : ∀ start tail, substitution depth quote start (c :: tail) =
      substitution depth' quote' (start + 1) tail)
    (h : Closes depth' quote' body) : Closes depth quote (c :: body) := by
  intro r
  rw [collapse_cons hc]
  exact (h false).cons (v := [c]) hstep

theorem Closes.blank (hc : isBlank c = true)
    (hstep : ∀ start tail, substitution depth quote start (' ' :: tail) =
      substitution depth quote (start + 1) tail)
    (h : Closes depth quote body) : Closes depth quote (c :: body) := by
  intro r
  rw [collapse_blank hc]
  cases r with
  | true => exact h true
  | false => exact (h true).cons (v := [' ']) hstep

theorem Closes.escaped {q d : Char} (h : Closes depth (some q) body) :
    Closes depth (some q) ('\\' :: d :: body) := by
  have hstep : ∀ d start tail, substitution depth (some q) start ('\\' :: d :: tail) =
      substitution depth (some q) (start + 2) tail := by
    intro d start tail
    rw [substitution]
    simp
  intro r
  rw [collapse_cons (by decide)]
  cases hd : isBlank d with
  | true =>
    rw [collapse_blank hd]
    exact (h true).cons (v := ['\\', ' ']) (hstep ' ')
  | false =>
    rw [collapse_cons hd]
    exact (h false).cons (v := ['\\', d]) (hstep d)

end Closes

theorem closes_of_substitution {depth : Nat} {quote : Option Char} {taken : Nat} {cs : List Char}
    {stop : Nat} (hquote : ∀ q ∈ quote, isBlank q = false)
    (h : substitution depth quote taken cs = .ok stop) :
    ∃ body more, cs = body ++ '}' :: more ∧ stop = taken + body.length + 1 ∧
      Closes depth quote body := by
  fun_induction substitution depth quote taken cs with
  | case1 => cases h
  | case2 => cases h
  | case3 depth taken q d rest ih =>
    obtain ⟨body, more, rfl, rfl, hbody⟩ := ih hquote h
    exact ⟨'\\' :: d :: body, more, rfl, by simp only [List.length_cons]; omega, hbody.escaped⟩
  | case4 depth taken c rest q hc ih =>
    have hq : isBlank q = false := hquote q rfl
    obtain ⟨body, more, rfl, rfl, hbody⟩ := ih (by split <;> simp [hq]) h
    refine ⟨c :: body, more, rfl, by simp only [List.length_cons]; omega, ?_⟩
    cases hblank : isBlank c with
    | false =>
      exact hbody.cons hblank fun start tail => substitution_quoted hc
    | true =>
      rw [if_neg (by rintro rfl; rw [hq] at hblank; cases hblank)] at hbody
      refine hbody.blank hblank fun start tail => ?_
      rw [substitution_quoted (by decide), if_neg (by rintro rfl; cases hq)]
  | case5 depth taken c rest hq ih =>
    have hblank : isBlank c = false := by
      simp only [Bool.or_eq_true, decide_eq_true_eq] at hq
      rcases hq with (rfl | rfl) | rfl <;> rfl
    obtain ⟨body, more, rfl, rfl, hbody⟩ := ih (by simpa using hblank) h
    refine ⟨c :: body, more, rfl, by simp only [List.length_cons]; omega, ?_⟩
    exact hbody.cons hblank fun start tail => by rw [substitution]; simp only [if_pos hq]
  | case6 depth taken rest hq ih =>
    obtain ⟨body, more, rfl, rfl, hbody⟩ := ih hquote h
    refine ⟨'{' :: body, more, rfl, by simp only [List.length_cons]; omega, ?_⟩
    exact hbody.cons rfl fun start tail => by rw [substitution]; simp only [if_neg hq, if_true]
  | case7 depth taken rest hdepth hq hopen =>
    cases h
    refine ⟨[], rest, rfl, rfl, fun r taken rest => ?_⟩
    show substitution depth none taken ('}' :: rest) = _
    rw [substitution]
    simp only [if_neg hq, if_neg hopen, if_true, if_pos hdepth]
    rfl
  | case8 depth taken rest hdepth hq hopen ih =>
    obtain ⟨body, more, rfl, rfl, hbody⟩ := ih hquote h
    refine ⟨'}' :: body, more, rfl, by simp only [List.length_cons]; omega, ?_⟩
    exact hbody.cons rfl fun start tail => by
      rw [substitution]
      simp only [if_neg hq, if_neg hopen, if_true, if_neg hdepth]
  | case9 depth taken c rest hq hopen hclose ih =>
    obtain ⟨body, more, rfl, rfl, hbody⟩ := ih hquote h
    refine ⟨c :: body, more, rfl, by simp only [List.length_cons]; omega, ?_⟩
    cases hblank : isBlank c with
    | false =>
      exact hbody.cons hblank fun start tail => by
        rw [substitution]
        simp only [if_neg hq, if_neg hopen, if_neg hclose]
    | true => exact hbody.blank hblank fun start tail => by rw [substitution]; rfl

theorem IsSubstitution.closes {sub : List Char} (h : IsSubstitution 1 none sub) :
    ∃ body, sub = body ++ ['}'] ∧ Closes 1 none body := by
  obtain ⟨body, more, hsub, hlength, hbody⟩ := closes_of_substitution (by simp) (h 0 [])
  rw [List.append_nil] at hsub
  obtain rfl : more = [] := List.eq_nil_of_length_eq_zero (by
    rw [hsub, List.length_append, List.length_cons] at hlength
    omega)
  exact ⟨body, hsub, hbody⟩

/-- With its blanks squeezed a template still ends with its closing quote, and it has a substitution
if it had one. -/
theorem TemplateBody.collapse {marked : Bool} (h : TemplateBody w units marked) :
    ∃ body, w = body ++ ['`'] ∧
      ∀ r, ∃ units', TemplateBody (Text.collapse r body ++ ['`']) units' marked := by
  induction h with
  | close => exact ⟨[], rfl, fun r => ⟨[], .close⟩⟩
  | @escape e w units more marked he _ ih =>
    obtain ⟨body, rfl, hbody⟩ := ih
    refine ⟨'\\' :: (e ++ body), by simp, fun r => ?_⟩
    obtain ⟨e', r', units', hcollapse, he'⟩ := he.collapse body
    obtain ⟨more', hmore⟩ := hbody r'
    rw [collapse_cons (by decide), hcollapse, List.cons_append, List.append_assoc]
    exact ⟨_, .escape he' hmore⟩
  | @substitution sub w more marked hsub _ ih =>
    obtain ⟨body, rfl, hbody⟩ := ih
    obtain ⟨sub, rfl, hcloses⟩ := hsub.closes
    refine ⟨'$' :: '{' :: (sub ++ '}' :: body), by simp, fun r => ?_⟩
    obtain ⟨more', hmore⟩ := hbody false
    have hnew := TemplateBody.substitution (hcloses false) hmore
    rw [List.append_assoc, List.singleton_append] at hnew
    rw [collapse_cons (by decide), collapse_cons (by decide),
      collapse_append_cons (by decide), List.cons_append, List.cons_append, List.append_assoc]
    exact ⟨_, hnew⟩
  | @char c w more marked hq hb hd _ ih =>
    obtain ⟨body, rfl, hbody⟩ := ih
    refine ⟨c :: body, rfl, fun r => ?_⟩
    cases hc : isBlank c with
    | false =>
      obtain ⟨more', hmore⟩ := hbody false
      rw [collapse_cons hc]
      refine ⟨_, .char hq hb (fun hdollar hhead => ?_) hmore⟩
      exact hd hdollar ((head?_collapse (by decide) (by decide) body _ _).1 hhead)
    | true =>
      obtain ⟨more', hmore⟩ := hbody true
      rw [collapse_blank hc]
      cases r with
      | true => exact ⟨_, hmore⟩
      | false => exact ⟨_, .char (by decide) (by decide) (fun h => by cases h) hmore⟩

/-- With its blanks squeezed a comment still ends with its closing mark. -/
theorem not_infix_collapse (h : ¬ ['*', '/'] <:+: w ++ ['*']) (r : Bool) :
    ¬ ['*', '/'] <:+: Text.collapse r w ++ ['*'] := by
  induction w generalizing r with
  | nil => exact h
  | cons c w ih =>
    rw [List.cons_append, List.infix_cons_iff, not_or, pair_prefix_iff] at h
    cases hc : isBlank c with
    | false =>
      rw [collapse_cons hc, List.cons_append, List.infix_cons_iff, not_or, pair_prefix_iff]
      refine ⟨fun hend => h.1 ⟨hend.1, ?_⟩, ih h.2 false⟩
      exact (head?_collapse (by decide) (by decide) w _ _).1 hend.2
    | true =>
      rw [collapse_blank hc]
      cases r with
      | true => exact ih h.2 true
      | false =>
        show ¬ ['*', '/'] <:+: ' ' :: (Text.collapse true w ++ ['*'])
        rw [List.infix_cons_iff, not_or, pair_prefix_iff]
        exact ⟨by simp, ih h.2 true⟩

/-! ## One piece -/

/-- No lexeme but a literal goes on over a blank. -/
theorem stopper_of_isBlank {c : Char} (h : isBlank c = true) : stopper c = true := by
  have hall : ∀ n ∈ [0x09, 0x0a, 0x0b, 0x0c, 0x0d, 0x1c, 0x1d, 0x1e, 0x1f, 0x20, 0x85, 0xa0, 0x1680,
      0x2000, 0x2001, 0x2002, 0x2003, 0x2004, 0x2005, 0x2006, 0x2007, 0x2008, 0x2009, 0x200a,
      0x2028, 0x2029, 0x202f, 0x205f, 0x3000], stopper (Char.ofNat n) = true := by decide +kernel
  have hstop := hall c.toNat (by
    simp only [isBlank, Bool.or_eq_true, Bool.and_eq_true, decide_eq_true_eq, beq_iff_eq] at h
    simp only [List.mem_cons, List.not_mem_nil, or_false]
    omega)
  rwa [Char.ofNat_toNat] at hstop

/-- A text up to its first blank. -/
theorem exists_word (cs : List Char) :
    ∃ u v, cs = u ++ v ∧ (∀ c ∈ u, isBlank c = false) ∧ (∀ y ∈ v.head?, stopper y = true) ∧
      ∀ y ∈ (Text.squeezed false v).head?, stopper y = true := by
  induction cs with
  | nil => exact ⟨[], [], rfl, nofun, nofun, nofun⟩
  | cons c cs ih =>
    cases hc : isBlank c with
    | true =>
      refine ⟨[], c :: cs, rfl, by simp, ?_, ?_⟩
      · rintro y ⟨⟩
        exact stopper_of_isBlank hc
      · intro y hy
        rw [head?_squeezed_blank hc cs y hy]
        decide
    | false =>
      obtain ⟨u, v, rfl, hu, hv, hv'⟩ := ih
      exact ⟨c :: u, v, rfl, by simpa [hc] using hu, hv, hv'⟩

/-- With its blanks squeezed a literal is one literal, whatever stands behind it. -/
theorem LexemeAt.collapse {c : Char} {rest : List Char} {n : Nat} (hc : isQuote c = true)
    (h : LexemeAt c rest l n) :
    ∃ body more l', rest = body ++ c :: more ∧ n = body.length + 2 ∧
      ∀ tail, LexemeAt c (Text.collapse false body ++ c :: tail) l'
        ((Text.collapse false body).length + 2) := by
  cases h with
  | text hq hw =>
    obtain ⟨body, rfl, hbody⟩ := hw.collapse (by rcases hq with rfl | rfl <;> rfl)
    obtain ⟨units', hnew⟩ := hbody false
    have hl : ∀ tail, LexemeAt c (Text.collapse false body ++ [c] ++ tail) _ _ :=
      fun tail => .text hq hnew
    simp only [List.append_assoc, List.length_append] at hl
    exact ⟨body, _, _, List.append_assoc _ _ _, by simp, hl⟩
  | template hq hw =>
    obtain rfl := hq
    obtain ⟨body, rfl, hbody⟩ := hw.collapse
    obtain ⟨units', hnew⟩ := hbody false
    have hl : ∀ tail, LexemeAt '`' (Text.collapse false body ++ ['`'] ++ tail) _ _ :=
      fun tail => .template rfl hnew
    simp only [List.append_assoc, List.length_append] at hl
    exact ⟨body, _, _, List.append_assoc _ _ _, by simp, hl⟩
  | number hq | name hq | punct hq =>
    rw [hq] at hc
    cases hc

/-- What the squeezed text begins with where the text begins with the lexeme `l`, the first
character `c` of which stands before `rest`. -/
theorem LexemeAt.squeezed {c : Char} {rest : List Char} {n : Nat} (hc : isBlank c = false)
    (h : LexemeAt c rest l n) :
    ∃ w more l', rest = w ++ more ∧ n = w.length + 1 ∧ IsTrimmedEnd (c :: w) ∧
      LexemeAt c (Text.collapse false w ++ Text.squeezed false more) l'
        ((Text.collapse false w).length + 1) ∧
      (isLiteral l = false → l' = l) ∧
      (isLiteral l = true →
        LexemeAt c (Text.collapse false w) l' ((Text.collapse false w).length + 1)) := by
  have hliteral := h.isLiteral_eq
  cases hquote : isQuote c with
  | true =>
    obtain ⟨body, more, l', rfl, rfl, hbody⟩ := h.collapse hquote
    refine ⟨body ++ [c], more, l', by simp, by simp, ?_, ?_, ?_, ?_⟩
    · exact isTrimmedEnd_append (a := c :: body) (by rintro d ⟨⟩; exact hc) (by simp)
    · rw [collapse_append_cons hc, List.append_assoc, List.length_append]
      exact hbody _
    · rw [hliteral, hquote]
      intro h
      cases h
    · intro _
      rw [collapse_append_cons hc, List.length_append]
      exact hbody []
  | false =>
    obtain ⟨u, v, rfl, hu, hv, hv'⟩ := exists_word rest
    have h := h.of_tight hquote (Or.inl hv)
    obtain ⟨hpos, hle⟩ := h.bounds
    have hw : ∀ d ∈ u.take (n - 1), isBlank d = false := fun d hd =>
      hu d (List.mem_of_mem_take hd)
    have hself : Text.collapse false (u.take (n - 1)) = u.take (n - 1) := by
      simpa [Text.collapse] using collapse_append_of_not_blank hw []
    have hlen : n = (u.take (n - 1)).length + 1 := by
      rw [List.length_take]
      omega
    refine ⟨u.take (n - 1), u.drop (n - 1) ++ v, l, ?_, hlen, ?_, ?_, fun _ => rfl, ?_⟩
    · rw [← List.append_assoc, List.take_append_drop]
    · intro d hd
      rcases List.mem_cons.1 (List.mem_of_getLast? hd) with rfl | hd
      · exact hc
      · exact hw d hd
    · rw [hself, squeezed_append_of_not_blank (fun d hd => hu d (List.mem_of_mem_drop hd)),
        ← List.append_assoc, List.take_append_drop, ← hlen]
      exact h.append (Or.inl hv')
    · rw [hliteral, hquote]
      intro h
      cases h

/-! ## All pieces -/

/-- The characters of a piece. -/
def Placed.spelling (source : List Char) (p : Placed) : List Char :=
  (source.drop p.start.offset).take (p.stop.offset - p.start.offset)

/-- Every literal says the same when its own blanks are squeezed, and no lexeme stands behind a
remark. -/
structure Squeezable (source : List Char) (placed : List Placed) : Prop where
  literals : ∀ p ∈ placed, ∀ l ∈ p.piece.lexeme?, isLiteral l = true →
    lexemes? (squeeze (String.ofList (p.spelling source))) = some [l, .eof]
  remarks : placed.Pairwise fun p q => p.piece = .remark → q.piece.lexeme? = none

instance (source : List Char) (placed : List Placed) : Decidable (Squeezable source placed) :=
  decidable_of_iff ((∀ p ∈ placed, ∀ l ∈ p.piece.lexeme?, isLiteral l = true →
      lexemes? (squeeze (String.ofList (p.spelling source))) = some [l, .eof]) ∧
    placed.Pairwise fun p q => p.piece = .remark → q.piece.lexeme? = none)
    ⟨fun h => ⟨h.1, h.2⟩, fun h => ⟨h.literals, h.remarks⟩⟩

section Squeezable

variable {source : List Char} {p : Piece} {start stop : Cursor} {placed : List Placed}

/-- Blanks and comments do not matter. -/
theorem squeezable_cons_of_gap (hlexeme : p.lexeme? = none) (hremark : p ≠ .remark) :
    Squeezable source (⟨p, start, stop⟩ :: placed) ↔ Squeezable source placed := by
  constructor
  · intro h
    exact ⟨fun q hq => h.literals q (List.mem_cons_of_mem _ hq), h.remarks.of_cons⟩
  · intro h
    refine ⟨fun q hq l hl => ?_, List.pairwise_cons.2 ⟨fun q _ hp => absurd hp hremark, h.remarks⟩⟩
    rcases List.mem_cons.1 hq with rfl | hq
    · rw [hlexeme] at hl
      cases hl
    · exact h.literals q hq l hl

theorem squeezable_cons_of_remark :
    Squeezable source (⟨.remark, start, stop⟩ :: placed) ↔ lexemesOf placed = [] := by
  rw [lexemesOf, List.filterMap_eq_nil_iff]
  constructor
  · intro h q hq
    exact (List.pairwise_cons.1 h.remarks).1 q hq rfl
  · intro h
    refine ⟨fun q hq l hl => ?_, List.pairwise_cons.2 ⟨fun q hq _ => h q hq, ?_⟩⟩
    · rcases List.mem_cons.1 hq with rfl | hq
      · cases hl
      · rw [h q hq] at hl
        cases hl
    · exact List.pairwise_of_forall_mem_list fun a _ b hb _ => h b hb

theorem squeezable_cons_of_lexeme :
    Squeezable source (⟨.lexeme l, start, stop⟩ :: placed) ↔ (isLiteral l = true →
        lexemes? (squeeze (String.ofList (Placed.spelling source ⟨.lexeme l, start, stop⟩))) =
          some [l, .eof]) ∧
      Squeezable source placed := by
  constructor
  · intro h
    exact ⟨h.literals _ List.mem_cons_self l rfl,
      fun q hq => h.literals q (List.mem_cons_of_mem _ hq), h.remarks.of_cons⟩
  · rintro ⟨hfirst, h⟩
    refine ⟨fun q hq l' hl' => ?_, List.pairwise_cons.2 ⟨nofun, h.remarks⟩⟩
    rcases List.mem_cons.1 hq with rfl | hq
    · cases hl'
      exact hfirst
    · exact h.literals q hq l' hl'

end Squeezable

theorem opensRemark_squeezed (c : Char) (rest : List Char) :
    opensRemark c (Text.squeezed false rest) = opensRemark c rest := by
  simp only [opensRemark, head?_squeezed (show isBlank '/' = false from rfl),
    head?_squeezed (show isBlank '*' = false from rfl)]

theorem spelling_eq {source : List Char} {here : Cursor} {c : Char} {tail : List Char} {p : Piece}
    (h : c :: (w ++ tail) = source.drop here.offset) :
    Placed.spelling source ⟨p, here, here.advance ((c :: (w ++ tail)).take (w.length + 1))⟩ =
      c :: w := by
  have htake : (c :: (w ++ tail)).take (w.length + 1) = c :: w := by
    rw [List.take_succ_cons, List.take_left]
  rw [Placed.spelling, ← h, offset_advance, htake, Nat.add_sub_cancel_left, List.length_cons, htake]

/-- A literal alone, with its blanks squeezed. -/
theorem lexemes?_squeeze_literal {c : Char} (hc : isBlank c = false) (hquote : isQuote c = true)
    (hend : IsTrimmedEnd (c :: w))
    (h : LexemeAt c (Text.collapse false w) l ((Text.collapse false w).length + 1)) :
    lexemes? (squeeze (String.ofList (c :: w))) = some [l, .eof] := by
  have hsqueezed : (squeeze (String.ofList (c :: w))).toList = c :: Text.collapse false w := by
    have := squeezed_append (List.cons_ne_nil c w) hend true []
    rw [List.append_nil, collapse_cons hc] at this
    rw [toList_squeeze, String.toList_ofList, this]
    exact List.append_nil _
  have hopen : opensRemark c (Text.collapse false w) = false := by
    have hslash : c ≠ '/' := by
      rintro rfl
      cases hquote
    simp [opensRemark, hslash]
  have hpieces : pieces (.start 1) (c :: Text.collapse false w) = _ :=
    pieces_single (pieceAt_eq_ok_iff.2 (.lexeme hc hopen h))
  rw [← hsqueezed] at hpieces
  rw [lexemes?_eq hpieces]
  rfl

theorem pieces_squeezed (source : List Char) (here : Cursor) (cs : List Char)
    (placed : List Placed) (h : pieces here cs = .ok placed) (hcs : cs = source.drop here.offset)
    (r : Bool) (there : Cursor) :
    ∃ placed', pieces there (Text.squeezed r cs) = .ok placed' ∧
      (lexemesOf placed' = lexemesOf placed ↔ Squeezable source placed) := by
  rw [pieces_eq_ok_iff] at h
  induction h generalizing r there with
  | nil => exact ⟨[], by unfold Text.squeezed pieces; rfl, iff_of_true rfl ⟨by simp, .nil⟩⟩
  | @cons here c rest piece n more hpiece _ ih =>
    have hstop : rest.drop (n - 1) = source.drop (here.advance ((c :: rest).take n)).offset := by
      obtain ⟨hpos, hle⟩ := pieceAt_le hpiece
      rw [offset_advance, List.length_take_of_le (by simpa using hle), ← List.drop_drop, ← hcs,
        drop_pred hpos c]
    cases pieceAt_eq_ok_iff.1 hpiece with
    | blank hc =>
      rw [squeezable_cons_of_gap (p := .blank) rfl (by simp)]
      rcases squeezed_blank hc r rest with hblank | hblank
      · rw [hblank]
        exact ih hstop true there
      · rw [hblank]
        obtain ⟨placed', hplaced, hiff⟩ := ih hstop true (there.advance [' '])
        exact ⟨⟨.blank, there, _⟩ :: placed', pieces_cons_append (w := []) rfl hplaced, hiff⟩
    | remark =>
      -- a remark runs to the end of the squeezed text
      rw [squeezable_cons_of_remark, squeezed_cons (by decide), squeezed_cons (by decide)]
      refine ⟨_, pieces_single (pieceAt_remark_to_end (newline_not_mem_squeezed _ _)), ?_⟩
      exact eq_comm
    | @comment body tail hbody =>
      rw [squeezable_cons_of_gap rfl (by simp)]
      have hdrop : ('*' :: (body ++ '*' :: '/' :: tail)).drop (body.length + 4 - 1) = tail := by
        rw [show body.length + 4 - 1 = ('*' :: (body ++ ['*', '/'])).length by simp,
          show '*' :: (body ++ '*' :: '/' :: tail) = '*' :: (body ++ ['*', '/']) ++ tail by simp,
          List.drop_left]
      rw [hdrop] at ih hstop
      have hbody' := not_infix_collapse hbody false
      rw [squeezed_cons (by decide), squeezed_cons (by decide),
        squeezed_append_cons (by decide), squeezed_cons (by decide)]
      generalize Text.collapse false body = body' at hbody'
      let stop' := there.advance ('/' :: '*' :: (body' ++ ['*', '/']))
      obtain ⟨placed', hplaced, hiff⟩ := ih hstop false stop'
      have hcons := pieces_cons_append (w := '*' :: (body' ++ ['*', '/']))
        (by simpa using pieceAt_eq_ok_iff.2 (.comment hbody')) hplaced
      exact ⟨⟨.comment _, there, stop'⟩ :: placed', by simpa using hcons, hiff⟩
    | @lexeme _ _ l _ hc hopen hl =>
      obtain ⟨w, tail, l', rfl, rfl, hend, hl', hplain, hliteral⟩ := hl.squeezed hc
      rw [Nat.add_sub_cancel, List.drop_left] at ih hstop
      rw [squeezable_cons_of_lexeme]
      have hsqueezed : Text.squeezed r (c :: (w ++ tail)) =
          c :: (Text.collapse false w ++ Text.squeezed false tail) := by
        rw [← List.cons_append, squeezed_append (by simp) hend, collapse_cons hc,
          List.cons_append]
      have hopen' : opensRemark c (Text.collapse false w ++ Text.squeezed false tail) = false := by
        rw [← opensRemark_squeezed] at hopen
        rw [squeezed_cons hc] at hsqueezed
        rwa [(List.cons.inj hsqueezed).2] at hopen
      let stop' := there.advance (c :: Text.collapse false w)
      obtain ⟨placed', hplaced, hiff⟩ := ih hstop false stop'
      refine ⟨⟨.lexeme l', there, stop'⟩ :: placed', ?_, ?_⟩
      · rw [hsqueezed]
        exact pieces_cons_append (pieceAt_eq_ok_iff.2 (.lexeme hc hopen' hl')) hplaced
      · show l' :: lexemesOf placed' = _ :: lexemesOf more ↔ _
        rw [List.cons.injEq, hiff, and_congr_left_iff]
        intro _
        cases hkind : isLiteral l with
        | false => exact iff_of_true (hplain hkind) (by simp)
        | true =>
          rw [spelling_eq hcs,
            lexemes?_squeeze_literal hc (hl.isLiteral_eq ▸ hkind) hend (hliteral hkind)]
          simp

end Token

open Token in
/-- A text that can be cut into tokens can be cut when its blanks are squeezed, and it says the same
exactly if each of its literals does and no lexeme stands behind a remark. -/
theorem Text.lexemes?_squeeze {raw : String} {tokens : List Token} (h : tokenize raw = .ok tokens) :
    ∃ placed, pieces (.start 1) raw.toList = .ok placed ∧ (lexemes? (squeeze raw)).isSome = true ∧
      (lexemes? (squeeze raw) = some (tokens.map (·.lexeme)) ↔ Squeezable raw.toList placed) := by
  obtain ⟨placed, hplaced, htokens⟩ := bind_eq_ok.1 h
  cases htokens
  obtain ⟨placed', hsqueezed, hiff⟩ :=
    pieces_squeezed raw.toList (.start 1) raw.toList placed hplaced rfl true (.start 1)
  rw [← toList_squeeze] at hsqueezed
  refine ⟨placed, hplaced, ?_, ?_⟩
  · rw [lexemes?_eq hsqueezed]
    rfl
  · rw [lexemes?_eq hsqueezed, map_lexeme_ofPieces, Option.some.injEq, List.append_cancel_right_eq,
      hiff]

/-- A type over several lines, with a literal, a comment and a remark in it. -/
def Text.wideType : String :=
  r"{" ++ "\n  kind:  'a b';\n\ttags: Array< `x\\n` >  /* any\n number */;\n" ++
    r"}" ++ " // done \n"

open Token in
theorem Text.lexemes?_squeeze_wideType :
    squeeze wideType = r"{ kind: 'a b'; tags: Array< `x\n` > /* any number */; } // done" ∧
      ∃ tokens, tokenize wideType = .ok tokens ∧
        lexemes? (squeeze wideType) = some (tokens.map (·.lexeme)) := by
  have hsome : (tokenize wideType).toOption.isSome = true := by decide +kernel
  obtain ⟨tokens, htokens⟩ := Option.isSome_iff_exists.1 hsome
  have h := toOption_eq_some htokens
  obtain ⟨placed, hplaced, -, hiff⟩ := lexemes?_squeeze h
  have hcheck : (pieces (.start 1) wideType.toList).toOption.map
      (fun ps => decide (Squeezable wideType.toList ps)) = some true := by decide +kernel
  rw [hplaced] at hcheck
  refine ⟨by decide +kernel, tokens, h, hiff.2 (of_decide_eq_true (Option.some.inj hcheck))⟩

open Token in
/-- Two blanks in a text are part of its value, and a remark ends with the line break behind it. -/
theorem Text.lexemes?_squeeze_lossy :
    lexemes? "'a  b'" = some [.text "a  b", .eof] ∧
      lexemes? (squeeze "'a  b'") = some [.text "a b", .eof] ∧
      lexemes? "A // x\n| B" = some [.identifier "A", .punct "|", .identifier "B", .eof] ∧
      lexemes? (squeeze "A // x\n| B") = some [.identifier "A", .eof] := by
  decide +kernel

end EventFlow
