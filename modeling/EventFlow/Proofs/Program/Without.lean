import EventFlow.Proofs.Program.Depth

/-! A stream without one of its semicolons.

`Without n us vs` says that `vs` is `us` without the semicolon at offset `n`, after which a name
stands on a new line; the tokens behind it have moved by one place.  Wherever no type runs up to the
semicolon and no type arguments hold it, the two streams are read in step:

    Without n (stream ts) (stream us)  →  parse source ts = ok ss  →  parse source' us = ok ss -/

namespace EventFlow.Program

/-! ## Types at a place -/

def Stream.offset (ts : Stream) : Nat := (ts.head?.map (·.token.start.offset)).getD 0

/-- The type of the names that a binding at the front of the stream binds, and what follows it. -/
def annotation? (ts : Stream) : Option Stream :=
  if isBinding ts then
    match boundNames ts.next with
    | .ok (_, rest) => if rest.isPunct ":" then some rest.next else none
    | .error _ => none
  else none

/-- The type that is asserted of an operand whose last token begins the stream, and what follows
it. -/
def assertion? (ts : Stream) : Option Stream :=
  if ts.head?.any (closesOperand ·.token.lexeme) &&
      (ts.next.isName "as" || ts.next.isName "satisfies") then some ts.next.next
  else none

/-- The type at the front of the stream ends where the token at offset `n` begins. -/
def runsUpTo (n : Nat) (ts : Stream) : Bool := (skipType ts).toOption.any (·.offset = n)

/-- The stream begins with the type arguments of a call, and offset `n` is among them. -/
def straddles (n : Nat) (ts : Stream) : Bool :=
  ts.isPunct "<" && (closingOf? "<" ts.next).any fun k =>
    (ts.next.skip (k + 1)).isPunct "(" && ts.next.offset ≤ n && n ≤ (ts.next.skip k).offset

/-- No type at the front of the stream runs up to offset `n` or holds it. -/
def isClear (n : Nat) (ts : Stream) : Bool :=
  !(annotation? ts).any (runsUpTo n) && !(assertion? ts).any (runsUpTo n) && !straddles n ts

/-! ## The two streams -/

/-- The same token, moved by one place if it stands behind offset `n`. -/
structure Moved (n : Nat) (t u : Lexed) : Prop where
  lexeme : u.token.lexeme = t.token.lexeme
  line : u.token.line = t.token.line
  doc : u.token.doc = t.token.doc
  breaks : u.breaks = t.breaks
  place : (t.token.start.offset < n ∧ u.token.start.offset = t.token.start.offset) ∨
    (n < t.token.start.offset ∧ u.token.start.offset + 1 = t.token.start.offset)

/-- The semicolon at offset `n`. -/
structure IsCut (n : Nat) (t : Lexed) : Prop where
  lexeme : t.token.lexeme = .punct ";"
  offset : t.token.start.offset = n

/-- The second stream is the first without the semicolon at offset `n`. -/
inductive Without (n : Nat) : Stream → Stream → Prop
  | nil : Without n [] []
  | cons {t u : Lexed} {us vs : Stream} (moved : Moved n t u) (clear : isClear n (t :: us) = true)
      (rest : Without n us vs) : Without n (t :: us) (u :: vs)
  | semicolon {t u : Lexed} {us vs : Stream} (cut : IsCut n t) (begins : Begins u)
      (behind : ∀ x ∈ us, n < x.token.start.offset) (rest : Without n us (u :: vs)) :
      Without n (t :: us) (u :: vs)

variable {n : Nat} {us vs : Stream}

theorem Moved.not_isCut {t u : Lexed} (h : Moved n t u) : ¬ IsCut n t := by
  intro hcut
  have := h.place
  have := hcut.offset
  omega

theorem Without.length_le (h : Without n us vs) : vs.length ≤ us.length := by
  induction h with
  | nil => exact Nat.le_refl _
  | cons _ _ _ ih => exact Nat.succ_le_succ ih
  | semicolon _ _ _ _ ih => exact Nat.le_succ_of_le ih

/-! ### Types -/

/-- The streams are clear at every token but the semicolon. -/
theorem Without.isClear (h : Without n us vs) {t : Lexed} {rest : Stream}
    (hsuffix : t :: rest <:+ us) (ht : ¬ IsCut n t) : isClear n (t :: rest) = true := by
  induction h with
  | nil => cases List.suffix_nil.1 hsuffix
  | cons moved clear _ ih =>
    rcases List.suffix_cons_iff.1 hsuffix with heq | hsuffix
    · rwa [heq]
    · exact ih hsuffix
  | semicolon cut _ _ _ ih =>
    rcases List.suffix_cons_iff.1 hsuffix with heq | hsuffix
    · cases heq
      exact absurd cut ht
    · exact ih hsuffix

theorem not_isCut_of_runsUpTo {us' : Stream} (h : runsUpTo n us = false)
    (hskip : skipType us = .ok us') : ¬ StartsAt (IsCut n) us' := by
  rintro ⟨t, ht, hcut⟩
  simp [runsUpTo, hskip, Except.toOption, Stream.offset, Option.mem_def.1 ht, hcut.offset] at h

/-- The type of a binding does not run up to the semicolon. -/
theorem not_isCut_of_annotated {names : List String} {rest us' : Stream}
    (hclear : isClear n us = true) (hbinding : isBinding us = true)
    (hnames : boundNames us.next = .ok (names, rest)) (hcolon : rest.isPunct ":" = true)
    (hskip : skipType rest.next = .ok us') : ¬ StartsAt (IsCut n) us' := by
  have htype : annotation? us = some rest.next := by
    simp [annotation?, hbinding, hnames, hcolon]
  refine not_isCut_of_runsUpTo ?_ hskip
  simp only [isClear, htype, Option.any_some, Bool.and_eq_true, Bool.not_eq_true'] at hclear
  exact hclear.1.1

/-- No type that is asserted of an operand runs up to the semicolon. -/
theorem not_isCut_of_asserted {t : Lexed} {us' : Stream} (hclear : isClear n (t :: us) = true)
    (ht : closesOperand t.token.lexeme = true)
    (hname : (us.isName "as" || us.isName "satisfies") = true)
    (hskip : skipType us.next = .ok us') : ¬ StartsAt (IsCut n) us' := by
  have htype : assertion? (t :: us) = some us.next := by
    simp only [assertion?, Stream.next, List.tail_cons, List.head?_cons, Option.any_some, ht, hname,
      Bool.and_self, if_true]
  refine not_isCut_of_runsUpTo ?_ hskip
  simp only [isClear, htype, Option.any_some, Bool.and_eq_true, Bool.not_eq_true'] at hclear
  exact hclear.1.2

/-- The type arguments of a call end before the semicolon or begin behind it. -/
theorem offset_of_typeArguments {k : Nat} (hclear : isClear n us = true)
    (hopen : us.isPunct "<" = true) (hk : closingOf? "<" us.next = some k)
    (hcall : (us.next.skip (k + 1)).isPunct "(" = true) :
    (us.next.skip k).offset < n ∨ n < us.next.offset := by
  have hspan : straddles n us = false := by
    simp only [isClear, Bool.and_eq_true, Bool.not_eq_true'] at hclear
    exact hclear.2
  simp only [straddles, hopen, hk, hcall, Option.any_some, Bool.true_and, Bool.and_eq_false_iff,
    decide_eq_false_iff_not] at hspan
  omega

/-! ### Texts -/

section Texts

variable {a b : List Char} {c : Char} {i j : Nat}

theorem slice_before (hj : j ≤ a.length) :
    ((a ++ c :: b).drop i).take (j - i) = ((a ++ b).drop i).take (j - i) := by
  by_cases hi : i ≤ a.length
  · have hlength : j - i ≤ (a.drop i).length := by
      rw [List.length_drop]
      omega
    rw [List.drop_append_of_le_length hi, List.drop_append_of_le_length hi,
      List.take_append_of_le_length hlength, List.take_append_of_le_length hlength]
  · rw [Nat.sub_eq_zero_of_le (by omega), List.take_zero, List.take_zero]

theorem drop_behind (hi : a.length < i) : (a ++ c :: b).drop i = (a ++ b).drop (i - 1) := by
  have hsucc : i - a.length = i - 1 - a.length + 1 := by omega
  have hnone : a.drop i = [] := List.drop_eq_nil_of_le (by omega)
  have hnone' : a.drop (i - 1) = [] := List.drop_eq_nil_of_le (by omega)
  rw [List.drop_append, List.drop_append, hnone, hnone', hsucc, List.drop_succ_cons]

end Texts

theorem textUpTo_eq_slice (g : Grammar) (ts : Stream) (k : Nat) :
    textUpTo g ts k = String.ofList (Text.trimChars
      ((g.source.drop ts.offset).take ((ts.skip k).offset - ts.offset))) := rfl

/-- The second text is the first without its character at offset `n`. -/
def Loses (n : Nat) (s t : List Char) : Prop :=
  ∃ a c b, s = a ++ c :: b ∧ t = a ++ b ∧ a.length = n

/-- A text that ends before the semicolon or begins behind it is the same without it. -/
theorem textUpTo_eq {g h : Grammar} {i j : Nat} (hsource : Loses n g.source h.source)
    (hw : Without n us vs) {R : Stream → Stream → Prop} (hmeets : Meets (Moved n) R us vs i j)
    (hplace : (us.skip i).offset < n ∨ n < us.offset) : textUpTo h vs j = textUpTo g us i := by
  obtain ⟨a, c, b, hg, hh, hlength⟩ := hsource
  obtain ⟨t, u, us', vs', hus, hvs, hmoved, -⟩ := hmeets
  have hstop : (us.skip i).offset = t.token.start.offset := by simp [Stream.offset, hus]
  have hstop' : (vs.skip j).offset = u.token.start.offset := by simp [Stream.offset, hvs]
  have hlast := hmoved.place
  rw [hstop] at hplace
  rw [textUpTo_eq_slice, textUpTo_eq_slice, hg, hh, hstop, hstop']
  -- the first of the tokens does not stand at the semicolon, since the last one would be behind it
  have hfirst : (us.offset < n ∧ vs.offset = us.offset) ∨
      (n < us.offset ∧ vs.offset + 1 = us.offset) := by
    cases hw with
    | nil => simp [Stream.skip] at hus
    | cons moved => exact moved.place
    | @semicolon s _ ws _ cut _ behind _ =>
      exfalso
      have hat : Stream.offset (s :: ws) = n := cut.offset
      rw [hat] at hplace
      have hmem : t ∈ Stream.skip (s :: ws) i := hus ▸ List.mem_cons_self
      rcases List.mem_cons.1 (List.mem_of_mem_drop hmem) with rfl | hmem
      · exact hmoved.not_isCut cut
      · have := behind t hmem
        omega
  congr 2
  rcases hplace with hplace | hplace
  · obtain heq : u.token.start.offset = t.token.start.offset := by omega
    rw [heq]
    rcases hfirst with ⟨-, hfirst⟩ | ⟨hlt, hfirst⟩
    · rw [hfirst, slice_before (by omega)]
    · rw [Nat.sub_eq_zero_of_le (by omega), Nat.sub_eq_zero_of_le (by omega), List.take_zero,
        List.take_zero]
  · rw [drop_behind (by omega)]
    have hpred : us.offset - 1 = vs.offset := by omega
    have hcount : u.token.start.offset - vs.offset = t.token.start.offset - us.offset := by omega
    rw [hpred, hcount]

/-! ## Reading in step -/

/-- The streams before and behind the semicolon, of texts `a ++ c :: b` and `a ++ b`. -/
def Lockstep.without (a b : List Char) (c : Char) {all all' : Stream}
    (hall : Without a.length all all') : Lockstep where
  all := all
  source := a ++ c :: b
  source' := a ++ b
  Same := Moved a.length
  IsCut := Program.IsCut a.length
  Related us vs := Without a.length us vs ∧ us <:+ all
  strict := False
  blame _ := True
  spare := 0
  alike h := ⟨h.lexeme, h.line, h.doc, h.breaks⟩
  cut h := ⟨h.lexeme, id⟩
  within h := h.2
  step := by
    rintro us vs ⟨h, hsuffix⟩ hcut
    cases h with
    | nil => exact Or.inl ⟨rfl, rfl⟩
    | cons moved clear rest =>
      refine Or.inr ⟨_, _, _, _, rfl, rfl, moved, fun _ => ⟨rest, ?_⟩⟩
      exact (List.suffix_cons _ _).trans hsuffix
    | semicolon cut => exact absurd ⟨_, rfl, cut⟩ hcut
  gap := by
    rintro t us vs ⟨h, hsuffix⟩ hcut
    cases h with
    | cons moved => exact absurd hcut moved.not_isCut
    | semicolon _ begins _ rest =>
      exact ⟨⟨rest, (List.suffix_cons _ _).trans hsuffix⟩, _, _, rfl, begins⟩
  room _ := ⟨Nat.zero_le _, fun h => List.eq_nil_of_length_eq_zero (Nat.le_zero.1 h)⟩
  blames _ _ _ _ := trivial
  annotated := by
    rintro us vs names rest stop ⟨h, -⟩ hbinding
    obtain ⟨name, -, hname⟩ := List.any_eq_true.1 hbinding
    obtain ⟨t, ht, -⟩ := (Option.any_eq_true _ _).1 hname
    obtain ⟨us, rfl⟩ := List.head?_eq_some_iff.1 ht
    refine not_isCut_of_annotated (h.isClear List.suffix_rfl fun hcut => ?_) hbinding
    simp [Stream.isName, Token.isName, hcut.lexeme] at hname
  asserted {t us stop} hsuffix ht := by
    refine not_isCut_of_asserted (hall.isClear hsuffix fun hcut => ?_) ht
    rw [hcut.lexeme] at ht
    exact absurd ht (by decide)
  types := by
    rintro g h us vs i j hg hh ⟨hw, -⟩ hopen hi hparen hmeets
    obtain ⟨t, ht, hpunct⟩ := (Option.any_eq_true _ _).1 hopen
    obtain ⟨us, rfl⟩ := List.head?_eq_some_iff.1 ht
    simp only [Token.isPunct, beq_iff_eq] at hpunct
    cases hw with
    | semicolon cut => exact absurd (hpunct.symm.trans cut.lexeme) (by decide)
    | cons moved clear rest =>
      exact textUpTo_eq ⟨a, c, b, hg, hh, rfl⟩ rest hmeets
        (offset_of_typeArguments clear hopen hi hparen)

/-- Whether the first token stands on a new line makes no difference. -/
theorem statements_congr {g : Grammar} (fuel : Nat) (t : Token) (b b' : Bool) (us : Stream) :
    statements g fuel (⟨t, b⟩ :: us) = statements g fuel (⟨t, b'⟩ :: us) := by
  cases fuel <;> rfl

/-- A program without one of its semicolons is read as the program itself.  The second stream may
tell of its first token that it stands on a new line. -/
theorem parse_without {a b : List Char} {c : Char} {ts us : List Token} {vs : Stream}
    (hw : Without a.length (stream ts) vs)
    (hvs : vs = stream us ∨ ∃ t rest, vs = ⟨t, true⟩ :: rest ∧ stream us = ⟨t, false⟩ :: rest)
    {ss : List Statement} (h : parse (a ++ c :: b) ts = .ok ss) : parse (a ++ b) us = .ok ss := by
  have hlength : vs.length = us.length := by
    rw [← length_stream us]
    rcases hvs with rfl | ⟨t, rest, rfl, hstream⟩
    · rfl
    · rw [hstream]
      rfl
  have hle : us.length ≤ ts.length := by
    rw [← hlength, ← length_stream ts]
    exact hw.length_le
  have hvs' : ∀ g, statements g us.length vs = statements g us.length (stream us) := by
    rcases hvs with rfl | ⟨t, rest, rfl, hstream⟩
    · exact fun _ => rfl
    · rw [hstream]
      exact fun _ => statements_congr _ _ _ _ _
  rw [← parseWithin_eq_parse _ hle, parseWithin, ← hvs']
  have hg := Lockstep.grammar_inStep (.without a b c hw)
    (Or.inl ⟨id, rfl⟩ : (_ ∧ ts.length = _) ∨ _)
    (n := ts.length)
  have hlen := Nat.le_of_eq (length_stream ts)
  obtain ⟨_, hss, rfl⟩ := (Lockstep.follows_statements hg ⟨hw, List.suffix_refl _⟩ hlen hlen
    (Nat.le_of_eq hlength)).ok ss h
  exact hss

end EventFlow.Program
