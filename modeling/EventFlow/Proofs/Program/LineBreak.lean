import EventFlow.Proofs.Program.Without
import EventFlow.Proofs.Token.Semicolon
import Mathlib.Data.List.Infix

/-! A line break ends a statement as a semicolon does.

    Parses (d ++ ";\n" ++ r) ss  →  Parses (d ++ "\n" ++ r) ss

Here `d` is one line, and `r` begins with a name that asserts nothing of what stands before it.  The
semicolon has to be an end and no more than that: it must not stand in a template, in a doc comment
or among type arguments, there must be no doc comment before it that would go to `r`, and no type
that would run on into `r`. -/

namespace EventFlow.Program

open Token (Dropped Shifted tokenize)

/-! ## Streams -/

section Streams

variable {n line : Nat} {ts us : List Token}

/-- The tokens behind the semicolon differ in their places alone. -/
theorem without_of_shifted (h : List.Forall₂ (Shifted n line) ts us) {l l' : Nat}
    (hbreaks : ∀ t ∈ ts.head?, l < t.line ↔ l' < t.line)
    (hclear : ∀ s, s <:+ streamAfter l ts → isClear n s = true) :
    Without n (streamAfter l ts) (streamAfter l' us) := by
  induction h generalizing l l' with
  | nil => exact .nil
  | @cons t u ts us htu _ ih =>
    have hline : u.line = t.line := htu.start.line_eq
    refine .cons ⟨htu.lexeme, hline, htu.doc, ?_, ?_⟩ (hclear _ List.suffix_rfl) ?_
    · rw [hline]
      exact decide_eq_decide.2 (hbreaks t rfl).symm
    · exact Or.inr ⟨htu.start.behind, htu.start.offset_eq⟩
    · refine ih (fun _ _ => by rw [hline]) fun s hs => hclear s ?_
      exact hs.trans (List.suffix_cons _ _)

theorem without_of_dropped {name : String} (has : name ≠ "as") (hsatisfies : name ≠ "satisfies")
    (h : Dropped n line (.identifier name) ts us) {l : Nat} (hl : l ≤ line)
    (hclear : ∀ s, s <:+ streamAfter l ts → isClear n s = true) :
    Without n (streamAfter l ts) (streamAfter l us) := by
  induction h generalizing l with
  | @before t ts us offset line_eq _ ih =>
    refine .cons ⟨rfl, rfl, rfl, rfl, Or.inl ⟨offset, rfl⟩⟩ (hclear _ List.suffix_rfl) ?_
    exact ih (Nat.le_of_eq line_eq) fun s hs => hclear s (hs.trans (List.suffix_cons _ _))
  | @semicolon t ts us lexeme offset line_eq first_eq hshifted =>
    cases hshifted with
    | nil => cases first_eq
    | @cons t' u ts us htu hrest =>
      have hshifted := List.Forall₂.cons htu hrest
      have hline : u.line = t'.line := htu.start.line_eq
      have hbelow : line < t'.line := htu.start.below
      have hname : u.lexeme = .identifier name := htu.lexeme.trans (Option.some.inj first_eq)
      refine .semicolon ⟨lexeme, offset⟩ ⟨⟨name, hname, has, hsatisfies⟩, ?_⟩ ?_ ?_
      · exact decide_eq_true (by omega)
      · have hbehind : ∀ x ∈ t' :: ts, n < x.start.offset :=
          ((List.forall₂_and_left _ _).1 (hshifted.imp fun _ _ h => ⟨h.start.behind, h⟩)).1
        intro x hx
        refine hbehind x.token ?_
        rw [← map_token_streamAfter t.line (t' :: ts)]
        exact List.mem_map_of_mem hx
      · refine without_of_shifted hshifted ?_ ?_
        · rintro _ ⟨⟩
          rw [line_eq]
          omega
        · exact fun s hs => hclear s (hs.trans (List.suffix_cons _ _))
  | inside rest => exact without_of_shifted rest (fun _ _ => Iff.rfl) hclear

theorem stream_eq_streamAfter {l : Nat} (h : ∀ t ∈ ts.head?, t.line = l) :
    stream ts = streamAfter l ts := by
  cases ts with
  | nil => rfl
  | cons t ts =>
    rw [stream, streamAfter, h t rfl]
    simp

/-- Streams that begin on a known line differ at their first token, if at all. -/
theorem streamAfter_eq_or (l : Nat) (ts : List Token) :
    streamAfter l ts = stream ts ∨
      ∃ t rest, streamAfter l ts = ⟨t, true⟩ :: rest ∧ stream ts = ⟨t, false⟩ :: rest := by
  cases ts with
  | nil => exact Or.inl rfl
  | cons t ts =>
    by_cases hl : l < t.line
    · exact Or.inr ⟨t, _, by rw [streamAfter, decide_eq_true hl], rfl⟩
    · exact Or.inl (by rw [streamAfter, decide_eq_false hl, stream])

theorem exists_without {name : String} (has : name ≠ "as") (hsatisfies : name ≠ "satisfies")
    (h : Dropped n line (.identifier name) ts us)
    (hclear : ∀ s, s <:+ stream ts → isClear n s = true) :
    ∃ vs, Without n (stream ts) vs ∧ (vs = stream us ∨
      ∃ t rest, vs = ⟨t, true⟩ :: rest ∧ stream us = ⟨t, false⟩ :: rest) := by
  rcases h.shifted_or with hshifted | hline
  · refine ⟨stream us, ?_, Or.inl rfl⟩
    cases hshifted with
    | nil => exact .nil
    | @cons t u ts us htu hrest =>
      have hstream : stream (t :: ts) = streamAfter t.line (t :: ts) :=
        stream_eq_streamAfter (by simp)
      have hstream' : stream (u :: us) = streamAfter t.line (u :: us) :=
        stream_eq_streamAfter (by rintro _ ⟨⟩; exact htu.start.line_eq)
      rw [hstream] at hclear ⊢
      rw [hstream']
      exact without_of_shifted (.cons htu hrest) (fun _ _ => Iff.rfl) hclear
  · rw [stream_eq_streamAfter hline] at hclear ⊢
    exact ⟨_, without_of_dropped has hsatisfies h (Nat.le_refl _) hclear, streamAfter_eq_or _ _⟩

end Streams

/-! ## Programs -/

/-- The semicolon between the line `d` and the text `r` is an end and nothing else. -/
structure MereEnd (d r : String) (first : Token) : Prop where
  /-- It stands in no template and in no doc comment. -/
  loose : ∀ ps, Token.pieces (.start 1) (d ++ ";\n" ++ r).toList = .ok ps →
    Token.isLooseAt d.length ps = true
  /-- A doc comment before it does not go to the first token of `r`, which has its own. -/
  documented : ∀ ts, tokenize (d ++ ";\n" ++ r) = .ok ts → ∀ t ∈ ts, t.start.offset = d.length →
    t.doc = none ∨ first.doc ≠ none
  /-- No type runs up to it, and it stands among no type arguments. -/
  clear : ∀ ts, tokenize (d ++ ";\n" ++ r) = .ok ts → ∀ s ∈ (stream ts).tails,
    isClear d.length s = true

/-- **A line break ends a statement as a semicolon does.**  What follows is not swallowed by the
statement on the line before it. -/
theorem parses_of_semicolon {d r name : String} {first : Token} {more : List Token}
    {ss : List Statement} (hline : '\n' ∉ d.toList) (hr : tokenize r = .ok (first :: more))
    (hname : first.lexeme = .identifier name) (has : name ≠ "as")
    (hsatisfies : name ≠ "satisfies") (hend : MereEnd d r first)
    (h : Parses (d ++ ";\n" ++ r) ss) : Parses (d ++ "\n" ++ r) ss := by
  obtain ⟨ts, hts, hss⟩ := h
  obtain ⟨ps, hps, hofPieces⟩ := bind_eq_ok.1 hts
  have hloose := hend.loose ps hps
  have hdoc := hend.documented ts hts
  have hclear : ∀ s, s <:+ stream ts → isClear d.toList.length s = true := fun s hs => by
    rw [String.length_toList]
    exact hend.clear ts hts s ((List.mem_tails _ _).2 hs)
  cases hofPieces
  have hsource : (d ++ ";\n" ++ r).toList = d.toList ++ ';' :: '\n' :: r.toList := by
    simp [String.toList_append]
  have hsource' : (d ++ "\n" ++ r).toList = d.toList ++ '\n' :: r.toList := by
    simp [String.toList_append]
  rw [hsource] at hps hdoc hclear hss
  rw [← String.length_toList] at hloose hdoc
  have hn : (Cursor.start 1).offset + d.toList.length = d.toList.length := Nat.zero_add _
  obtain ⟨qs, hqs, hdropped⟩ := Token.exists_dropped hr hline hn rfl hps hloose hdoc
  rw [hname] at hdropped
  obtain ⟨vs, hvs, hus⟩ := exists_without has hsatisfies hdropped hclear
  have htokens : tokenize (d ++ "\n" ++ r) =
      .ok (Token.ofPieces ((Cursor.start 1).advance (d.toList ++ '\n' :: r.toList)) none qs) := by
    rw [tokenize, Token.tokenizeFrom, hsource', hqs]
    rfl
  refine ⟨_, htokens, ?_⟩
  rw [hsource']
  exact parse_without hvs hus hss

/-! ## Single programs -/

/-- The statements of a text, if it is a program. -/
def parsed? (source : String) : Option (List Statement) :=
  (tokenize source).toOption.bind fun ts => (parse source.toList ts).toOption

theorem parses_iff {source : String} {ss : List Statement} :
    Parses source ss ↔ parsed? source = some ss := by
  constructor
  · rintro ⟨ts, hts, hss⟩
    rw [parsed?, hts]
    show (parse source.toList ts).toOption = some ss
    rw [hss]
    rfl
  · intro h
    obtain ⟨ts, hts, hss⟩ := Option.bind_eq_some_iff.1 h
    exact ⟨ts, toOption_eq_some hts, toOption_eq_some hss⟩

theorem forall_ok_of_all {ε α : Type} {x : Except ε α} {p : α → Prop} [DecidablePred p]
    (h : x.toOption.all (fun a => decide (p a)) = true) : ∀ a, x = .ok a → p a := by
  rintro a rfl
  exact of_decide_eq_true h

/-- A line with a comment, a binding and type arguments. -/
def unterminated : String := "/** due */ let sum = pay<Sum>(order)"

/-- A flow without slices. -/
def emptyFlow : String := "flow('Pay', () => {})"

def flowToken : Token := ⟨.identifier "flow", .start 1, 4, none⟩

theorem exists_tokenize {r : String} {first : Token}
    (h : (tokenize r).toOption.bind List.head? = some first) :
    ∃ more, tokenize r = .ok (first :: more) := by
  obtain ⟨ts, hts, hfirst⟩ := Option.bind_eq_some_iff.1 h
  obtain ⟨more, rfl⟩ := List.head?_eq_some_iff.1 hfirst
  exact ⟨more, toOption_eq_some hts⟩

theorem tokenize_emptyFlow : ∃ more, tokenize emptyFlow = .ok (flowToken :: more) :=
  exists_tokenize (by decide +kernel)

theorem mereEnd_unterminated : MereEnd unterminated emptyFlow flowToken where
  loose := forall_ok_of_all (by decide +kernel)
  documented := forall_ok_of_all (by decide +kernel)
  clear := forall_ok_of_all (by decide +kernel)

/-- The flow after a line without a semicolon is a statement of its own. -/
theorem parses_of_semicolon_unterminated :
    '\n' ∉ unterminated.toList ∧ (∃ more, tokenize emptyFlow = .ok (flowToken :: more)) ∧
      MereEnd unterminated emptyFlow flowToken ∧
      ∃ ss, ss.length = 2 ∧ Parses (unterminated ++ ";\n" ++ emptyFlow) ss ∧
        Parses (unterminated ++ "\n" ++ emptyFlow) ss := by
  have hline : '\n' ∉ unterminated.toList := by decide +kernel
  have htwo : (parsed? (unterminated ++ ";\n" ++ emptyFlow)).map List.length = some 2 := by
    decide +kernel
  obtain ⟨ss, hss, hlength⟩ := Option.map_eq_some_iff.1 htwo
  obtain ⟨more, hr⟩ := tokenize_emptyFlow
  refine ⟨hline, ⟨more, hr⟩, mereEnd_unterminated, ss, hlength, parses_iff.2 hss, ?_⟩
  exact parses_of_semicolon hline hr rfl (by decide) (by decide) mereEnd_unterminated
    (parses_iff.2 hss)

/-- The texts that a statement is documented with, and that its expression has as a template or as
type arguments. -/
def textsOf : Statement → List (Option String)
  | .expression _ (.template _ value _) doc => [doc, some value]
  | .expression _ (.call _ _ _ types) doc => [doc, types]
  | .expression _ _ doc | .binding _ _ _ _ doc | .imports _ _ doc => [doc]
  | .result _ _ => []

/-- Programs with other texts in their statements are other programs. -/
theorem exists_parses_not {source other : String} {ts : List (List (Option String))}
    (h : (parsed? source).map (·.map textsOf) = some ts)
    (hother : (parsed? other).map (·.map textsOf) ≠ some ts) :
    ∃ ss, Parses source ss ∧ ¬ Parses other ss := by
  obtain ⟨ss, hss, htexts⟩ := Option.map_eq_some_iff.1 h
  refine ⟨ss, parses_iff.2 hss, fun hparses => hother ?_⟩
  rw [parses_iff.1 hparses, Option.map_some, htexts]

/-- A doc comment on a line of its own documents the flow below it, and a semicolon keeps it from
that. -/
theorem parses_semicolon_not_lineBreak :
    '\n' ∉ "/** Items */".toList ∧ (∃ more, tokenize emptyFlow = .ok (flowToken :: more)) ∧
      ∃ ss, Parses ("/** Items */" ++ ";\n" ++ emptyFlow) ss ∧
        ¬ Parses ("/** Items */" ++ "\n" ++ emptyFlow) ss := by
  have hwith : (parsed? ("/** Items */" ++ ";\n" ++ emptyFlow)).map (·.map textsOf) =
      some [[none, none]] := by decide +kernel
  exact ⟨by decide +kernel, tokenize_emptyFlow, exists_parses_not hwith (by decide +kernel)⟩

/-- Among type arguments a semicolon is part of them, and so it is in a template that is open. The
template ends on the next line, in what would be a remark if the line stood alone. -/
theorem parses_inside_not_lineBreak :
    ((∃ more, tokenize "B>(x)" = .ok (⟨.identifier "B", .start 1, 1, none⟩ :: more)) ∧
      ∃ ss, Parses ("f<A" ++ ";\n" ++ "B>(x)") ss ∧ ¬ Parses ("f<A" ++ "\n" ++ "B>(x)") ss) ∧
    (∃ more, tokenize "b // `" = .ok (⟨.identifier "b", .start 1, 1, none⟩ :: more)) ∧
      ∃ ss, Parses ("`a" ++ ";\n" ++ "b // `") ss ∧ ¬ Parses ("`a" ++ "\n" ++ "b // `") ss := by
  have htypes : (parsed? ("f<A" ++ ";\n" ++ "B>(x)")).map (·.map textsOf) =
      some [[none, some "A;\nB"]] := by decide +kernel
  have htemplate : (parsed? ("`a" ++ ";\n" ++ "b // `")).map (·.map textsOf) =
      some [[none, some "a;\nb // "]] := by decide +kernel
  refine ⟨⟨exists_tokenize ?_, exists_parses_not htypes ?_⟩, exists_tokenize ?_,
    exists_parses_not htemplate ?_⟩ <;> decide +kernel

end EventFlow.Program
