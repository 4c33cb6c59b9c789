import EventFlow.Proofs.Program.Readers

/-! A program is never nested deeper than it has tokens.

Nested parts stand behind at least one token, so grammars of depth `n` or more read every stream of
`n` tokens alike, and

    tokens.length ≤ depth  →  parseWithin depth source tokens = parse source tokens -/

namespace EventFlow.Program

/-- The text is a program of the given statements. -/
def Parses (source : String) (ss : List Statement) : Prop :=
  ∃ tokens, Token.tokenize source = .ok tokens ∧ parse source.toList tokens = .ok ss

theorem map_token_streamAfter (line : Nat) (ts : List Token) :
    (streamAfter line ts).map (·.token) = ts := by
  induction ts generalizing line with
  | nil => rfl
  | cons t ts ih => rw [streamAfter, List.map_cons, ih]

theorem map_token_stream (ts : List Token) : (stream ts).map (·.token) = ts := by
  cases ts with
  | nil => rfl
  | cons t ts => rw [stream, List.map_cons, map_token_streamAfter]

theorem length_stream (ts : List Token) : (stream ts).length = ts.length := by
  rw [← List.length_map, map_token_stream]

theorem textUpTo_congr {g h : Grammar} {ts us : Stream} {i j : Nat} (hsource : h.source = g.source)
    (hstart : us.head? = ts.head?) (hstop : (us.skip j).head? = (ts.skip i).head?) :
    textUpTo h us j = textUpTo g ts i := by
  unfold textUpTo
  dsimp only
  rw [hsource, hstart, hstop]

/-- Streams with the same tokens at related places, up to the end of the text. -/
structure Uncut (all : Stream) (Related : Stream → Stream → Prop) (spare : Nat) : Prop where
  within : ∀ {ts us}, Related ts us → ts <:+ all
  step : ∀ {ts us}, Related ts us → (ts = [] ∧ us = []) ∨
    ∃ t ts' us', ts = t :: ts' ∧ us = t :: us' ∧ (t.token.lexeme ≠ .eof → Related ts' us')
  room : ∀ {ts us}, Related ts us → spare ≤ us.length ∧ (us.length ≤ spare → us = [])

theorem Uncut.head?_eq {all : Stream} {Related : Stream → Stream → Prop} {spare : Nat}
    (h : Uncut all Related spare) {ts us : Stream} (hr : Related ts us) : us.head? = ts.head? := by
  rcases h.step hr with ⟨rfl, rfl⟩ | ⟨t, ts, us, rfl, rfl, -⟩
  · rfl
  · rfl

/-- Such streams are in step; `blame` holds of the complaints about the first one. -/
def Lockstep.uncut (source : List Char) {all : Stream} {Related : Stream → Stream → Prop}
    {spare : Nat} (h : Uncut all Related spare) (strict : Prop) (blame : Complaint Fault → Prop)
    (blames : ∀ {ts us fault}, strict → Related ts us → fault ≠ .nesting →
      (fault = .longNumber → ts.number?.any Number.isLong = true) →
      blame ⟨fault, ts.head?.map (·.token.line), none⟩) : Lockstep where
  all := all
  source := source
  source' := source
  Same := Eq
  IsCut _ := False
  Related := Related
  strict := strict
  blame := blame
  spare := spare
  alike := by
    rintro t _ rfl
    exact ⟨rfl, rfl, rfl, rfl⟩
  cut := False.elim
  within := h.within
  step hr _ := by
    rcases h.step hr with hnil | ⟨t, ts, us, rfl, rfl, hrest⟩
    · exact Or.inl hnil
    · exact Or.inr ⟨t, ts, t, us, rfl, rfl, rfl, hrest⟩
  gap _ := False.elim
  room := h.room
  blames := blames
  annotated _ _ _ _ _ := by
    rintro ⟨_, _, ⟨⟩⟩
  asserted _ _ _ _ := by
    rintro ⟨_, _, ⟨⟩⟩
  types := by
    rintro g h' ts us i j hg hh hr hopen - - ⟨t, _, ts', us', hts, hus, rfl, -⟩
    refine textUpTo_congr (hh.trans hg.symm) ?_ (by rw [hts, hus]; rfl)
    -- the angle bracket is not the end of the text, so what follows it is related too
    rcases h.step hr with ⟨rfl, -⟩ | ⟨t, ts, us, rfl, rfl, hrest⟩
    · cases hopen
    · have hmark : t.token.lexeme = .punct "<" := by
        simpa [Stream.isPunct, Token.isPunct] using hopen
      exact h.head?_eq (hrest (by simp [hmark]))

theorem uncut_same (all : Stream) : Uncut all (fun ts us => us = ts ∧ ts <:+ all) 0 where
  within h := h.2
  step := by
    rintro _ ts ⟨rfl, h⟩
    cases ts with
    | nil => exact Or.inl ⟨rfl, rfl⟩
    | cons t ts => exact Or.inr ⟨t, ts, ts, rfl, rfl, fun _ =>
      ⟨rfl, (List.suffix_cons t ts).trans h⟩⟩
  room _ := ⟨Nat.zero_le _, fun h => List.eq_nil_of_length_eq_zero (Nat.le_zero.1 h)⟩

/-- A stream is in step with itself. -/
def Lockstep.same (source : List Char) (all : Stream) : Lockstep :=
  .uncut source (uncut_same all) True (fun _ => True) fun _ _ _ _ => trivial

theorem Lockstep.Follows.eq {S : Lockstep} {β : Type} {x y : Except (Complaint Fault) β}
    (h : S.Follows (fun a b => b = a) x y) (hstrict : S.strict) : y = x := by
  cases x with
  | ok a =>
    obtain ⟨_, hy, rfl⟩ := h.ok a rfl
    exact hy
  | error c => exact (h.error hstrict c rfl).1

/-- A bound on the nesting of at least the number of tokens is no bound. -/
theorem parseWithin_eq_parse (source : List Char) {tokens : List Token} {depth : Nat}
    (hdepth : tokens.length ≤ depth) : parseWithin depth source tokens = parse source tokens := by
  have hlength := Nat.le_of_eq (length_stream tokens)
  have hg := Lockstep.grammar_inStep (.same source (stream tokens))
    (Or.inr ⟨Nat.le_refl tokens.length, hdepth⟩)
  exact (Lockstep.follows_statements hg
    ⟨rfl, List.suffix_refl _⟩ hlength hlength hlength).eq trivial

end EventFlow.Program
