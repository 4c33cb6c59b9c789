import EventFlow.Program.Statement
import EventFlow.Proofs.Bind

/-! Two streams that are read in step.

A `Lockstep` relates the places of two streams.  At related places both begin with tokens that the
grammar cannot tell apart, or the first begins with a semicolon that the second lacks and the second
with a name on a new line.  `S.Reads e k ts us x y` says that what `x` reads from `ts` is read by
`y` from `us`, and that both stop at related places, at least `k` tokens further on:

    x = ok (a, ts')  →  y = ok (a, us'), S.Related ts' us'

In a strict lockstep nothing is lacking, and `y` fails as `x` does. -/

namespace EventFlow.Program

/-! ## Tokens -/

/-- Tokens that the grammar cannot tell apart. -/
structure Alike (t u : Lexed) : Prop where
  lexeme : u.token.lexeme = t.token.lexeme
  line : u.token.line = t.token.line
  doc : u.token.doc = t.token.doc
  breaks : u.breaks = t.breaks

/-- A name on a new line that asserts nothing of what stands before it. -/
structure Begins (u : Lexed) : Prop where
  name : ∃ name, u.token.lexeme = .identifier name ∧ name ≠ "as" ∧ name ≠ "satisfies"
  breaks : u.breaks = true

/-- Such a lexeme can be the last one of an operand. -/
def closesOperand : Lexeme → Bool
  | .punct mark => [")", "]", r"}", "!"].contains mark
  | .eof => false
  | _ => true

/-- A fault that neither the depth of a program nor the length of a number decides. -/
def Fault.isPlain : Fault → Bool
  | .nesting | .longNumber => false
  | _ => true

/-- The first token of the stream is such a one. -/
def StartsAt (P : Lexed → Prop) (ts : Stream) : Prop := ∃ t ∈ ts.head?, P t

/-- The same token stands at two places of the streams, and what follows it is related. -/
def Meets (Same : Lexed → Lexed → Prop) (Related : Stream → Stream → Prop) (ts us : Stream)
    (i j : Nat) : Prop :=
  ∃ t u ts' us', ts.skip i = t :: ts' ∧ us.skip j = u :: us' ∧ Same t u ∧ Related ts' us'

/-! ## Streams in step -/

structure Lockstep where
  /-- All that the first stream has. -/
  all : Stream
  source : List Char
  source' : List Char
  Same : Lexed → Lexed → Prop
  /-- The semicolon that the second stream lacks. -/
  IsCut : Lexed → Prop
  Related : Stream → Stream → Prop
  strict : Prop
  /-- What holds of the complaints about the first stream. -/
  blame : Complaint Fault → Prop
  /-- How many tokens the second stream has behind the end of the first. -/
  spare : Nat
  alike : ∀ {t u}, Same t u → Alike t u
  cut : ∀ {t}, IsCut t → t.token.lexeme = .punct ";" ∧ ¬ strict
  within : ∀ {ts us}, Related ts us → ts <:+ all
  step : ∀ {ts us}, Related ts us → ¬ StartsAt IsCut ts → (ts = [] ∧ us = []) ∨
    ∃ t ts' u us', ts = t :: ts' ∧ us = u :: us' ∧ Same t u ∧
      (t.token.lexeme ≠ .eof → Related ts' us')
  gap : ∀ {t ts us}, Related (t :: ts) us → IsCut t →
    Related ts us ∧ ∃ u us', us = u :: us' ∧ Begins u
  room : ∀ {ts us}, Related ts us → spare ≤ us.length ∧ (us.length ≤ spare → us = [])
  blames : ∀ {ts us fault}, strict → Related ts us → fault ≠ .nesting →
    (fault = .longNumber → ts.number?.any Number.isLong = true) →
    blame ⟨fault, ts.head?.map (·.token.line), none⟩
  /-- The type of a binding does not run up to the semicolon. -/
  annotated : ∀ {ts us names rest stop}, Related ts us → isBinding ts = true →
    boundNames ts.next = .ok (names, rest) → rest.isPunct ":" = true →
    skipType rest.next = .ok stop → ¬ StartsAt IsCut stop
  /-- No type that is asserted of an operand runs up to the semicolon. -/
  asserted : ∀ {t : Lexed} {ts stop : Stream}, t :: ts <:+ all →
    closesOperand t.token.lexeme = true →
    (ts.isName "as" || ts.isName "satisfies") = true → skipType ts.next = .ok stop →
    ¬ StartsAt IsCut stop
  /-- The type arguments of a call are written alike. -/
  types : ∀ {g h : Grammar} {ts us i j}, g.source = source → h.source = source' →
    Related ts us → ts.isPunct "<" = true → closingOf? "<" ts.next = some i →
    (ts.next.skip (i + 1)).isPunct "(" = true → Meets Same Related ts.next us.next i j →
    textUpTo h us.next j = textUpTo g ts.next i

namespace Lockstep

variable {S : Lockstep} {ts us ts' us' : Stream} {α β γ δ : Type}

/-- The first stream begins with the semicolon. -/
abbrev AtCut (S : Lockstep) (ts : Stream) : Prop := StartsAt S.IsCut ts

/-- The last token before this place can end an operand. -/
def Behind (S : Lockstep) (ts : Stream) : Prop :=
  ∃ t, t :: ts <:+ S.all ∧ closesOperand t.token.lexeme = true

/-! ### The first token -/

section First

variable {f : Option Lexed → β}

/-- Away from the cut, one stream shows what the other does. -/
theorem Related.observe (h : S.Related ts us) (hcut : ¬ S.AtCut ts)
    (hf : ∀ t u, Alike t u → f (some u) = f (some t)) : f us.head? = f ts.head? := by
  rcases S.step h hcut with ⟨rfl, rfl⟩ | ⟨t, ts, u, us, rfl, rfl, hsame, -⟩
  · rfl
  · exact hf t u (S.alike hsame)

/-- At the cut, one stream has a semicolon that the other lacks. -/
theorem Related.exists_cut (h : S.Related ts us) (hcut : S.AtCut ts) :
    ∃ t ts' u us', ts = t :: ts' ∧ us = u :: us' ∧ t.token.lexeme = .punct ";" ∧ Begins u ∧
      S.Related ts' us := by
  obtain ⟨t, ht, hcut⟩ := hcut
  obtain ⟨ts, rfl⟩ := List.head?_eq_some_iff.1 ht
  obtain ⟨hrest, u, us, rfl, hbegins⟩ := S.gap h hcut
  exact ⟨t, ts, u, us, rfl, rfl, (S.cut hcut).1, hbegins, hrest⟩

/-- What is seen of the first token alike, be it the semicolon or not. -/
theorem Related.observe_all (h : S.Related ts us)
    (hf : ∀ t u, Alike t u → f (some u) = f (some t))
    (hgap : ∀ t u, t.token.lexeme = .punct ";" → Begins u → f (some u) = f (some t)) :
    f us.head? = f ts.head? := by
  by_cases hcut : S.AtCut ts
  · obtain ⟨t, ts, u, us, rfl, rfl, hlexeme, hbegins, -⟩ := h.exists_cut hcut
    exact hgap t u hlexeme hbegins
  · exact h.observe hcut hf

end First

section Seen

variable (h : S.Related ts us)

include h

theorem Related.isPunct {mark : String} (hmark : mark ≠ ";") :
    us.isPunct mark = ts.isPunct mark := by
  refine h.observe_all (f := (·.any (·.token.isPunct mark))) (fun t u htu => ?_) ?_
  · simp [Token.isPunct, htu.lexeme]
  · rintro t u ht ⟨⟨name, hu, -⟩, -⟩
    rw [Bool.eq_iff_iff]
    simp [Token.isPunct, ht, hu, hmark.symm]

theorem Related.isEof : us.isEof = ts.isEof := by
  refine h.observe_all (f := (·.all (·.token.isEof))) (fun t u htu => ?_) ?_
  · simp [Token.isEof, htu.lexeme]
  · rintro t u ht ⟨⟨name, hu, -⟩, -⟩
    rw [Bool.eq_iff_iff]
    simp [Token.isEof, ht, hu]

theorem Related.number? : us.number? = ts.number? := by
  refine h.observe_all (f := (·.bind (·.token.number?))) (fun t u htu => ?_) ?_
  · simp [Token.number?, htu.lexeme]
  · rintro t u ht ⟨⟨name, hu, -⟩, -⟩
    simp [Token.number?, ht, hu]

theorem Related.text? : us.text? = ts.text? := by
  refine h.observe_all (f := (·.bind (·.token.text?))) (fun t u htu => ?_) ?_
  · simp [Token.text?, htu.lexeme]
  · rintro t u ht ⟨⟨name, hu, -⟩, -⟩
    simp [Token.text?, ht, hu]

/-- No assertion begins behind the semicolon. -/
theorem Related.isName {name : String} (hname : name = "as" ∨ name = "satisfies") :
    us.isName name = ts.isName name := by
  refine h.observe_all (f := (·.any (·.token.isName name))) (fun t u htu => ?_) ?_
  · simp [Token.isName, htu.lexeme]
  · rintro t u ht ⟨⟨other, hu, has, hsatisfies⟩, -⟩
    have hne : other ≠ name := by
      rcases hname with rfl | rfl
      · exact has
      · exact hsatisfies
    rw [Bool.eq_iff_iff]
    simp [Token.isName, ht, hu, hne]

/-- A statement ends at the semicolon, and at the line break that is left of it. -/
theorem Related.ends :
    (us.isPunct ";" || us.isPunct r"}" || us.head?.any (·.breaks)) =
      (ts.isPunct ";" || ts.isPunct r"}" || ts.head?.any (·.breaks)) := by
  refine h.observe_all (f := fun o => o.any (·.token.isPunct ";") ||
    o.any (·.token.isPunct r"}") || o.any (·.breaks)) (fun t u htu => ?_) fun t u ht hu => ?_
  · simp [Token.isPunct, htu.lexeme, htu.breaks]
  · simp [Token.isPunct, ht, hu.breaks]

variable (hcut : ¬ S.AtCut ts)

include hcut

theorem Related.isPunct_eq (mark : String) : us.isPunct mark = ts.isPunct mark := by
  refine h.observe hcut (f := (·.any (·.token.isPunct mark))) fun t u htu => ?_
  simp [Token.isPunct, htu.lexeme]

theorem Related.isName_eq (name : String) : us.isName name = ts.isName name := by
  refine h.observe hcut (f := (·.any (·.token.isName name))) fun t u htu => ?_
  simp [Token.isName, htu.lexeme]

theorem Related.isBinding_eq : isBinding us = isBinding ts := by
  unfold isBinding
  exact congrArg _ (funext fun name => h.isName_eq hcut name)

theorem Related.name?_eq : us.name? = ts.name? := by
  refine h.observe hcut (f := (·.bind (·.token.name?))) fun t u htu => ?_
  simp [Token.name?, htu.lexeme]

theorem Related.line_eq : us.line = ts.line := by
  refine h.observe hcut (f := fun o => (o.map (·.token.line)).getD 0) fun t u htu => ?_
  exact htu.line

theorem Related.cited_eq : us.cited = ts.cited := by
  refine h.observe hcut (f := fun o => (o.map (·.token.lexeme.cited)).getD "None") fun t u htu => ?_
  simp [htu.lexeme]

theorem Related.docOf_eq : docOf us = docOf ts := by
  refine h.observe hcut (f := (·.bind (·.token.doc))) fun t u htu => ?_
  exact htu.doc

theorem Related.breaks_eq : us.head?.any (·.breaks) = ts.head?.any (·.breaks) := by
  refine h.observe hcut (f := (·.any (·.breaks))) fun t u htu => ?_
  exact htu.breaks

theorem Related.key?_eq :
    us.head?.bind (key? ·.token.lexeme) = ts.head?.bind (key? ·.token.lexeme) := by
  refine h.observe hcut (f := (·.bind (key? ·.token.lexeme))) fun t u htu => ?_
  simp [htu.lexeme]

end Seen

/-! ### At the semicolon -/

theorem AtCut.exists_head (h : S.AtCut ts) :
    ∃ t ts', ts = t :: ts' ∧ t.token.lexeme = .punct ";" := by
  obtain ⟨t, ht, hcut⟩ := h
  obtain ⟨ts, rfl⟩ := List.head?_eq_some_iff.1 ht
  exact ⟨t, ts, rfl, (S.cut hcut).1⟩

theorem AtCut.isPunct (h : S.AtCut ts) {mark : String} (hmark : mark ≠ ";") :
    ts.isPunct mark = false := by
  obtain ⟨t, ts, rfl, ht⟩ := h.exists_head
  simp [Stream.isPunct, Token.isPunct, ht, hmark.symm]

theorem AtCut.isName (h : S.AtCut ts) (name : String) : ts.isName name = false := by
  obtain ⟨t, ts, rfl, ht⟩ := h.exists_head
  simp [Stream.isName, Token.isName, ht]

theorem AtCut.name? (h : S.AtCut ts) : ts.name? = none := by
  obtain ⟨t, ts, rfl, ht⟩ := h.exists_head
  simp [Stream.name?, Token.name?, ht]

theorem AtCut.not_strict (h : S.AtCut ts) : ¬ S.strict := by
  obtain ⟨t, -, hcut⟩ := h
  exact (S.cut hcut).2

theorem not_atCut_of_head {t : Lexed} (ht : ts.head? = some t)
    (hne : t.token.lexeme ≠ .punct ";") : ¬ S.AtCut ts := by
  rintro ⟨u, hu, hcut⟩
  cases ht.symm.trans (Option.mem_def.1 hu)
  exact hne (S.cut hcut).1

theorem not_atCut_of_isName {name : String} (h : ts.isName name = true) : ¬ S.AtCut ts :=
  fun hcut => absurd h (by simp [hcut.isName name])

theorem not_atCut_of_isPunct {mark : String} (h : ts.isPunct mark = true) (hmark : mark ≠ ";") :
    ¬ S.AtCut ts := fun hcut => absurd h (by simp [hcut.isPunct hmark])

/-! ## Places further on -/

/-- Both streams are at related places, `k` tokens or more behind the places `ts` and `us`; an
operand ends there if `e` says so. -/
structure Past (S : Lockstep) (e : Bool) (k : Nat) (ts us ts' us' : Stream) : Prop where
  related : S.Related ts' us'
  shorter : ts'.length + k ≤ ts.length
  shorter' : us'.length + k ≤ us.length
  behind : e = true → S.Behind ts'

section Past

variable {e e' : Bool} {j k : Nat} {ts'' us'' : Stream}

theorem Past.refl (h : S.Related ts us) : S.Past false 0 ts us ts us :=
  ⟨h, Nat.le_refl _, Nat.le_refl _, nofun⟩

theorem Past.here (h : S.Past e k ts us ts' us') : S.Past e 0 ts' us' ts' us' :=
  ⟨h.related, Nat.le_refl _, Nat.le_refl _, h.behind⟩

/-- One advance after the other. -/
theorem Past.trans (h : S.Past e j ts us ts' us') (h' : S.Past e' k ts' us' ts'' us'') :
    S.Past e' j ts us ts'' us'' := by
  have := h.shorter
  have := h.shorter'
  have := h'.shorter
  have := h'.shorter'
  exact ⟨h'.related, by omega, by omega, h'.behind⟩

theorem Past.onward (h : S.Past e k ts us ts' us') : S.Past e 0 ts us ts' us' :=
  ⟨h.related, Nat.le_of_add_right_le h.shorter, Nat.le_of_add_right_le h.shorter', h.behind⟩

theorem Past.any (h : S.Past e k ts us ts' us') : S.Past false k ts us ts' us' :=
  ⟨h.related, h.shorter, h.shorter', nofun⟩

/-- Any token but the end of the text can be taken off both streams. -/
theorem Related.past_next (h : S.Related ts us) {t : Lexed} (ht : ts.head? = some t)
    (hne : t.token.lexeme ≠ .punct ";") (heof : t.token.lexeme ≠ .eof) :
    S.Past (closesOperand t.token.lexeme) 1 ts us ts.next us.next := by
  have hall := S.within h
  rcases S.step h (not_atCut_of_head ht hne) with ⟨rfl, -⟩ | ⟨_, ts, u, us, rfl, rfl, -, hrest⟩
  · cases ht
  · cases ht
    exact ⟨hrest heof, Nat.le_refl _, Nat.le_refl _, fun hcloses => ⟨t, hall, hcloses⟩⟩

theorem Related.past_isPunct (h : S.Related ts us) {mark : String} (hpunct : ts.isPunct mark = true)
    (hmark : mark ≠ ";") : S.Past (closesOperand (.punct mark)) 1 ts us ts.next us.next := by
  obtain ⟨t, ht, hpunct⟩ := (Option.any_eq_true _ _).1 hpunct
  simp only [Token.isPunct, beq_iff_eq] at hpunct
  rw [← hpunct]
  exact h.past_next ht (by simp [hpunct, hmark]) (by simp [hpunct])

theorem Related.past_isName (h : S.Related ts us) {name : String} (hname : ts.isName name = true) :
    S.Past true 1 ts us ts.next us.next := by
  obtain ⟨t, ht, hname⟩ := (Option.any_eq_true _ _).1 hname
  simp only [Token.isName, beq_iff_eq] at hname
  have hpast := h.past_next ht (by simp [hname]) (by simp [hname])
  rwa [hname] at hpast

theorem Related.past_name? (h : S.Related ts us) {name : String} (hname : ts.name? = some name) :
    S.Past true 1 ts us ts.next us.next := by
  obtain ⟨t, ht, hname⟩ := Option.bind_eq_some_iff.1 hname
  unfold Token.name? at hname
  split at hname
  · next hlexeme =>
    have hpast := h.past_next ht (by simp [hlexeme]) (by simp [hlexeme])
    rwa [hlexeme] at hpast
  · cases hname

theorem Related.past_text? (h : S.Related ts us) {value : String} (hvalue : ts.text? = some value) :
    S.Past true 1 ts us ts.next us.next := by
  obtain ⟨t, ht, hvalue⟩ := Option.bind_eq_some_iff.1 hvalue
  unfold Token.text? at hvalue
  split at hvalue
  · next hlexeme =>
    have hpast := h.past_next ht (by simp [hlexeme]) (by simp [hlexeme])
    rwa [hlexeme] at hpast
  · cases hvalue

theorem Related.past_number? (h : S.Related ts us) {value : Number}
    (hvalue : ts.number? = some value) : S.Past true 1 ts us ts.next us.next := by
  obtain ⟨t, ht, hvalue⟩ := Option.bind_eq_some_iff.1 hvalue
  unfold Token.number? at hvalue
  split at hvalue
  · next hlexeme =>
    have hpast := h.past_next ht (by simp [hlexeme]) (by simp [hlexeme])
    rwa [hlexeme] at hpast
  · cases hvalue

end Past

/-! ## Readings -/

/-- What the first gives, the second gives up to `Q`; in a strict lockstep it also fails alike. -/
structure Follows (S : Lockstep) (Q : β → γ → Prop) (x : Except (Complaint Fault) β)
    (y : Except (Complaint Fault) γ) : Prop where
  ok : ∀ b, x = .ok b → ∃ c, y = .ok c ∧ Q b c
  error : S.strict → ∀ e, x = .error e → y = .error e ∧ S.blame e

/-- Both readings give the same, and stop at related places. -/
abbrev Reads (S : Lockstep) (e : Bool) (k : Nat) (ts us : Stream)
    (x y : Except (Complaint Fault) (α × Stream)) : Prop :=
  S.Follows (fun p q => q.1 = p.1 ∧ S.Past e k ts us p.2 q.2) x y

section Rules

variable {Q : β → γ → Prop}

theorem Follows.pure {b : β} {c : γ} (h : Q b c) : S.Follows Q (.ok b) (.ok c) := by
  refine ⟨?_, nofun⟩
  rintro _ ⟨⟩
  exact ⟨c, rfl, h⟩

/-- At the semicolon the first may fail. -/
theorem Follows.of_cut {x : Except (Complaint Fault) β} {y : Except (Complaint Fault) γ}
    (h : S.AtCut ts) (hx : ∀ b, x ≠ .ok b) : S.Follows Q x y :=
  ⟨fun b hb => absurd hb (hx b), fun hstrict => absurd hstrict h.not_strict⟩

theorem Follows.fail_of (h : S.Related ts us) {fault : Fault} (hnesting : fault ≠ .nesting)
    (hlong : fault = .longNumber → ts.number?.any Number.isLong = true) :
    S.Follows Q (ts.fail fault) (us.fail fault) := by
  refine ⟨nofun, ?_⟩
  rintro hstrict _ ⟨⟩
  have hline := h.observe (fun hcut => hcut.not_strict hstrict) (f := (·.map (·.token.line)))
    fun t u htu => congrArg some htu.line
  exact ⟨by rw [Stream.fail, hline], S.blames hstrict h hnesting hlong⟩

theorem Follows.fail (h : S.Related ts us) {fault : Fault} (hplain : fault.isPlain = true) :
    S.Follows Q (ts.fail fault) (us.fail fault) := by
  refine .fail_of h ?_ ?_ <;> rintro rfl <;> cases hplain

theorem Follows.fail_long (h : S.Related ts us) (hlong : ts.number?.any Number.isLong = true) :
    S.Follows Q (ts.fail .longNumber) (us.fail .longNumber) :=
  .fail_of h (by rintro ⟨⟩) fun _ => hlong

theorem Follows.failCiting (h : S.Related ts us) {fault : String → Fault}
    (hplain : ∀ s, (fault s).isPlain = true) :
    S.Follows Q (ts.failCiting fault) (us.failCiting fault) := by
  by_cases hcut : S.AtCut ts
  · exact .of_cut hcut fun _ => nofun
  unfold Stream.failCiting
  rw [h.number?, h.cited_eq hcut]
  split
  next hlong => exact .fail_long h hlong
  next => exact .fail h (hplain _)

/-- Two readers in step go on with readers in step. -/
theorem Follows.bind {Q' : δ → α → Prop} {x : Except (Complaint Fault) β}
    {y : Except (Complaint Fault) γ} {f : β → Except (Complaint Fault) δ}
    {f' : γ → Except (Complaint Fault) α} (hx : S.Follows Q x y)
    (hf : ∀ b c, x = .ok b → y = .ok c → Q b c → S.Follows Q' (f b) (f' c)) :
    S.Follows Q' (x >>= f) (y >>= f') := by
  cases x with
  | error e =>
    refine ⟨nofun, ?_⟩
    rintro hstrict _ ⟨⟩
    obtain ⟨rfl, hblame⟩ := hx.error hstrict e rfl
    exact ⟨rfl, hblame⟩
  | ok b =>
    obtain ⟨c, rfl, hq⟩ := hx.ok b rfl
    exact hf b c rfl rfl hq

variable {e e' : Bool} {j k : Nat} {x y : Except (Complaint Fault) (α × Stream)}

theorem reads_ok {a : α} (h : S.Past e k ts us ts' us') :
    S.Reads e k ts us (.ok (a, ts')) (.ok (a, us')) := .pure ⟨rfl, h⟩

/-- Nothing more is read. -/
theorem Past.done {a : α} (h : S.Past e k ts us ts' us') :
    S.Reads e 0 ts' us' (.ok (a, ts')) (.ok (a, us')) := reads_ok h.here

theorem Past.doneAny {a : α} (h : S.Past e k ts us ts' us') :
    S.Reads false 0 ts' us' (.ok (a, ts')) (.ok (a, us')) := reads_ok h.here.any

/-- What is read in step can be read on from. -/
theorem Reads.bind {f f' : α × Stream → Except (Complaint Fault) (β × Stream)}
    (hx : S.Reads e j ts us x y) (hf : ∀ a ts' us', S.Past e j ts us ts' us' →
      S.Reads e' k ts' us' (f (a, ts')) (f' (a, us'))) :
    S.Reads e' j ts us (x >>= f) (y >>= f') := by
  refine Follows.bind hx ?_
  rintro ⟨a, ts'⟩ ⟨b, us'⟩ - - ⟨heq, hpast⟩
  obtain rfl : b = a := heq
  obtain ⟨hok, herror⟩ := hf b ts' us' hpast
  refine ⟨fun b hb => ?_, herror⟩
  obtain ⟨c, hc, heq, hpast'⟩ := hok b hb
  exact ⟨c, hc, heq, hpast.trans hpast'⟩

theorem Past.follows (h : S.Past e 0 ts us ts' us') {x y : Except (Complaint Fault) Stream}
    (hx : S.Follows (S.Past e' 0 ts' us') x y) : S.Follows (S.Past e' 0 ts us) x y := by
  refine ⟨fun b hb => ?_, hx.error⟩
  obtain ⟨c, hc, hpast⟩ := hx.ok b hb
  exact ⟨c, hc, h.trans hpast⟩

theorem Past.reads (h : S.Past e j ts us ts' us') (hx : S.Reads e' k ts' us' x y) :
    S.Reads e' j ts us x y := by
  refine ⟨fun b hb => ?_, hx.error⟩
  obtain ⟨c, hc, heq, hpast⟩ := hx.ok b hb
  exact ⟨c, hc, heq, h.trans hpast⟩

theorem Reads.mono (hx : S.Reads e j ts us x y)
    (h : ∀ {ts' us'}, S.Past e j ts us ts' us' → S.Past e' k ts us ts' us') :
    S.Reads e' k ts us x y := by
  refine ⟨fun b hb => ?_, hx.error⟩
  obtain ⟨c, hc, heq, hpast⟩ := hx.ok b hb
  exact ⟨c, hc, heq, h hpast⟩

theorem Reads.onward (hx : S.Reads e k ts us x y) : S.Reads e 0 ts us x y := hx.mono Past.onward

end Rules

/-! ## Bounds -/

/-- A bound on the second stream that is not used up before the end of the first. -/
theorem Related.exists_succ (h : S.Related ts us) {fuel : Nat}
    (hfuel : us.length < fuel + S.spare) :
    ∃ k, fuel = k + 1 := by
  have := (S.room h).1
  exact ⟨fuel - 1, by omega⟩

theorem Related.exists_succ_of_ne_nil (h : S.Related ts us) (hus : us ≠ []) {fuel : Nat}
    (hfuel : us.length ≤ fuel + S.spare) : ∃ k, fuel = k + 1 := by
  refine Nat.exists_eq_succ_of_ne_zero ?_
  rintro rfl
  exact hus ((S.room h).2 (by omega))

theorem Related.eq_nil (h : S.Related [] us) : us = [] := by
  rcases S.step h (by rintro ⟨t, ⟨⟩, -⟩) with ⟨-, rfl⟩ | ⟨_, _, _, _, h, -⟩
  · rfl
  · cases h

/-! ## Single tokens -/

theorem reads_expectPunct (h : S.Related ts us) {mark : String} (hmark : mark ≠ ";") :
    S.Reads (closesOperand (.punct mark)) 1 ts us (expectPunct mark ts) (expectPunct mark us) := by
  unfold expectPunct
  rw [h.isPunct hmark, h.isEof]
  split
  next hpunct => exact reads_ok (h.past_isPunct hpunct hmark)
  next =>
    split
    · exact .fail h rfl
    · exact .failCiting h fun _ => rfl

theorem reads_expectString (h : S.Related ts us) :
    S.Reads true 1 ts us (expectString ts) (expectString us) := by
  unfold expectString
  rw [h.text?]
  split
  next value hvalue => exact reads_ok (h.past_text? hvalue)
  next => exact .fail h rfl

theorem reads_expectName (h : S.Related ts us) :
    S.Reads true 1 ts us (expectName ts) (expectName us) := by
  unfold expectName
  by_cases hcut : S.AtCut ts
  · rw [hcut.name?]
    exact .of_cut hcut fun _ => nofun
  rw [h.name?_eq hcut]
  split
  next name hname => exact reads_ok (h.past_name? hname)
  next => exact .failCiting h fun _ => rfl

/-- The semicolon is the end of a statement, and without it the line break is. -/
theorem reads_endStatement (h : S.Related ts us) :
    S.Reads false 0 ts us (endStatement ts) (endStatement us) := by
  unfold endStatement
  by_cases hcut : S.AtCut ts
  · obtain ⟨t, ts, u, us, rfl, rfl, ht, ⟨⟨name, hname, -⟩, hbreaks⟩, hrest⟩ := h.exists_cut hcut
    have hsemicolon : Stream.isPunct (t :: ts) ";" = true := by
      simp [Stream.isPunct, Token.isPunct, ht]
    have hno : Stream.isPunct (u :: us) ";" = false := by
      simp [Stream.isPunct, Token.isPunct, hname]
    simp only [hsemicolon, hno, if_true, List.head?_cons, Option.any_some, hbreaks, Bool.or_true]
    exact reads_ok ⟨hrest, Nat.le_succ _, Nat.le_refl _, nofun⟩
  · rw [h.isPunct_eq hcut, h.isPunct_eq hcut, h.isEof, h.breaks_eq hcut]
    split
    next hpunct =>
      obtain ⟨t, ht, hlexeme⟩ := (Option.any_eq_true _ _).1 hpunct
      simp only [Token.isPunct, beq_iff_eq] at hlexeme
      rcases S.step h hcut with ⟨rfl, -⟩ | ⟨_, ts, u, us, rfl, rfl, -, hrest⟩
      · cases ht
      · cases ht
        exact reads_ok ⟨hrest (by simp [hlexeme]), Nat.le_succ _, Nat.le_succ _, nofun⟩
    next =>
      split
      · exact reads_ok (.refl h)
      · exact .failCiting h fun _ => rfl

/-! ## Brackets -/

theorem closer?_ne {mark close : String} (h : closer? mark = some close) : close ≠ ";" := by
  unfold closer? at h
  split at h <;> cases h <;> decide

/-- A bracket is closed in the second stream where it is closed in the first. -/
theorem Related.closing? (h : S.Related ts us) {marks : List String} (hmarks : ";" ∉ marks) :
    Option.Rel (Meets S.Same S.Related ts us) (closing? marks ts) (closing? marks us) := by
  induction ts generalizing us marks with
  | nil =>
    rw [h.eq_nil]
    exact .none
  | cons t ts ih =>
    by_cases hcut : S.AtCut (t :: ts)
    · -- the search passes over the semicolon in the first stream
      obtain ⟨_, _, u, us, ⟨⟩, rfl, ht, -, hrest⟩ := h.exists_cut hcut
      have hskip : Program.closing? marks (t :: ts) = (Program.closing? marks ts).map (· + 1) := by
        cases marks with
        | nil => simp [Program.closing?, ht]
        | cons top outer =>
          have htop : ";" ≠ top := fun heq => hmarks (heq ▸ List.mem_cons_self)
          simp [Program.closing?, ht, closer?, htop]
      have hfound := ih hrest hmarks
      rw [hskip]
      generalize Program.closing? marks ts = i at hfound ⊢
      generalize Program.closing? marks (u :: us) = j at hfound ⊢
      cases hfound with
      | none => exact .none
      | some h => exact .some h
    rcases S.step h hcut with ⟨⟨⟩, -⟩ | ⟨_, _, u, us, ⟨⟩, rfl, hsame, hrest⟩
    have hlexeme := (S.alike hsame).lexeme
    -- behind the first token, the search goes on with some other open brackets
    have hgoes : ∀ {more : List String}, t.token.lexeme ≠ .eof → ";" ∉ more →
        Option.Rel (Meets S.Same S.Related (t :: ts) (u :: us))
          ((Program.closing? more ts).map (· + 1)) ((Program.closing? more us).map (· + 1)) := by
      intro more heof hmore
      have hfound := ih (hrest heof) hmore
      generalize Program.closing? more ts = i at hfound ⊢
      generalize Program.closing? more us = j at hfound ⊢
      cases hfound with
      | none => exact .none
      | some h => exact .some h
    rw [Program.closing?.eq_def, Program.closing?.eq_def marks (u :: us)]
    dsimp only
    rw [hlexeme]
    split
    · exact .none
    · next mark top outer ht =>
      have heof : t.token.lexeme ≠ .eof := by simp [ht]
      have houter : ";" ∉ outer := fun hmem => hmarks (List.mem_cons_of_mem _ hmem)
      split
      · next close hclose =>
        split
        · refine hgoes heof ?_
          rw [List.mem_cons, not_or]
          exact ⟨(closer?_ne hclose).symm, hmarks⟩
        · exact hgoes heof hmarks
      · split
        · split
          · exact .some ⟨t, u, ts, us, rfl, rfl, hsame, hrest heof⟩
          · exact hgoes heof houter
        · split
          · exact .none
          · exact hgoes heof hmarks
    · next heof _ => exact hgoes heof hmarks

/-- A bracket is closed in both streams, or in none. -/
theorem Related.closingOf? (h : S.Related ts us) (mark : String) :
    (∃ i j, closingOf? mark ts = some i ∧ closingOf? mark us = some j ∧
      Meets S.Same S.Related ts us i j) ∨
    (closingOf? mark ts = none ∧ closingOf? mark us = none) := by
  unfold Program.closingOf?
  cases hclose : closer? mark with
  | none => exact Or.inr ⟨rfl, rfl⟩
  | some close =>
    have hrel : Option.Rel _ (Program.closing? [close] ts) _ :=
      h.closing? (by simpa using (closer?_ne hclose).symm)
    dsimp only
    generalize Program.closing? [close] ts = i at hrel ⊢
    generalize Program.closing? [close] us = j at hrel ⊢
    cases hrel with
    | none => exact Or.inr ⟨rfl, rfl⟩
    | some hmeets => exact Or.inl ⟨_, _, rfl, rfl, hmeets⟩

theorem past_of_meets {i j : Nat} (h : Meets S.Same S.Related ts us i j) :
    S.Past false 1 ts us (ts.skip (i + 1)) (us.skip (j + 1)) := by
  obtain ⟨t, u, ts', us', hts, hus, -, hrest⟩ := h
  have hlength := congrArg List.length hts
  have hlength' := congrArg List.length hus
  simp only [Stream.skip, List.length_drop, List.length_cons] at hlength hlength'
  have htail : ts.skip (i + 1) = ts' := by
    rw [Stream.skip, ← List.tail_drop, ← Stream.skip, hts]; rfl
  have htail' : us.skip (j + 1) = us' := by
    rw [Stream.skip, ← List.tail_drop, ← Stream.skip, hus]; rfl
  rw [htail, htail']
  exact ⟨hrest, by omega, by omega, nofun⟩

end Lockstep

/-- Skips to the first of some marks that stands outside all brackets. -/
def skipUntil (stop : String → Bool) (unterminated unbalanced : Fault) :
    Stream → Except (Complaint Fault) Stream
  | [] => Stream.fail [] unterminated
  | t :: rest =>
    match t.token.lexeme with
    | .eof => Stream.fail (t :: rest) unterminated
    | .punct mark =>
      if stop mark then .ok (t :: rest)
      else if (closer? mark).isSome then
        match closingOf? mark rest with
        | some n => skipUntil stop unterminated unbalanced (rest.drop (n + 1))
        | none => Stream.fail (t :: rest) unbalanced
      else skipUntil stop unterminated unbalanced rest
    | _ => skipUntil stop unterminated unbalanced rest
termination_by ts => ts.length

/-- A type is skipped up to a mark that ends it. -/
theorem skipType_eq (ts : Stream) :
    skipType ts = skipUntil (typeEnds.contains ·) .unterminatedType .unbalancedType ts := by
  fun_induction skipType ts with
  | case1 => rw [skipUntil]
  | case2 t rest h => rw [skipUntil, h]
  | case3 t rest mark h hstop => simp only [skipUntil, h, hstop, if_true]
  | case4 t rest mark h hstop hopen n hn ih =>
    rw [ih, skipUntil.eq_def _ _ _ (t :: rest)]
    simp only [h, hstop, hopen, hn, if_true, Bool.false_eq_true, if_false]
  | case5 t rest mark h hstop hopen hn =>
    simp only [skipUntil, h, hstop, hopen, hn, if_true, Bool.false_eq_true, if_false]
  | case6 t rest mark h hstop hopen ih =>
    rw [ih, skipUntil.eq_def _ _ _ (t :: rest)]
    simp only [h, hstop, hopen, Bool.false_eq_true, if_false]
  | case7 t rest heof hpunct ih =>
    rw [ih, skipUntil.eq_def _ _ _ (t :: rest)]
    dsimp only
    split
    next h => exact absurd h heof
    next mark h => exact absurd h (hpunct mark)
    next => rfl

theorem skipToArrow_eq (ts : Stream) :
    skipToArrow ts = skipUntil (· = "=>") .expectedArrow .unbalancedReturnType ts := by
  fun_induction skipToArrow ts with
  | case1 => rw [skipUntil]
  | case2 t rest h => rw [skipUntil, h]
  | case3 t rest h => simp only [skipUntil, h, decide_true, if_true]
  | case4 t rest mark h hstop hopen n hn ih =>
    rw [ih, skipUntil.eq_def _ _ _ (t :: rest)]
    simp only [h, hstop, hopen, hn, decide_false, if_true, Bool.false_eq_true, if_false]
  | case5 t rest mark h hstop hopen hn =>
    simp only [skipUntil, h, hstop, hopen, hn, decide_false, if_true, Bool.false_eq_true, if_false]
  | case6 t rest mark h hstop hopen ih =>
    rw [ih, skipUntil.eq_def _ _ _ (t :: rest)]
    simp only [h, hstop, hopen, decide_false, Bool.false_eq_true, if_false]
  | case7 t rest heof hpunct ih =>
    rw [ih, skipUntil.eq_def _ _ _ (t :: rest)]
    dsimp only
    split
    next h => exact absurd h heof
    next mark h => exact absurd h (hpunct mark)
    next => rfl

section Skip

variable {stop : String → Bool} {unterminated unbalanced : Fault} {ts ts' us : Stream}

/-- What is skipped ends at one of the marks. -/
theorem stops_skipUntil (h : skipUntil stop unterminated unbalanced ts = .ok ts') :
    ∃ t rest mark, ts' = t :: rest ∧ t.token.lexeme = .punct mark ∧ stop mark = true := by
  fun_induction skipUntil stop unterminated unbalanced ts with
  | case1 => cases h
  | case2 => cases h
  | case3 t rest mark hmark hstop =>
    cases h
    exact ⟨t, rest, mark, rfl, hmark, hstop⟩
  | case4 _ _ _ _ _ _ _ _ ih => exact ih h
  | case5 => cases h
  | case6 _ _ _ _ _ _ ih => exact ih h
  | case7 _ _ _ _ ih => exact ih h

namespace Lockstep

variable {S : Lockstep}

/-- No bracket is opened by the semicolon. -/
theorem not_atCut_of_opens {t : Lexed} {rest : Stream} {mark : String}
    (hmark : t.token.lexeme = .punct mark) (hopen : (closer? mark).isSome = true) :
    ¬ S.AtCut (t :: rest) := not_atCut_of_head rfl (by
  rw [hmark]
  rintro ⟨⟩
  exact absurd hopen (by decide))

/-- The same is skipped in both streams, unless that ends at the semicolon. -/
theorem follows_skipUntil (h : S.Related ts us) (hterminated : unterminated.isPlain = true)
    (hbalanced : unbalanced.isPlain = true)
    (hstop : ∀ ts', skipUntil stop unterminated unbalanced ts = .ok ts' → ¬ S.AtCut ts') :
    S.Follows (S.Past false 0 ts us) (skipUntil stop unterminated unbalanced ts)
      (skipUntil stop unterminated unbalanced us) := by
  fun_induction skipUntil stop unterminated unbalanced ts generalizing us with
  | case1 =>
    rw [h.eq_nil, skipUntil]
    exact .fail (h.eq_nil ▸ h) hterminated
  | case2 t rest heof =>
    rcases S.step h (not_atCut_of_head rfl (by simp [heof])) with
      ⟨⟨⟩, -⟩ | ⟨_, _, u, us, ⟨⟩, rfl, hsame, -⟩
    rw [skipUntil, (S.alike hsame).lexeme, heof]
    exact .fail h hterminated
  | case3 t rest mark hmark hends =>
    rcases S.step h (hstop _ rfl) with ⟨⟨⟩, -⟩ | ⟨_, _, u, us, ⟨⟩, rfl, hsame, -⟩
    rw [skipUntil, (S.alike hsame).lexeme, hmark]
    simp only [hends, if_true]
    exact .pure (.refl h)
  | case4 t rest mark hmark hends hopen k hk ih =>
    rcases S.step h (not_atCut_of_opens hmark hopen) with
      ⟨⟨⟩, -⟩ | ⟨_, _, u, us, ⟨⟩, rfl, hsame, hrest⟩
    have hrest := hrest (by simp [hmark])
    rcases hrest.closingOf? mark with ⟨i, j, hi, hj, hmeets⟩ | ⟨hnone, -⟩
    · cases hk.symm.trans hi
      rw [skipUntil, (S.alike hsame).lexeme, hmark]
      simp only [hends, hopen, hj, if_true, Bool.false_eq_true, if_false]
      have hnext : S.Past false 0 (t :: rest) (u :: us) rest us :=
        ⟨hrest, Nat.le_succ _, Nat.le_succ _, nofun⟩
      have hpast := past_of_meets hmeets
      exact (hnext.trans hpast).follows (ih hpast.related hstop)
    · cases hk.symm.trans hnone
  | case5 t rest mark hmark hends hopen hk =>
    rcases S.step h (not_atCut_of_opens hmark hopen) with
      ⟨⟨⟩, -⟩ | ⟨_, _, u, us, ⟨⟩, rfl, hsame, hrest⟩
    rcases (hrest (by simp [hmark])).closingOf? mark with ⟨i, _, hi, -, -⟩ | ⟨-, hnone⟩
    · cases hk.symm.trans hi
    · rw [skipUntil, (S.alike hsame).lexeme, hmark]
      simp only [hends, hopen, hnone, if_true, Bool.false_eq_true, if_false]
      exact .fail h hbalanced
  | case6 t rest mark hmark hends hopen ih =>
    by_cases hcut : S.AtCut (t :: rest)
    · obtain ⟨_, _, u, us, ⟨⟩, rfl, -, -, hrest⟩ := h.exists_cut hcut
      exact Past.follows (e := false) ⟨hrest, Nat.le_succ _, Nat.le_refl _, nofun⟩ (ih hrest hstop)
    rcases S.step h hcut with ⟨⟨⟩, -⟩ | ⟨_, _, u, us, ⟨⟩, rfl, hsame, hrest⟩
    have hrest := hrest (by simp [hmark])
    rw [skipUntil.eq_def _ _ _ (u :: us)]
    simp only [(S.alike hsame).lexeme, hmark, hends, hopen, Bool.false_eq_true, if_false]
    exact Past.follows (e := false) ⟨hrest, Nat.le_succ _, Nat.le_succ _, nofun⟩ (ih hrest hstop)
  | case7 t rest heof hpunct ih =>
    have hcut : ¬ S.AtCut (t :: rest) := not_atCut_of_head rfl (hpunct ";")
    rcases S.step h hcut with ⟨⟨⟩, -⟩ | ⟨_, _, u, us, ⟨⟩, rfl, hsame, hrest⟩
    have hrest := hrest heof
    rw [skipUntil.eq_def _ _ _ (u :: us)]
    dsimp only
    rw [(S.alike hsame).lexeme]
    split
    · next hlexeme => exact absurd hlexeme heof
    · next mark hlexeme => exact absurd hlexeme (hpunct mark)
    · exact Past.follows (e := false) ⟨hrest, Nat.le_succ _, Nat.le_succ _, nofun⟩ (ih hrest hstop)

theorem follows_skipType (h : S.Related ts us)
    (hstop : ∀ ts', skipType ts = .ok ts' → ¬ S.AtCut ts') :
    S.Follows (S.Past false 0 ts us) (skipType ts) (skipType us) := by
  rw [skipType_eq] at hstop
  rw [skipType_eq, skipType_eq]
  exact follows_skipUntil h rfl rfl hstop

theorem follows_skipToArrow (h : S.Related ts us) :
    S.Follows (S.Past false 0 ts us) (skipToArrow ts) (skipToArrow us) := by
  rw [skipToArrow_eq, skipToArrow_eq]
  refine follows_skipUntil h rfl rfl fun ts' hskip => ?_
  obtain ⟨t, rest, mark, rfl, hmark, hstop⟩ := stops_skipUntil hskip
  obtain rfl := of_decide_eq_true hstop
  exact not_atCut_of_head rfl (by simp [hmark])

end Lockstep

end Skip

end EventFlow.Program
