import EventFlow.Proofs.Program.Depth

/-! Readers stop at the end of the text.

`Left all ts` says that `ts` is what is left of the tokens `all`, with the end of the text still in
it.  Such a stream is in step with itself and whatever tokens `more` behind the end: neither `more`
nor the bounds on length and depth matter, and a complaint is about a token of `all`. -/

namespace EventFlow.Program

/-! ## What is left of a stream -/

/-- A part of the tokens up to the end of the text. -/
structure Left (all ts : Stream) : Prop where
  suffix : ts <:+ all
  last : ∃ e ∈ ts.getLast?, e.token.lexeme = .eof

section Left

variable {all ts : Stream}

theorem Left.ne_nil (h : Left all ts) : ts ≠ [] := by
  rintro rfl
  obtain ⟨e, he, -⟩ := h.last
  cases he

theorem Left.length_pos (h : Left all ts) : 0 < ts.length := List.length_pos_iff.2 h.ne_nil

/-- Any token but the end of the text can be taken off. -/
theorem Left.tail {t : Lexed} (h : Left all (t :: ts)) (ht : t.token.lexeme ≠ .eof) :
    Left all ts := by
  obtain ⟨e, he, heof⟩ := h.last
  refine ⟨(List.suffix_cons t ts).trans h.suffix, e, ?_, heof⟩
  cases ts with
  | nil =>
    cases he
    exact absurd heof ht
  | cons u us => exact he

end Left

/-! ## Complaints -/

/-- The complaint is about the token: it has its line, and says that a number is too long only of a
number that is. -/
structure Blames (t : Token) (c : Complaint Fault) : Prop where
  eq : c = ⟨c.fault, some t.line, none⟩
  nesting : c.fault ≠ .nesting
  longNumber : c.fault = .longNumber → ∃ n, t.lexeme = .number n ∧ n.isLong = true

/-- A failure at the first token of what is left. -/
theorem Left.blames {all ts : Stream} (h : Left all ts) {fault : Fault}
    (hnesting : fault ≠ .nesting)
    (hlong : fault = .longNumber → ts.number?.any Number.isLong = true) :
    ∃ t ∈ all, Blames t.token ⟨fault, ts.head?.map (·.token.line), none⟩ := by
  obtain ⟨t, ts, rfl⟩ := List.exists_cons_of_ne_nil h.ne_nil
  refine ⟨t, h.suffix.subset List.mem_cons_self, rfl, hnesting, fun hfault => ?_⟩
  obtain ⟨n, hn, hlong⟩ := (Option.any_eq_true _ _).1 (hlong hfault)
  refine ⟨n, ?_, hlong⟩
  change t.token.number? = some n at hn
  unfold Token.number? at hn
  split at hn
  · next value hvalue =>
    cases hn
    exact hvalue
  · cases hn

/-! ## Behind the end -/

theorem uncut_appended (all more : Stream) :
    Uncut all (fun ts us => us = ts ++ more ∧ Left all ts) more.length where
  within h := h.2.suffix
  step := by
    rintro ts _ ⟨rfl, h⟩
    obtain ⟨t, ts, rfl⟩ := List.exists_cons_of_ne_nil h.ne_nil
    exact Or.inr ⟨t, ts, ts ++ more, rfl, rfl, fun ht => ⟨rfl, h.tail ht⟩⟩
  room := by
    rintro ts _ ⟨rfl, h⟩
    have hpos := h.length_pos
    rw [List.length_append]
    exact ⟨by omega, fun hle => by omega⟩

/-- The streams differ in what stands behind the end of the text. -/
def Lockstep.appended (source : List Char) (all more : Stream) (strict : Prop) : Lockstep :=
  .uncut source (uncut_appended all more) strict (fun c => ∃ t ∈ all, Blames t.token c)
    fun _ h hnesting hlong => h.2.blames hnesting hlong

end EventFlow.Program
