import EventFlow.Extraction.Model
import EventFlow.Proofs.Emission.Comment
import EventFlow.Proofs.Emission.Server
import EventFlow.Proofs.Program.Depth
import EventFlow.Proofs.Program.Source

/-! Sections of a file are read as programs.

`Holds d ts P xs` says that the lines `ts` are statements, one for each of `xs` and with its
property, to the grammar of depth `d`; comments stand above some of them. Sections are put together
line by line, and the whole file is read as the statements of all of them:

    Holds d ts P xs → programOf d (unlines ts) = ok ss, with P x s for each s -/

namespace EventFlow.Emission

open Program (ReadsStatement Stream Lexed statements grammar statements_reads parseWithin stream
  map_token_stream)
open Program Token

/-- A statement with the comment above it is one lexeme after the other, the first of which bears
the comment. -/
abbrev Group := Option String × List Lexeme

variable {α : Type} {d : Nat} {P : α → Statement → Prop} {Q : Option String → Statement → Prop}
  {code : List String} {xs : List α} {gs : List Group} {us : Stream}

/-- The lines are some statements, each with a property of its own. -/
def Holds (d : Nat) (ts : List String) (P : α → Statement → Prop) (xs : List α) : Prop :=
  ∃ gs : List Group, Section ts (gs.flatMap fun g => viewed g.1 g.2) ∧
    List.Forall₂ (fun g x => ReadsStatement d g.2 fun doc s => doc = g.1 → P x s) gs xs

theorem Holds.append {a b : List String} {xs ys : List α} (ha : Holds d a P xs)
    (hb : Holds d b P ys) : Holds d (a ++ b) P (xs ++ ys) := by
  obtain ⟨ga, hsa, hra⟩ := ha
  obtain ⟨gb, hsb, hrb⟩ := hb
  exact ⟨ga ++ gb, by simpa using hsa.append hsb, List.rel_append hra hrb⟩

theorem Section.nil : Section [] [] := Section.of_lines Lines.nil

theorem Holds.nil : Holds d [] P [] := ⟨[], Section.nil, .nil⟩

theorem Holds.blank : Holds d [""] P [] := ⟨[], Section.empty, .nil⟩

theorem Holds.blanks (n : Nat) : Holds d (List.replicate n "") P [] := by
  induction n with
  | zero => exact Holds.nil
  | succ n ih => exact Holds.blank.append ih

theorem Says.ne_nil (h : Says d code Q) : code ≠ [] := by
  rintro rfl
  obtain ⟨ls, hlines, hreads⟩ := h
  exact ne_nil_of_starts hreads.starts hlines.eq_nil

/-- A statement below its comment. -/
theorem Says.holds (h : Says d code Q) {text : Option String} {tags : List Tag}
    (hdoc : DocComment.IsSayable text tags) {x : α} (hP : ∀ s, Q (docOf text tags "") s → P x s) :
    Holds d (DocComment.format text tags "" ++ code) P [x] := by
  obtain ⟨ls, hlines, hreads⟩ := h
  have hls : ls ≠ [] := ne_nil_of_starts hreads.starts
  refine ⟨[(docOf text tags "", ls)], ?_, .cons (hreads.mono ?_) .nil⟩
  · simpa using Section.commented hdoc (by decide) hlines hls
  · rintro doc s hQ rfl
    exact hP s hQ

/-- A statement without a comment. -/
theorem Says.holds_bare (h : Says d code Q) {x : α} (hP : ∀ s, Q none s → P x s) :
    Holds d code P [x] := by
  have hnothing : DocComment.IsSayable none [] := ⟨by simp, by simp, by simp⟩
  exact h.holds hnothing hP

/-! ## Programs -/

/-- A stream is cut along the statements. -/
theorem exists_streams (h : us.map (fun t => view t.token) = gs.flatMap fun g => viewed g.1 g.2) :
    ∃ uss : List Stream, us = uss.flatten ∧
      List.Forall₂ (fun us g => us.map (fun t => view t.token) = viewed g.1 g.2) uss gs := by
  induction gs generalizing us with
  | nil => exact ⟨[], List.map_eq_nil_iff.1 h, .nil⟩
  | cons g gs ih =>
    rw [List.flatMap_cons] at h
    obtain ⟨va, vb, rfl, hva, hvb⟩ := List.map_eq_append_iff.1 h
    obtain ⟨uss, rfl, huss⟩ := ih hvb
    exact ⟨va :: uss, by simp, .cons hva huss⟩

theorem lexemes_of_viewed {g : Group} (h : us.map (fun t => view t.token) = viewed g.1 g.2) :
    us.lexemes = g.2 := by
  obtain ⟨doc, ls⟩ := g
  have := congrArg (List.map (·.2)) h
  cases ls with
  | nil => simpa [viewed, Stream.lexemes, view] using this
  | cons l ls => simpa [viewed, Stream.lexemes, view, Function.comp_def] using this

theorem docOf_of_viewed {g : Group} (h : us.map (fun t => view t.token) = viewed g.1 g.2)
    (hne : g.2 ≠ []) : Program.docOf us = g.1 := by
  obtain ⟨doc, ls⟩ := g
  obtain ⟨l, ls, rfl⟩ := List.exists_cons_of_ne_nil hne
  obtain ⟨t, us, rfl, ht, -⟩ := List.map_eq_cons_iff.1 h
  exact congrArg (·.1) ht

theorem reads_streams (source : List Char) {uss : List Stream}
    (huss : List.Forall₂ (fun us g => us.map (fun t => view t.token) = viewed g.1 g.2) uss gs)
    (hgs : List.Forall₂ (fun g x => ReadsStatement d g.2 fun doc s => doc = g.1 → P x s) gs xs) :
    List.Forall₂ (fun us x => (∃ l ∈ us.lexemes.head?, isStart l = true) ∧
      ∀ rest, ∃ s, statement (grammar source d) (us ++ rest) = .ok (some s, rest) ∧ P x s)
      uss xs := by
  induction huss generalizing xs with
  | nil =>
    cases hgs
    exact .nil
  | cons hus _ ih =>
    obtain ⟨x, xs, hreads, hmore, rfl⟩ := List.forall₂_cons_left_iff.1 hgs
    have hlexemes := lexemes_of_viewed hus
    refine .cons ⟨by rw [hlexemes]; exact hreads.starts, fun rest => ?_⟩ (ih hmore)
    obtain ⟨s, hs, hP⟩ := hreads.reads source _ rest hlexemes
    exact ⟨s, hs, hP (docOf_of_viewed hus (ne_nil_of_starts hreads.starts))⟩

/-- Text that spells statements is read as them. -/
theorem exists_programOf {cs : List Char}
    (hcode : Documented cs (gs.flatMap fun g => viewed g.1 g.2)) (hreads : List.Forall₂ (fun g x =>
      ReadsStatement d g.2 fun doc s => doc = g.1 → P x s) gs xs) :
    ∃ ss, Extraction.programOf d cs = .ok ss ∧ List.Forall₂ (fun s x => P x s) ss xs := by
  obtain ⟨us, hcuts, hviews⟩ := hcode (.start 1)
  obtain ⟨last, htokens, hlast⟩ := hcuts.tokenizeFrom
  obtain ⟨va, vb, hstream, hva, hvb⟩ := List.map_eq_append_iff.1 (map_token_stream (us ++ [last]))
  obtain ⟨t, vb, rfl, ht, hnil⟩ := List.map_eq_cons_iff.1 hvb
  obtain rfl := List.map_eq_nil_iff.1 hnil
  have hva' : va.map (fun t => view t.token) = gs.flatMap fun g => viewed g.1 g.2 := by
    rw [← hviews, ← hva, List.map_map]
    rfl
  obtain ⟨uss, rfl, huss⟩ := exists_streams hva'
  have hpairs := reads_streams cs huss hreads
  have hlength : uss.length < (us ++ [last]).length := by
    have hle := length_le_flatten (forall_left hpairs fun us x h hnil => by
      rw [hnil] at h
      obtain ⟨⟨l, hl, -⟩, -⟩ := h
      cases hl)
    rw [List.length_append, ← hva, List.length_map]
    exact Nat.lt_succ_of_le hle
  obtain ⟨ss, hss, hP⟩ := statements_reads hpairs (ht ▸ hlast : t.token.lexeme = .eof) hlength
  refine ⟨ss, ?_, hP⟩
  rw [Extraction.programOf, htokens]
  dsimp only
  rw [parseWithin, hstream, hss]

/-- A file is read as the statements of its sections. -/
theorem Holds.programOf {ts : List String} (h : Holds d ts P xs) :
    ∃ ss, Extraction.programOf d (Text.unlines ts).toList = .ok ss ∧
      List.Forall₂ (fun s x => P x s) ss xs := by
  obtain ⟨gs, hsection, hreads⟩ := h
  exact exists_programOf hsection.code hreads

end EventFlow.Emission
