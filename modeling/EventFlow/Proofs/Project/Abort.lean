import EventFlow.Proofs.Project.Accounting

/-! When a compilation ends without an outcome.

A file that describes no model is a failure like any other, unless its fault is fatal:

    compile = error a  ↔  a fatal fault in a file that is reached

A file is reached if those before it have been compiled with fewer failures than may be recorded.
All other refusals are recorded under the path of the file, and the files after it are taken. -/

namespace EventFlow.Project

open Extraction (extract)

variable {config : Config} {m : Memory}

/-- The compilation of the files comes to `p`, whose text has a fatal fault. -/
def EndsAt (config : Config) (m : Memory) (files : List String) (p : String)
    (c : Complaint Extraction.Reason) : Prop :=
  ∃ pre post o text, files = pre ++ p :: post ∧ compileFiles config m {} pre = .ok o ∧
    limitReached config o = false ∧ m.text? p = some text ∧ extract config text = .error c ∧
    c.fault.isFatal = true

theorem compileFile_eq_error (o : Outcome) (p text : String) (ht : m.text? p = some text)
    (a : Abort) :
    compileFile config m o p = .error a ↔
      ∃ c, extract config text = .error c ∧ c.fault.isFatal = true ∧ a = .source p c := by
  unfold compileFile
  rw [read_of_text? ht]
  dsimp only [compileText]
  cases hx : extract config text with
  | ok model => simp
  | error c =>
    by_cases hc : c.fault.isFatal = true
    · simp only [hc, if_true, Except.error.injEq]
      constructor
      · rintro rfl
        exact ⟨c, rfl, hc, rfl⟩
      · rintro ⟨c', rfl, -, rfl⟩
        rfl
    · simp only [hc, Bool.false_eq_true, if_false, Except.error.injEq, reduceCtorEq, false_iff]
      rintro ⟨c', rfl, hc', -⟩
      exact hc hc'

/-- A run fails at the first file that fails to be compiled at all. -/
theorem compileFiles_eq_error (rest : List String) (o : Outcome) (a : Abort) :
    compileFiles config m o rest = .error a ↔
      ∃ pre p post o', rest = pre ++ p :: post ∧ compileFiles config m o pre = .ok o' ∧
        limitReached config o' = false ∧ compileFile config m o' p = .error a := by
  induction rest generalizing o with
  | nil => simp [compileFiles]
  | cons q rest ih =>
    rw [compileFiles]
    by_cases hl : limitReached config o = true
    · simp only [hl, if_true, reduceCtorEq, false_iff]
      rintro ⟨pre, p, post, o', hsplit, hpre, hl', -⟩
      -- the limit is still reached after the files before `p`, none of which is compiled
      have hstop : limitReached config o' = true := by
        cases pre with
        | nil => cases hpre; exact hl
        | cons q' pre =>
          rw [compileFiles, if_pos hl] at hpre
          cases hpre
          exact hl
      rw [hstop] at hl'
      cases hl'
    · simp only [hl, Bool.false_eq_true, if_false]
      constructor
      · intro h
        cases hq : compileFile config m o q with
        | error b =>
          rw [hq] at h
          cases h
          exact ⟨[], q, rest, o, rfl, rfl, by simpa using hl, hq⟩
        | ok o₁ =>
          rw [hq] at h
          obtain ⟨pre, p, post, o', rfl, hpre, hl', hp⟩ := (ih o₁).1 h
          refine ⟨q :: pre, p, post, o', rfl, ?_, hl', hp⟩
          rw [compileFiles, if_neg hl, hq]
          exact hpre
      · rintro ⟨pre, p, post, o', hsplit, hpre, hl', hp⟩
        cases pre with
        | nil =>
          cases hpre
          cases hsplit
          rw [hp]
          rfl
        | cons q' pre =>
          cases hsplit
          rw [compileFiles, if_neg hl, bind_eq_ok] at hpre
          obtain ⟨o₁, hq, hpre⟩ := hpre
          rw [hq]
          exact (ih o₁).2 ⟨pre, p, post, o', rfl, hpre, hl', hp⟩

theorem compile_eq_error (root : String) (a : Abort) :
    compile config m root = .error a ↔
      ∃ p c, EndsAt config m (flowFiles config m root) p c ∧ a = .source p c := by
  rw [compile, compileFiles_eq_error]
  constructor
  · rintro ⟨pre, p, post, o, hsplit, hpre, hl, hp⟩
    obtain ⟨text, ht⟩ : ∃ text, m.text? p = some text :=
      text?_isSome m p ((mem_flowFiles config m root p).1 (by rw [hsplit]; simp)).1
    obtain ⟨c, hx, hc, rfl⟩ := (compileFile_eq_error o p text ht a).1 hp
    exact ⟨p, c, ⟨pre, post, o, text, hsplit, hpre, hl, ht, hx, hc⟩, rfl⟩
  · rintro ⟨p, c, ⟨pre, post, o, text, hsplit, hpre, hl, ht, hx, hc⟩, rfl⟩
    exact ⟨pre, p, post, o, hsplit, hpre, hl,
      (compileFile_eq_error o p text ht _).2 ⟨c, hx, hc, rfl⟩⟩

/-- **A compilation has an outcome unless it comes to a fatal fault.**  If it has one, every file
is compiled, recorded as a failure or skipped, files are skipped only when the limit is reached,
and a file that describes no model is recorded with the place and the reason of its refusal. -/
theorem compile_returns_iff (config : Config) (m : Memory) (root : String) :
    ((∃ o, compile config m root = .ok o) ↔
      ¬ ∃ p c, EndsAt config m (flowFiles config m root) p c) ∧
    ∀ o, compile config m root = .ok o →
      (∀ p ∈ flowFiles config m root, p ∈ o.compiled ∨ p ∈ o.failed ∨ p ∈ o.skipped) ∧
      (o.skipped ≠ [] → config.maxFailures = some o.failures.length) ∧
      ∀ p ∈ flowFiles config m root, p ∉ o.skipped → ∀ text c, m.text? p = some text →
        extract config text = .error c →
        ⟨p, .refused c.fault, c.line, c.slice⟩ ∈ o.failures := by
  constructor
  · constructor
    · rintro ⟨o, ho⟩ ⟨p, c, hends⟩
      rw [(compile_eq_error root _).2 ⟨p, c, hends, rfl⟩] at ho
      cases ho
    · intro hnone
      cases h : compile config m root with
      | ok o => exact ⟨o, rfl⟩
      | error a =>
        obtain ⟨p, c, hends, -⟩ := (compile_eq_error root a).1 h
        exact absurd ⟨p, c, hends⟩ hnone
  · intro o ho
    obtain ⟨k, hk, hacc, hskip, hmax⟩ := compile_accounted config m root o ho
    have hwhere : ∀ p ∈ flowFiles config m root,
        p ∈ (flowFiles config m root).take k ∨ p ∈ o.skipped := by
      intro p hp
      rw [← List.take_append_drop k (flowFiles config m root), List.mem_append] at hp
      rwa [hskip]
    refine ⟨?_, ?_, ?_⟩
    · intro p hp
      rcases hwhere p hp with hp | hp
      · by_cases hf : p ∈ o.failed
        · exact .inr (.inl hf)
        · left
          rw [hacc.compiled]
          exact List.mem_filter.2 ⟨hp, by simpa using hf⟩
      · exact .inr (.inr hp)
    · intro hne
      apply hmax
      rw [hskip] at hne
      exact Nat.lt_of_not_le fun hle => hne (List.drop_eq_nil_of_le hle)
    · intro p hp hns text c ht hx
      exact hacc.recorded p ((hwhere p hp).resolve_right hns) text c ht hx

/-- A digit that is no decimal digit, and a file after it that nothing is wrong with. -/
def strayDigit : Memory where
  files := [("a.flow.ts", "²"), ("b.flow.ts", "flow('F',()=>{});")]

/-- One bad file can leave a compilation without an outcome. -/
theorem compile_strayDigit : ¬ ∃ o, compile {} strayDigit "" = .ok o := by
  have hfiles : flowFiles {} strayDigit "" = ["a.flow.ts", "b.flow.ts"] :=
    flowFiles_eq_of_perm _ _ _ _ (by decide) (by decide)
  have h : (compile {} strayDigit "").toOption = none := by
    rw [compile, hfiles]
    decide +kernel
  rintro ⟨o, ho⟩
  rw [ho] at h
  cases h

end EventFlow.Project
