import EventFlow.Project.Compile
import EventFlow.Proofs.Extraction.WellFormed
import EventFlow.Proofs.Project.Merge
import EventFlow.Store.Memory

/-! Every file of a compilation is accounted for.

    done ++ rest = the flow files, in order
    done         = compiled and failed files, each file in one of the two
    rest         = skipped files, which are left when as many have failed as may fail

`Accounted` is what a file keeps to when it is compiled after others (`Accounted.step`), and so
what a run over all files ends with (`Accounted.run`). -/

namespace EventFlow.Project

open Text

open Extraction (extract)

/-! ## The flow files of a store in memory -/

theorem mem_flowFiles (config : Config) (m : Memory) (root p : String) :
    p ∈ flowFiles config m root ↔ p ∈ m.files.map (·.1) ∧
      startsWith (Memory.directoryStart root) p.toList = true ∧
      endsWith config.flowFileSuffix p.toList = true := by
  simp only [flowFiles, Store.list, ascending, List.mem_filter, List.mem_mergeSort, and_assoc]

theorem sorted_flowFiles (config : Config) (m : Memory) (root : String) :
    (flowFiles config m root).Pairwise (· < ·) := by
  have hle : (flowFiles config m root).Pairwise (· ≤ ·) := (pairwise_ascending _).filter _
  have hne : (flowFiles config m root).Pairwise (· ≠ ·) :=
    (List.Pairwise.filter _
      ((List.mergeSort_perm _ _).nodup_iff.2 (m.distinct.filter _) : List.Nodup _))
  refine (hle.and hne).imp ?_
  rintro a b ⟨hab, hn⟩
  exact String.not_le.1 fun hba => hn (String.le_antisymm hab hba)

theorem nodup_flowFiles (config : Config) (m : Memory) (root : String) :
    (flowFiles config m root).Nodup := by
  refine (sorted_flowFiles config m root).imp ?_
  rintro a b hab rfl
  exact String.lt_irrefl a hab

/-- The flow files are known when they are listed in order. -/
theorem flowFiles_eq_of_perm (config : Config) (m : Memory) (root : String) (ps : List String)
    (hs : ps.Pairwise (· < ·))
    (hp : (((m.files.map (·.1)).filter fun p =>
      startsWith (Memory.directoryStart root) p.toList).filter fun p =>
      endsWith config.flowFileSuffix p.toList).Perm ps) :
    flowFiles config m root = ps := by
  refine List.Perm.eq_of_pairwise ?_ (sorted_flowFiles config m root) hs
    (((List.mergeSort_perm _ _).filter _).trans hp)
  intro a b _ _ hab hba
  exact absurd (String.lt_trans hab hba) (String.lt_irrefl a)

theorem text?_isSome (m : Memory) (p : String) (h : p ∈ m.files.map (·.1)) :
    ∃ text, m.text? p = some text := by
  unfold Memory.text?
  cases hl : m.files.lookup p with
  | some text => exact ⟨text, rfl⟩
  | none =>
    rw [List.lookup_eq_none_iff] at hl
    obtain ⟨file, hf, rfl⟩ := List.mem_map.1 h
    simpa using hl file hf

theorem read_of_text? {m : Memory} {p text : String} (h : m.text? p = some text) :
    Store.read m p = .ok text := by
  simp [Store.read, h]

/-! ## One file -/

def Outcome.failed (o : Outcome) : List String := o.failures.map (·.path)

/-- The model of a file, if there is one. -/
def modelAt? (config : Config) (m : Memory) (p : String) : Option Model :=
  (m.text? p).bind fun text => (extract config text).toOption

/-- A file fails if it describes no model, or one in conflict with the files before it. -/
def Fails (config : Config) (m : Memory) (earlier : List String) (p : String) : Prop :=
  ∃ text, m.text? p = some text ∧
    ((∃ c, extract config text = .error c ∧ c.fault.isFatal = false) ∨
      ∃ model, extract config text = .ok model ∧
        (Model.merged (earlier.filterMap (modelAt? config m))).Conflicts model)

/-- The failure that a file is recorded with. -/
inductive Recorded (config : Config) (o : Outcome) (p text : String) : Failure → Prop where
  | refused (c : Complaint Extraction.Reason) (h : extract config text = .error c)
      (hc : c.fault.isFatal = false) :
      Recorded config o p text ⟨p, .refused c.fault, c.line, c.slice⟩
  | conflict (model : Model) (h : extract config text = .ok model) (c : Conflict)
      (hc : o.merge.conflict? model = some c) :
      Recorded config o p text ⟨p, .conflict c, none, none⟩

theorem Recorded.path_eq {config : Config} {o : Outcome} {p text : String} {f : Failure}
    (h : Recorded config o p text f) : f.path = p := by
  cases h <;> rfl

/-- What a file can do to the outcome: its model is added, or a failure is. -/
theorem compileFile_cases {σ : Type} [Store σ] {config : Config} {store : σ} {o o' : Outcome}
    {p text : String} (hread : Store.read store p = .ok text)
    (h : compileFile config store o p = .ok o') :
    o'.skipped = o.skipped ∧
    ((∃ model, extract config text = .ok model ∧ o.merge.conflict? model = none ∧
        o'.merge = o.merge.add p model ∧ o'.compiled = o.compiled ++ [p] ∧
        o'.failures = o.failures) ∨
      ∃ f, Recorded config o p text f ∧ o'.merge = o.merge ∧ o'.compiled = o.compiled ∧
        o'.failures = o.failures ++ [f]) := by
  unfold compileFile at h
  rw [hread] at h
  dsimp only [compileText] at h
  cases hx : extract config text with
  | ok model =>
    simp only [hx, Except.ok.injEq] at h
    unfold Outcome.absorb at h
    cases hc : o.merge.conflict? model with
    | none =>
      simp only [Outcome.warn, hc] at h
      subst h
      exact ⟨rfl, .inl ⟨model, rfl, hc, rfl, rfl, rfl⟩⟩
    | some c =>
      simp only [Outcome.warn, hc] at h
      subst h
      exact ⟨rfl, .inr ⟨_, .conflict model hx c hc, rfl, rfl, rfl⟩⟩
  | error c =>
    simp only [hx] at h
    split at h
    · cases h
    · next hfatal =>
      cases h
      exact ⟨rfl, .inr ⟨_, .refused c hx (by simpa using hfatal), rfl, rfl, rfl⟩⟩

/-! ## Many files -/

/-- What is known of the outcome when the files of a list have been compiled. -/
structure Accounted (config : Config) (m : Memory) (files : List String) (o : Outcome) : Prop where
  holds : o.merge.Holds (o.compiled.filterMap (modelAt? config m))
  models : ∀ p ∈ o.compiled, (modelAt? config m p).isSome
  compiled : o.compiled = files.filter (· ∉ o.failed)
  failed : o.failed = files.filter (· ∈ o.failed)
  reasons : ∀ pre p post, files = pre ++ p :: post →
    (p ∈ o.failed ↔ Fails config m (pre.filter (· ∉ o.failed)) p)
  limit : ∀ pre p, files = pre ++ [p] → ∀ n, config.maxFailures = some n →
    (pre.filter (· ∈ o.failed)).length < n
  recorded : ∀ p ∈ files, ∀ text c, m.text? p = some text → extract config text = .error c →
    ⟨p, .refused c.fault, c.line, c.slice⟩ ∈ o.failures

namespace Accounted

variable {config : Config} {m : Memory} {files : List String} {o o' : Outcome}

theorem start (config : Config) (m : Memory) : Accounted config m [] {} :=
  ⟨rfl, by simp, rfl, rfl, by simp, by simp, by simp⟩

/-- The list of files may be cut before its last one, or anywhere before that. -/
theorem split_concat {α : Type} {xs pre post : List α} {x y : α}
    (h : xs ++ [x] = pre ++ y :: post) :
    (xs = pre ∧ x = y ∧ post = []) ∨ ∃ post', xs = pre ++ y :: post' ∧ post = post' ++ [x] := by
  rcases List.eq_nil_or_concat post with rfl | ⟨post', z, rfl⟩
  · left
    have := List.append_inj' h rfl
    exact ⟨this.1, by simpa using this.2, rfl⟩
  · right
    rw [List.concat_eq_append, ← List.cons_append, ← List.append_assoc] at h
    have := List.append_inj' h rfl
    refine ⟨post', this.1, ?_⟩
    rw [List.concat_eq_append, this.2]

theorem length_failures (h : Accounted config m files o) :
    o.failures.length = (files.filter (· ∈ o.failed)).length := by
  rw [← h.failed, Outcome.failed, List.length_map]

/-- No more files have failed than may fail. -/
theorem length_failures_le (h : Accounted config m files o) (n : Nat)
    (hn : config.maxFailures = some n) : o.failures.length ≤ n := by
  rw [h.length_failures]
  rcases List.eq_nil_or_concat files with rfl | ⟨pre, p, rfl⟩
  · simp
  · have hpre := h.limit pre p (List.concat_eq_append) n hn
    rw [List.concat_eq_append, List.filter_append, List.length_append]
    have := List.length_filter_le (fun q => decide (q ∈ o.failed)) [p]
    simp only [List.length_singleton] at this
    omega

theorem not_mem_failed (h : Accounted config m files o) (p : String) (hp : p ∉ files) :
    p ∉ o.failed := by
  rw [h.failed]
  intro hf
  exact hp (List.mem_filter.1 hf).1

/-- One more file: what is recorded of the others does not change, and the file fails exactly if
it has a reason to. -/
theorem extend (h : Accounted config m files o) (p : String) (hp : p ∉ files)
    (hl : limitReached config o = false)
    (hholds : o'.merge.Holds (o'.compiled.filterMap (modelAt? config m)))
    (hmodels : ∀ q ∈ o'.compiled, (modelAt? config m q).isSome)
    (hkeep : o.failures ⊆ o'.failures)
    (hrecorded : ∀ text c, m.text? p = some text → extract config text = .error c →
      ⟨p, .refused c.fault, c.line, c.slice⟩ ∈ o'.failures)
    (hcases : (o'.compiled = o.compiled ++ [p] ∧ o'.failed = o.failed ∧
        ¬ Fails config m o.compiled p) ∨
      (o'.compiled = o.compiled ∧ o'.failed = o.failed ++ [p] ∧ Fails config m o.compiled p)) :
    Accounted config m (files ++ [p]) o' := by
  have hpf : p ∉ o.failed := h.not_mem_failed p hp
  have hsame : ∀ q ∈ files, (q ∈ o'.failed ↔ q ∈ o.failed) := by
    intro q hq
    have hqp : q ≠ p := fun e => hp (e ▸ hq)
    rcases hcases with ⟨-, hf, -⟩ | ⟨-, hf, -⟩ <;> simp [hf, hqp]
  have hin : ∀ pre ⊆ files, pre.filter (· ∈ o'.failed) = pre.filter (· ∈ o.failed) := by
    intro pre hpre
    exact List.filter_congr fun q hq => by rw [decide_eq_decide]; exact hsame q (hpre hq)
  have hout : ∀ pre ⊆ files, pre.filter (· ∉ o'.failed) = pre.filter (· ∉ o.failed) := by
    intro pre hpre
    exact List.filter_congr fun q hq => by rw [decide_eq_decide, hsame q (hpre hq)]
  refine ⟨hholds, hmodels, ?_, ?_, ?_, ?_, ?_⟩
  · rw [List.filter_append, hout files (List.Subset.refl _), ← h.compiled]
    rcases hcases with ⟨hc, hf, -⟩ | ⟨hc, hf, -⟩ <;> simp [hc, hf, hpf]
  · rw [List.filter_append, hin files (List.Subset.refl _), ← h.failed]
    rcases hcases with ⟨-, hf, -⟩ | ⟨-, hf, -⟩ <;> simp [hf, hpf]
  · intro pre q post hsplit
    rcases split_concat hsplit with ⟨rfl, rfl, -⟩ | ⟨post', rfl, -⟩
    · rw [hout files (List.Subset.refl _), ← h.compiled]
      rcases hcases with ⟨-, hf, hn⟩ | ⟨-, hf, hy⟩
      · simp [hf, hpf, hn]
      · simp [hf, hy]
    · rw [hsame q (by simp), hout pre (by simp)]
      exact h.reasons pre q post' rfl
  · intro pre q hsplit n hn
    obtain ⟨rfl, -⟩ := List.append_inj' hsplit rfl
    rw [hin files (List.Subset.refl _), ← h.length_failures]
    simp only [limitReached, hn, decide_eq_false_iff_not] at hl
    omega
  · intro q hq text c ht hx
    rcases List.mem_append.1 hq with hq | hq
    · exact hkeep (h.recorded q hq text c ht hx)
    · obtain rfl := List.mem_singleton.1 hq
      exact hrecorded text c ht hx

/-- What a step keeps to. -/
theorem step (h : Accounted config m files o) (p text : String) (hp : p ∉ files)
    (ht : m.text? p = some text) (hl : limitReached config o = false)
    (hs : compileFile config m o p = .ok o') : Accounted config m (files ++ [p]) o' := by
  obtain ⟨-, ⟨model, hx, hnone, hm, hc, hf⟩ | ⟨f, hr, hm, hc, hf⟩⟩ :=
    compileFile_cases (read_of_text? ht) hs
  · have hmodel : modelAt? config m p = some model := by simp [modelAt?, ht, hx, Except.toOption]
    have hw := Extraction.extract_model_wellFormed config text model hx
    refine h.extend p hp hl ?_ ?_ (by rw [hf]; exact List.Subset.refl _) ?_
      (.inl ⟨hc, congrArg (List.map Failure.path) hf, ?_⟩)
    · rw [hm, hc, List.filterMap_append]
      have := h.holds.add p model hw.messageNames hw.integrationNames
      simpa [hmodel] using this
    · intro q hq
      rw [hc, List.mem_append] at hq
      rcases hq with hq | hq
      · exact h.models q hq
      · rw [List.mem_singleton.1 hq, hmodel]
        rfl
    · intro text' c ht' hx'
      rw [ht, Option.some.injEq] at ht'
      rw [← ht', hx] at hx'
      cases hx'
    · rintro ⟨text', ht', ⟨c, hc', -⟩ | ⟨model', hx', hconf⟩⟩
      · rw [ht, Option.some.injEq] at ht'
        rw [← ht', hx] at hc'
        cases hc'
      · rw [ht, Option.some.injEq] at ht'
        rw [← ht', hx, Except.ok.injEq] at hx'
        rw [← hx', ← h.holds.conflict?_ne_none] at hconf
        exact hconf hnone
  · refine h.extend p hp hl (by rw [hm, hc]; exact h.holds) (by rw [hc]; exact h.models)
      (by rw [hf]; exact List.subset_append_left _ _) ?_ (.inr ⟨hc, ?_, ?_⟩)
    · intro text' c ht' hx'
      rw [ht, Option.some.injEq] at ht'
      rw [← ht'] at hx'
      rw [hf, List.mem_append, List.mem_singleton]
      right
      cases hr with
      | refused c' hx _ =>
        rw [hx, Except.error.injEq] at hx'
        rw [hx']
      | conflict model hx _ _ =>
        rw [hx] at hx'
        cases hx'
    · rw [Outcome.failed, hf, List.map_append, List.map_singleton, hr.path_eq]
      rfl
    · cases hr with
      | refused c hx hfatal => exact ⟨text, ht, .inl ⟨c, hx, hfatal⟩⟩
      | conflict model hx c hconf =>
        refine ⟨text, ht, .inr ⟨model, hx, ?_⟩⟩
        rw [← h.holds.conflict?_ne_none, hconf]
        simp

theorem stop (h : Accounted config m files o) (rest : List String) :
    Accounted config m files (o.stop rest) :=
  ⟨h.holds, h.models, h.compiled, h.failed, h.reasons, h.limit, h.recorded⟩

/-- A run that stops has recorded as many failures as it may. -/
theorem maxFailures_eq (h : Accounted config m files o) (hl : limitReached config o = true) :
    config.maxFailures = some o.failures.length := by
  cases hn : config.maxFailures with
  | none => simp [limitReached, hn] at hl
  | some n =>
    simp only [limitReached, hn, decide_eq_true_eq] at hl
    have := h.length_failures_le n hn
    rw [show n = o.failures.length by omega]

/-- What a run keeps to: it goes through some of the files, and leaves out the others only when
too many have failed. -/
theorem run (rest : List String) (h : Accounted config m files o) (hs : o.skipped = [])
    (hnodup : (files ++ rest).Nodup) (htexts : ∀ p ∈ rest, ∃ text, m.text? p = some text)
    (hr : compileFiles config m o rest = .ok o') :
    ∃ k ≤ rest.length, Accounted config m (files ++ rest.take k) o' ∧ o'.skipped = rest.drop k ∧
      (k < rest.length → config.maxFailures = some o'.failures.length) := by
  induction rest generalizing files o with
  | nil =>
    unfold compileFiles at hr
    cases hr
    exact ⟨0, by simp, by simpa using h, by simpa using hs, by simp⟩
  | cons p rest ih =>
    unfold compileFiles at hr
    split at hr
    · next hl =>
      cases hr
      exact ⟨0, by simp, by simpa using h.stop (p :: rest), rfl, fun _ => h.maxFailures_eq hl⟩
    · next hl =>
      obtain ⟨o₁, hfile, hr⟩ := bind_eq_ok.1 hr
      obtain ⟨text, ht⟩ := htexts p (by simp)
      have hp : p ∉ files := by
        intro hp
        exact (List.nodup_append.1 hnodup).2.2 p hp p (by simp) rfl
      have h₁ := h.step p text hp ht (by simpa using hl) hfile
      have hs₁ : o₁.skipped = [] := (compileFile_cases (read_of_text? ht) hfile).1.trans hs
      have hnodup₁ : ((files ++ [p]) ++ rest).Nodup := by simpa using hnodup
      obtain ⟨k, hk, hacc, hskip, hmax⟩ := ih h₁ hs₁ hnodup₁
        (fun q hq => htexts q (List.mem_cons_of_mem p hq)) hr
      refine ⟨k + 1, by simpa using hk, by simpa using hacc, by simpa using hskip, ?_⟩
      intro hlt
      exact hmax (by simpa using hlt)

end Accounted

/-! ## The outcome of a compilation -/

theorem map_eq_map_some {α γ : Type} {f : α → Option γ} {xs : List α}
    (h : ∀ x ∈ xs, (f x).isSome) : xs.map f = (xs.filterMap f).map some := by
  induction xs with
  | nil => rfl
  | cons x xs ih =>
    obtain ⟨y, hy⟩ := Option.isSome_iff_exists.1 (h x (by simp))
    rw [List.map_cons, List.filterMap_cons_some hy, List.map_cons, hy,
      ih fun z hz => h z (List.mem_cons_of_mem x hz)]

theorem compile_accounted (config : Config) (m : Memory) (root : String) (o : Outcome)
    (h : compile config m root = .ok o) :
    ∃ k ≤ (flowFiles config m root).length,
      Accounted config m ((flowFiles config m root).take k) o ∧
      o.skipped = (flowFiles config m root).drop k ∧
      (k < (flowFiles config m root).length → config.maxFailures = some o.failures.length) := by
  have hrun := Accounted.run (flowFiles config m root) (Accounted.start config m) rfl
    (by simpa using nodup_flowFiles config m root)
    (fun p hp => text?_isSome m p ((mem_flowFiles config m root p).1 hp).1) h
  simpa using hrun

/-- **The outcome of a compilation.**  The flow files `ps` below the root are taken in order, the
first `k` of them and no others.  Each of these is compiled, or fails for one of two reasons: it
describes no model, or one in conflict with the merge of those compiled before it.  The model is
the merge of the compiled files: all their flows, and the first definition of each name. -/
theorem compile_accounts (config : Config) (m : Memory) (root : String) (o : Outcome)
    (h : compile config m root = .ok o) :
    ∃ (ps : List String) (k : Nat), ps.Pairwise (· < ·) ∧
      (∀ p, p ∈ ps ↔ p ∈ m.files.map (·.1) ∧
        startsWith (Memory.directoryStart root) p.toList = true ∧
        endsWith config.flowFileSuffix p.toList = true) ∧
      k ≤ ps.length ∧ o.skipped = ps.drop k ∧
      o.compiled = (ps.take k).filter (· ∉ o.failed) ∧
      o.failed = (ps.take k).filter (· ∈ o.failed) ∧
      (∀ n, config.maxFailures = some n → 0 < k →
        ((ps.take (k - 1)).filter (· ∈ o.failed)).length < n) ∧
      (k < ps.length → config.maxFailures = some o.failures.length) ∧
      (∀ i p, ps[i]? = some p → i < k →
        (p ∈ o.failed ↔ Fails config m ((ps.take i).filter (· ∉ o.failed)) p)) ∧
      ∃ models : List Model, o.compiled.map (modelAt? config m) = models.map some ∧
        o.model = Model.merged models ∧ o.model.flows = models.flatMap (·.flows) ∧
        (o.model.messages.map (·.name)).Nodup ∧
        (∀ name, o.model.messages.find? (·.name = name) =
          (models.flatMap (·.messages)).find? (·.name = name)) ∧
        (o.model.integrations.map (·.name)).Nodup ∧
        ∀ name, o.model.integrations.find? (·.name = name) =
          (models.flatMap (·.integrations)).find? (·.name = name) := by
  obtain ⟨k, hk, hacc, hskip, hmax⟩ := compile_accounted config m root o h
  have hmodel : o.model = Model.merged (o.compiled.filterMap (modelAt? config m)) := hacc.holds
  refine ⟨flowFiles config m root, k, sorted_flowFiles config m root, mem_flowFiles config m root,
    hk, hskip, hacc.compiled, hacc.failed, ?_, hmax, ?_,
    o.compiled.filterMap (modelAt? config m), map_eq_map_some hacc.models, hmodel, ?_⟩
  · intro n hn hpos
    have hlast : k - 1 < (flowFiles config m root).length := by omega
    refine hacc.limit _ (flowFiles config m root)[k - 1] ?_ n hn
    rw [← List.take_succ_eq_append_getElem hlast, Nat.sub_add_cancel hpos]
  · intro i p hp hik
    obtain ⟨hi, rfl⟩ := List.getElem?_eq_some_iff.1 hp
    refine hacc.reasons _ _ (((flowFiles config m root).take k).drop (i + 1)) ?_
    have hi' : i < ((flowFiles config m root).take k).length := by
      rw [List.length_take]
      omega
    have hsplit := List.take_append_drop i ((flowFiles config m root).take k)
    rw [List.drop_eq_getElem_cons hi', List.getElem_take, List.take_take,
      Nat.min_eq_left (Nat.le_of_lt hik)] at hsplit
    exact hsplit.symm
  · rw [hmodel]
    exact ⟨rfl, nodup_firstOf _ _, fun name => find?_firstOf _ name _, nodup_firstOf _ _,
      fun name => find?_firstOf _ name _⟩

/-- Two files define one flow, and a third is left out when only one failure is allowed. -/
def twiceDefined : Memory where
  files := [("c.flow.ts", "flow('G',()=>{});"), ("b.flow.ts", "flow('F',()=>{});"),
    ("a.flow.ts", "flow('F',()=>{});")]

theorem compile_accounts_twiceDefined :
    ∃ o, compile { maxFailures := some 1 } twiceDefined "" = .ok o ∧
      o.compiled = ["a.flow.ts"] ∧ o.failed = ["b.flow.ts"] ∧ o.skipped = ["c.flow.ts"] ∧
      ∃ models, o.compiled.map (modelAt? { maxFailures := some 1 } twiceDefined) =
        models.map some ∧ o.model = Model.merged models := by
  have hfiles : flowFiles { maxFailures := some 1 } twiceDefined "" =
      ["a.flow.ts", "b.flow.ts", "c.flow.ts"] :=
    flowFiles_eq_of_perm _ _ _ _ (by decide) (by decide)
  have h : (compile { maxFailures := some 1 } twiceDefined "").toOption.map
      (fun o => (o.compiled, o.failed, o.skipped)) =
      some (["a.flow.ts"], ["b.flow.ts"], ["c.flow.ts"]) := by
    rw [compile, hfiles]
    decide +kernel
  obtain ⟨o, ho, hlists⟩ := Option.map_eq_some_iff.1 h
  simp only [Prod.mk.injEq] at hlists
  have hok := toOption_eq_some ho
  obtain ⟨_, _, _, _, _, _, _, _, _, _, _, models, hm, hmerged, _⟩ :=
    compile_accounts _ twiceDefined "" o hok
  exact ⟨o, hok, hlists.1, hlists.2.1, hlists.2.2, models, hm, hmerged⟩

end EventFlow.Project
