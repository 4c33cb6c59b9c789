import EventFlow.Proofs.Model.WellFormed
import EventFlow.Report
import Mathlib.Data.List.Nodup

/-! A well-formed model has a clean report.

The names of a model over texts can always be collected, ordered and listed, so there is a report
on it.  If the model is well formed, the report lists no name twice, no reference without a
message, no system without an integration and no block that does not fit its slice. -/

namespace EventFlow

/-! ## Names that are texts -/

namespace Json

variable {xs : List Json}

theorem same_text (s t : String) : (Json.text s).same (.text t) = (s == t) := by
  simp [same]

theorem isIn_texts (xs : List String) (x : String) :
    isIn (xs.map .text) (.text x) = true ↔ x ∈ xs := by
  unfold isIn
  rw [List.any_eq_true]
  constructor
  · rintro ⟨v, hv, hs⟩
    obtain ⟨y, hy, rfl⟩ := List.mem_map.1 hv
    rw [same_text] at hs
    exact eq_of_beq hs ▸ hy
  · intro hx
    exact ⟨.text x, List.mem_map.2 ⟨x, hx, rfl⟩, by rw [same_text]; exact beq_self_eq_true x⟩

theorem countIn_texts (xs : List String) (x : String) :
    countIn (xs.map .text) (.text x) = xs.count x := by
  unfold countIn
  rw [List.countP_map, List.count]
  apply List.countP_congr
  intro y _
  simp only [Function.comp_apply, same_text]
  constructor <;> intro h <;> simpa using (eq_of_beq h).symm

theorem mem_of_mem_distinct (xs : List Json) (v : Json) (h : v ∈ distinct xs) : v ∈ xs := by
  have key : ∀ (ys known : List Json),
      v ∈ ys.foldl (fun known x => if isIn known x then known else known ++ [x]) known →
      v ∈ known ∨ v ∈ ys := by
    intro ys
    induction ys with
    | nil => intro known hv; exact Or.inl hv
    | cons y rest ih =>
      intro known hv
      rw [List.foldl_cons] at hv
      rcases ih _ hv with hv | hv
      · split at hv
        · exact Or.inl hv
        · rcases List.mem_append.1 hv with hv | hv
          · exact Or.inl hv
          · rw [List.mem_singleton.1 hv]
            exact Or.inr List.mem_cons_self
      · exact Or.inr (List.mem_cons_of_mem _ hv)
  rcases key xs [] h with h | h
  · cases h
  · exact h

theorem distinct_eq_nil : distinct xs = [] ↔ xs = [] := by
  -- what is known is never dropped
  have key : ∀ (ys known : List Json), known ≠ [] →
      ys.foldl (fun known x => if isIn known x then known else known ++ [x]) known ≠ [] := by
    intro ys
    induction ys with
    | nil => intro known h; exact h
    | cons y rest ih =>
      intro known h
      rw [List.foldl_cons]
      apply ih
      split
      · exact h
      · simp
  constructor
  · intro h
    cases xs with
    | nil => rfl
    | cons x rest => exact absurd h (key rest [x] (by simp))
  · rintro rfl
    rfl

/-- No name occurs more than once exactly in a list without repetitions. -/
theorem repeated_texts (xs : List String) : repeated (xs.map .text) = [] ↔ xs.Nodup := by
  rw [repeated, distinct_eq_nil, List.filter_eq_nil_iff, List.nodup_iff_count_le_one]
  constructor
  · intro h x
    by_cases hx : x ∈ xs
    · simpa [countIn_texts] using h (.text x) (List.mem_map.2 ⟨x, hx, rfl⟩)
    · rw [List.count_eq_zero_of_not_mem hx]
      exact Nat.zero_le 1
  · intro h v hv
    obtain ⟨x, hx, rfl⟩ := List.mem_map.1 hv
    simpa [countIn_texts] using h x

/-- Values that are all texts. -/
def AreTexts (xs : List Json) : Prop := ∀ v ∈ xs, ∃ s, v = .text s

theorem AreTexts.map {α : Type} (f : α → String) (xs : List α) :
    AreTexts (xs.map fun x => .text (f x)) := by
  intro v hv
  obtain ⟨x, -, rfl⟩ := List.mem_map.1 hv
  exact ⟨f x, rfl⟩

theorem AreTexts.distinct (h : AreTexts xs) : AreTexts (distinct xs) :=
  fun v hv => h v (mem_of_mem_distinct xs v hv)

theorem AreTexts.filter (h : AreTexts xs) (p : Json → Bool) : AreTexts (xs.filter p) :=
  fun v hv => h v ((List.mem_filter.1 hv).1)

theorem AreTexts.append {xs ys : List Json} (hx : AreTexts xs) (hy : AreTexts ys) :
    AreTexts (xs ++ ys) := by
  intro v hv
  rcases List.mem_append.1 hv with hv | hv
  · exact hx v hv
  · exact hy v hv

theorem AreTexts.all_isKey (h : AreTexts xs) : xs.all isKey = true := by
  rw [List.all_eq_true]
  intro v hv
  obtain ⟨s, rfl⟩ := h v hv
  rfl

theorem AreTexts.sortable (h : AreTexts xs) : sortable xs = true := by
  induction xs with
  | nil => rfl
  | cons x rest ih =>
    obtain ⟨s, rfl⟩ := h x List.mem_cons_self
    have hrest : AreTexts rest := fun v hv => h v (List.mem_cons_of_mem _ hv)
    rw [Json.sortable, ih hrest, Bool.and_true, List.all_eq_true]
    intro v hv
    obtain ⟨t, rfl⟩ := hrest v hv
    simp [comparable]

theorem AreTexts.texts? (h : AreTexts xs) : (texts? xs).isSome = true := by
  induction xs with
  | nil => rfl
  | cons x rest ih =>
    obtain ⟨s, rfl⟩ := h x List.mem_cons_self
    have hrest := ih fun v hv => h v (List.mem_cons_of_mem _ hv)
    obtain ⟨ts, hts⟩ := Option.isSome_iff_exists.1 hrest
    unfold Json.texts? at hts ⊢
    rw [List.mapM_cons, hts]
    rfl

end Json

/-! ## Reports -/

namespace Report

theorem without_texts (xs ys : List String) :
    without (xs.map .text) (ys.map .text) = [] ↔ ∀ x ∈ xs, x ∈ ys := by
  rw [without, Json.distinct_eq_nil, List.filter_eq_nil_iff]
  constructor
  · intro h x hx
    have := h (.text x) (List.mem_map.2 ⟨x, hx, rfl⟩)
    rwa [Bool.not_eq_true', Bool.not_eq_false, Json.isIn_texts] at this
  · intro h v hv
    obtain ⟨x, hx, rfl⟩ := List.mem_map.1 hv
    simpa using (Json.isIn_texts ys x).2 (h x hx)

theorem listed_eq_nil {names : List Json} : listed names = [] ↔ names = [] := by
  rw [listed, Text.ascending, ← List.length_eq_zero_iff, List.length_mergeSort, List.length_map,
    List.length_eq_zero_iff]

theorem areTexts_systems (m : Model) : Json.AreTexts (systems m) := by
  intro v hv
  obtain ⟨s, -, hv⟩ := List.mem_flatMap.1 hv
  obtain ⟨e, -, hv⟩ := List.mem_flatMap.1 hv
  obtain ⟨name, -, rfl⟩ := List.mem_map.1 hv
  exact ⟨name, rfl⟩

/-- There is a report on every model over texts. -/
theorem isReady_texts (m : Model) : isReady m = true := by
  have hmessages : Json.AreTexts (messageNames m) :=
    Json.AreTexts.map (fun n : Message => n.name) m.messages
  have hflows : Json.AreTexts (flowNames m) := Json.AreTexts.map (fun f : Flow => f.name) m.flows
  have hintegrations : Json.AreTexts (integrationNames m) :=
    Json.AreTexts.map (fun i : Integration => i.name) m.integrations
  have hrefs : Json.AreTexts (references m) :=
    Json.AreTexts.map (fun e : Example => e.ref) m.examples
  have hsystems := areTexts_systems m
  have hwithout : ∀ xs ys, Json.AreTexts xs → Json.AreTexts (without xs ys) :=
    fun xs ys h => (h.filter _).distinct
  have hlisted : Json.AreTexts (toList m) :=
    (((((hmessages.filter _).distinct.append (hflows.filter _).distinct).append
      (hwithout _ _ hrefs)).append (hwithout _ _ hmessages)).append
      (hwithout _ _ hintegrations)).append (hwithout _ _ hsystems)
  unfold isReady
  rw [((((hmessages.append hflows).append hrefs).append hintegrations).append hsystems).all_isKey,
    hrefs.distinct.sortable, hlisted.texts?]
  rfl

theorem message?_text (m : Model) (name : String) :
    m.message? name = m.messages.find? (·.name = name) := by
  unfold Model.message?
  congr 1
  funext n
  simp [Leaf.isMatch, Json.isMatch, Json.same_text, Json.isNaN, beq_eq_decide]

theorem integration?_text (m : Model) (name : String) :
    m.integration? name = m.integrations.find? (·.name = name) := by
  unfold Model.integration?
  congr 1
  funext i
  simp [Leaf.isMatch, Json.isMatch, Json.same_text, Json.isNaN, beq_eq_decide]

/-- With distinct names, the message that a name finds is the one that has it. -/
theorem kind_of_message? (m : Model) (hm : (m.messages.map (·.name)).Nodup) (ref : String)
    (kind : MessageKind) (h : m.HasMessage ref kind) (n : Message) (hn : m.message? ref = some n) :
    n.kind = kind := by
  obtain ⟨x, hx, hname, hkind⟩ := h
  rw [message?_text] at hn
  have hnm := List.mem_of_find?_eq_some hn
  have hnn : n.name = ref := by simpa using List.find?_some hn
  have : n = x := List.inj_on_of_nodup_map hm hnm hx (hnn.trans hname.symm)
  rw [this, hkind]

theorem misplaced?_eq_none {m : Model} {wanted : MessageKind} {es : List Example} :
    misplaced? m wanted es = none ↔
      ∀ e ∈ es, ∀ n, m.message? e.ref = some n → n.kind = wanted := by
  induction es with
  | nil => simp [misplaced?]
  | cons e rest ih =>
    rw [misplaced?, List.forall_mem_cons]
    cases hn : m.message? e.ref with
    | none => simpa using ih
    | some n => by_cases hkind : n.kind = wanted <;> simp [hkind, ih]

theorem shapeProblem?_eq_none (m : Model) (hm : (m.messages.map (·.name)).Nodup) (kind : SliceKind)
    (w : When) (h : w.Fits m.HasMessage kind) : shapeProblem? m kind w = none := by
  have fits : ∀ (wanted : MessageKind) (es : List Example),
      (∀ e ∈ es, m.HasMessage e.ref wanted) → misplaced? m wanted es = none :=
    fun wanted es hes => misplaced?_eq_none.2 fun e he =>
      kind_of_message? m hm e.ref wanted (hes e he)
  cases kind <;> cases w <;> try exact h.elim
  · next e =>
    have he : m.HasMessage e.ref .command := h
    have : misplaced? m .command [e] = none := fits .command [e] (by simpa using he)
    simp [shapeProblem?, this]
  · rfl
  · next es =>
    have : misplaced? m .event es = none := fits .event es h
    simp [shapeProblem?, this]

end Report

/-! ## What a report finds -/

namespace Model

variable {m : Model}

theorem report?_eq (m : Model) : m.report? = some m.report := by
  rw [report?, if_pos (Report.isReady_texts m)]

theorem report_duplicateMessages :
    m.report.duplicateMessages = [] ↔ (m.messages.map (·.name)).Nodup := by
  have := Json.repeated_texts (m.messages.map (·.name))
  rw [List.map_map] at this
  exact Report.listed_eq_nil.trans this

theorem report_duplicateFlows : m.report.duplicateFlows = [] ↔ (m.flows.map (·.name)).Nodup := by
  have := Json.repeated_texts (m.flows.map (·.name))
  rw [List.map_map] at this
  exact Report.listed_eq_nil.trans this

theorem report_undefinedReferences :
    m.report.undefinedReferences = [] ↔ ∀ e ∈ m.examples, ∃ k, m.HasMessage e.ref k := by
  have := Report.without_texts (m.examples.map (·.ref)) (m.messages.map (·.name))
  rw [List.map_map, List.map_map] at this
  refine (Report.listed_eq_nil.trans this).trans ?_
  simp [HasMessage]

theorem report_undefinedIntegrations :
    m.report.undefinedIntegrations = [] ↔
      ∀ s ∈ m.slices, ∀ e ∈ s.server.data, ∀ name ∈ e.systems, m.HasIntegration name := by
  have := Report.without_texts
    (m.slices.flatMap fun s => s.server.data.flatMap fun e => e.systems)
    (m.integrations.map (·.name))
  simp only [List.map_map, List.map_flatMap] at this
  refine (Report.listed_eq_nil.trans this).trans ?_
  simp only [List.mem_flatMap, List.mem_map, HasIntegration]
  constructor
  · intro h s hs e he name hname
    exact h name ⟨s, hs, e, he, hname⟩
  · rintro h name ⟨s, hs, e, he, hname⟩
    exact h s hs e he name hname

theorem report_shapeMismatches :
    m.report.shapeMismatches = [] ↔
      ∀ s ∈ m.slices, ∀ b ∈ s.server.specs, Report.shapeProblem? m s.kind b.when = none := by
  show Report.mismatchesIn m = [] ↔ _
  rw [Report.mismatchesIn, List.flatMap_eq_nil_iff, Prod.forall]
  simp only [List.filterMap_eq_nil_iff, Option.map_eq_none_iff, Report.located, slices,
    List.mem_flatMap, List.mem_map, Prod.mk.injEq]
  constructor
  · rintro h s ⟨f, hf, hs⟩
    exact h _ s ⟨f, hf, s, hs, rfl, rfl⟩
  · rintro h _ _ ⟨f, hf, s, hs, rfl, rfl⟩
    exact h s ⟨f, hf, hs⟩

/-- The report on a well-formed model finds nothing amiss. -/
theorem WellFormed.report (m : Model) (h : m.WellFormed) :
    ∃ r, m.report? = some r ∧ r.duplicateMessages = [] ∧ r.duplicateFlows = [] ∧
      r.undefinedReferences = [] ∧ r.undefinedIntegrations = [] ∧ r.shapeMismatches = [] := by
  have hslice : ∀ s ∈ m.slices, s.Fits m.HasMessage m.HasIntegration := by
    intro s hs
    obtain ⟨f, hf, hs⟩ := List.mem_flatMap.1 hs
    exact h.slices f hf s hs
  refine ⟨m.report, m.report?_eq, report_duplicateMessages.2 h.messageNames,
    report_duplicateFlows.2 h.flowNames, report_undefinedReferences.2 ?_,
    report_undefinedIntegrations.2 ?_, report_shapeMismatches.2 ?_⟩
  · intro e he
    obtain ⟨s, hs, he⟩ := List.mem_flatMap.1 he
    obtain ⟨b, hb, he⟩ := List.mem_flatMap.1 he
    exact ((hslice s hs).specs b hb).refs e he
  · intro s hs e he
    exact Entry.Linked.systems e ((hslice s hs).data e he)
  · intro s hs b hb
    exact Report.shapeProblem?_eq_none m h.messageNames s.kind b.when
      ((hslice s hs).specs b hb).trigger

end Model

end EventFlow
