import EventFlow.Emission.Source
import EventFlow.Proofs.Emission.Builders
import EventFlow.Proofs.Emission.Declarations

/-! A file is read as the model that its sections give.

The sections of a file are the lines before the messages, the messages, and the lines after them.
The search for declarations finds just the messages, and what is left is read as a program:

    extract config (unlines (before ++ messageBlocks ms ++ after)) = ok ⟨fs, ms, is⟩

if the lines before the messages give the integrations `is` and those after them the flows `fs`. -/

namespace EventFlow.Emission

open Declaration Declaration.LineState Extraction Text Token

variable {config : Config} {names : List String} {declared : Declared}

/-! ## Lines of a file -/

theorem flat_of_inline {t : String} {ls : List Lexeme} (h : Inline t ls) (htidy : isTidy t = true) :
    '\n' ∉ t.toList ∧ HasPlainBreaks t.toList :=
  ⟨h.flat, fun hmem => h.flat (hmem.subset (by simp)), getLast?_ne_of_isTidy htidy⟩

theorem flat_messageCode {d : Nat} {m : Message} (h : m.Proper d) {t : String}
    (ht : t ∈ messageCode m) : '\n' ∉ t.toList ∧ HasPlainBreaks t.toList := by
  have hhead := inline_messageHead h.name
  unfold messageCode at ht
  split at ht
  · obtain rfl := List.mem_singleton.1 ht
    exact flat_of_inline (hhead.append inline_footer (Or.inr (by decide)))
      (isTidy_append (by decide))
  · rcases List.mem_cons.1 ht with rfl | ht
    · exact flat_of_inline hhead (isTidy_append (by decide))
    rcases List.mem_append.1 ht with ht | ht
    · obtain ⟨f, hf, ht⟩ := List.mem_flatMap.1 ht
      rcases List.mem_append.1 ht with ht | ht
      · exact (isFaithful_field (h.fields f hf)).sayable.flat (by decide) ht
      · obtain rfl := List.mem_singleton.1 ht
        obtain ⟨ls, hinline, -⟩ := inline_fieldLine (h.fields f hf)
        exact flat_of_inline hinline (isTidy_append (by decide))
    · obtain rfl := List.mem_singleton.1 ht
      exact flat_of_inline inline_footer (by decide)

/-- Each line of the messages is one line of the file. -/
theorem flat_messageBlocks {d : Nat} {ms : List Message} (h : ∀ m ∈ ms, m.Proper d) {t : String}
    (ht : t ∈ messageBlocks ms) : '\n' ∉ t.toList ∧ HasPlainBreaks t.toList := by
  obtain ⟨m, hm, ht⟩ := List.mem_flatMap.1 ht
  rcases List.mem_cons.1 ht with rfl | ht
  · exact ⟨by decide, by decide, by decide⟩
  rcases List.mem_append.1 ht with ht | ht
  · exact (isFaithful_message (h m hm)).sayable.flat (by decide) ht
  · exact flat_messageCode (h m hm) ht

theorem linesOf_unlines {ts : List String} (hne : ts ≠ [])
    (htidy : ∀ t ∈ ts, HasPlainBreaks t.toList) :
    linesOf (unlines ts) = ts.flatMap lines := by
  have hplain : ¬ ("\r\n" : String).toList <:+: (unlines ts).toList :=
    (hasPlainBreaks_unlines htidy).1
  rw [linesOf, replaceAll_of_not_infix _ hplain, cut_unlines hne, List.map_flatMap]
  rfl

theorem unlines_flatMap_lines (ts : List String) :
    unlines (ts.flatMap lines) = unlines ts := by
  by_cases hne : ts = []
  · rw [hne]
    rfl
  · have hcut := unlines_cut (unlines ts).toList
    rwa [cut_unlines hne, List.map_flatMap, String.ofList_toList] at hcut

/-! ## Sections of a file -/

/-- Sections, each after an empty line, up to the end of the file. -/
def lateLines (sections : List (List String)) : List String := sections.flatMap ("" :: ·) ++ [""]

/-- The lines of a file with the given sections; a file without sections is a line break. -/
def fileLines : List (List String) → List String
  | [] => ["", ""]
  | first :: rest => first ++ lateLines rest

theorem lateLines_cons (first : List String) (rest : List (List String)) :
    lateLines (first :: rest) = "" :: fileLines (first :: rest) := by
  simp [lateLines, fileLines]

theorem joinWith_sections {first : List String} {rest : List (List String)}
    (hfirst : first ≠ []) (hrest : ∀ ts ∈ rest, ts ≠ []) :
    joinWith "\n\n" ((first :: rest).map unlines) ++ "\n" =
      unlines (first ++ lateLines rest) := by
  induction rest generalizing first with
  | nil =>
    rw [unlines, joinWith_append hfirst (by simp [lateLines])]
    simp [lateLines, joinWith, unlines]
  | cons next rest ih =>
    have hmore := ih (hrest next List.mem_cons_self) fun ts hts =>
      hrest ts (List.mem_cons_of_mem _ hts)
    have hbreak : ("\n\n" : String) = "\n" ++ "\n" := rfl
    have hlate : next ++ lateLines rest ≠ [] := by simp [lateLines]
    have hlines : unlines (first ++ "" :: (next ++ lateLines rest)) =
        unlines first ++ "\n" ++ ("\n" ++ unlines (next ++ lateLines rest)) := by
      simp only [unlines]
      rw [joinWith_append hfirst (by simp), joinWith_cons hlate, String.empty_append]
    rw [List.map_cons, List.map_cons, joinWith_cons_cons, ← List.map_cons, String.append_assoc,
      hmore, lateLines_cons, fileLines, hlines, hbreak]
    simp only [String.append_assoc]

/-- Sections are joined line by line. -/
theorem joinSections_eq (sections : List (List String)) :
    joinSections sections =
      unlines (fileLines (sections.filter fun s => !s.isEmpty)) := by
  have hne : ∀ ts ∈ sections.filter (fun s => !s.isEmpty), ts ≠ [] := by
    intro ts hts
    simpa using (List.mem_filter.1 hts).2
  unfold joinSections
  cases hs : sections.filter fun s => !s.isEmpty with
  | nil => rfl
  | cons first rest =>
    rw [hs] at hne
    exact joinWith_sections (hne first List.mem_cons_self) fun ts hts =>
      hne ts (List.mem_cons_of_mem _ hts)

theorem gives_lateLines {sections : List (List String)} {fss : List (List Flow)}
    (h : List.Forall₂ (fun ts fs => Gives config names declared ts [] fs) sections fss) :
    Gives config names declared (lateLines sections) [] fss.flatten := by
  have hlate : Gives config names declared (sections.flatMap ("" :: ·)) [] fss.flatten := by
    induction h with
    | nil => exact Gives.nil
    | cons hts _ ih => exact ((Gives.blanks 1).append hts).append ih
  simpa [lateLines] using hlate.append (Gives.blanks 1)

theorem gives_fileLines {sections : List (List String)} {fss : List (List Flow)}
    (h : List.Forall₂ (fun ts fs => Gives config names declared ts [] fs) sections fss) :
    Gives config names declared (fileLines sections) [] fss.flatten := by
  cases h with
  | nil => exact Gives.blanks 2
  | cons hts hrest => exact hts.append (gives_lateLines hrest)

/-- The builders and the flows of a file, as far as there are any. -/
def lateSections (builders : List String) (flows : List (List String)) : List (List String) :=
  [builders].filter (fun s => !s.isEmpty) ++ flows

theorem filter_sections (imports builders : List String) {types flows : List (List String)}
    (htypes : ∀ ts ∈ types, ts ≠ []) (hflows : ∀ ts ∈ flows, ts ≠ []) :
    ([imports] ++ types ++ [builders] ++ flows).filter (fun s => !s.isEmpty) =
      [imports].filter (fun s => !s.isEmpty) ++ types ++ lateSections builders flows := by
  have hkept : ∀ sections : List (List String), (∀ ts ∈ sections, ts ≠ []) →
      sections.filter (fun s => !s.isEmpty) = sections := by
    intro sections hne
    rw [List.filter_eq_self]
    intro ts hts
    simpa using hne ts hts
  rw [List.filter_append, List.filter_append, List.filter_append, hkept types htypes,
    hkept flows hflows, lateSections, List.append_assoc]

theorem exists_lateFlows {builders : List String} {flows : List (List String)} {xs : List Flow}
    (hbuilders : Gives config names declared builders [] [])
    (hflows : List.Forall₂ (fun ts x => Gives config names declared ts [] [x]) flows xs) :
    ∃ fss, fss.flatten = xs ∧ List.Forall₂ (fun ts fs => Gives config names declared ts [] fs)
      (lateSections builders flows) fss := by
  have hone : List.Forall₂ (fun ts fs => Gives config names declared ts [] fs) flows
      (xs.map fun x => [x]) := List.forall₂_map_right_iff.2 hflows
  have hflatten : (xs.map fun x => [x]).flatten = xs := by
    rw [← List.flatMap_def, List.flatMap_singleton']
  by_cases hnil : builders = []
  · have hnone : lateSections builders flows = flows := by simp [lateSections, hnil]
    rw [hnone]
    exact ⟨xs.map fun x => [x], hflatten, hone⟩
  · have hkept : lateSections builders flows = builders :: flows := by simp [lateSections, hnil]
    rw [hkept]
    exact ⟨[] :: xs.map fun x => [x], hflatten, .cons hbuilders hone⟩

/-- The messages of a file are sections of it, between the first one and the others. -/
theorem fileLines_messages (imports : List String) (ms : List Message)
    (late : List (List String)) :
    fileLines (imports :: (ms.map (fun m => messageComment m ++ messageCode m) ++ late)) =
      imports ++ messageBlocks ms ++ lateLines late := by
  simp [fileLines, lateLines, messageBlocks, List.flatMap_map]

/-! ## Reading a file -/

theorem Gives.section {ts : List String} {is : List Integration} {fs : List Flow}
    (h : Gives config names declared ts is fs) : ∃ vs, Section ts vs := by
  obtain ⟨xs, ⟨gs, hsection, -⟩, -⟩ := h
  exact ⟨_, hsection⟩

/-- The search finds the messages and nothing else. -/
theorem scan_eq {before after : List String} {va vb : List (Option String × Lexeme)}
    (hbefore : Section before va) (hafter : Section after vb) {d : Nat} {ms : List Message}
    (h : ∀ m ∈ ms, m.Proper d) :
    scan (before.flatMap lines ++ messageBlocks ms ++ after.flatMap lines) =
      places (before.flatMap lines).length ms := by
  obtain ⟨b, a, hskip⟩ := hbefore.quiet 0 0
  obtain ⟨b', a', hskip'⟩ := hafter.quiet b a
  have hstart : ({} : LineState) = level 0 0 := rfl
  have hend := scanFrom_skips hskip'
    ((before.flatMap lines).length + (messageBlocks ms).length) []
  rw [List.append_nil] at hend
  rw [scan, hstart, List.append_assoc, scanFrom_skips hskip, Nat.zero_add, scanFrom_messageBlocks h,
    hend]
  simp [scanFrom]

/-- A file is read as the model that its sections give. -/
theorem extract_sections {m : Model} {before after : List String} (hne : before ++ after ≠ [])
    (h : ∀ n ∈ m.messages, n.Proper config.nestingLimit)
    (hmessages : (m.messages.map (·.name)).Nodup)
    (hintegrations : (m.integrations.map (·.name)).Nodup) (hflows : (m.flows.map (·.name)).Nodup)
    (hbefore : ∀ declared : Declared, declared.Covers m →
      Gives config (m.integrations.map (·.name)) declared before m.integrations [])
    (hafter : ∀ declared : Declared, declared.Covers m →
      Gives config (m.integrations.map (·.name)) declared after [] m.flows) :
    extract config (unlines (before ++ messageBlocks m.messages ++ after)) = .ok m := by
  obtain ⟨declared, htable, hdeclared, haliases, hdocLines⟩ := exists_table h hmessages
    (before.flatMap lines) (after.flatMap lines)
  have hcovers : declared.Covers m := ⟨hdeclared, haliases⟩
  obtain ⟨va, hva⟩ := (hbefore declared hcovers).section
  obtain ⟨vb, hvb⟩ := (hafter declared hcovers).section
  have hflat : (messageBlocks m.messages).flatMap lines = messageBlocks m.messages :=
    (flatMap_eq_map (g := id) fun t ht => lines_of_flat (flat_messageBlocks h ht).1).trans
      (List.map_id _)
  have hlines : linesOf (unlines (before ++ messageBlocks m.messages ++ after)) =
      before.flatMap lines ++ messageBlocks m.messages ++ after.flatMap lines := by
    rw [linesOf_unlines, List.flatMap_append, List.flatMap_append, hflat]
    · simp only [ne_eq, List.append_eq_nil_iff, not_and] at hne ⊢
      exact fun hnil => hne hnil.1
    · intro t ht
      simp only [List.mem_append] at ht
      rcases ht with (ht | ht) | ht
      · exact hva.tidy t ht
      · exact (flat_messageBlocks h ht).2
      · exact hvb.tidy t ht
  have hscan := scan_eq hva hvb h
  have htaken : declarationLines (places (before.flatMap lines).length m.messages) declared =
      takenBy (before.flatMap lines).length m.messages := by
    rw [declarationLines, hdocLines, takenBy]
  -- empty lines stand where the messages were
  have hrest : unlines (before.flatMap lines ++
        List.replicate (messageBlocks m.messages).length "" ++ after.flatMap lines) =
      unlines (before ++ List.replicate (messageBlocks m.messages).length "" ++ after) := by
    have hblank : (List.replicate (messageBlocks m.messages).length "").flatMap lines =
        List.replicate (messageBlocks m.messages).length "" :=
      (flatMap_eq_map (g := id) fun t ht => by
        rw [List.eq_of_mem_replicate ht]
        rfl).trans (List.map_id _)
    rw [← unlines_flatMap_lines (before ++ _ ++ after), List.flatMap_append, List.flatMap_append,
      hblank]
  obtain ⟨xs, hholds, hxs, hys⟩ := ((hbefore declared hcovers).append
    (Gives.blanks (messageBlocks m.messages).length)).append (hafter declared hcovers)
  simp only [List.append_nil, List.nil_append] at hxs hys
  obtain ⟨ss, hprogram, hadds⟩ := hholds.programOf
  have hmodel := modelOf_adds hadds (by rwa [hxs]) (by rwa [hys])
    (by rw [hxs]; exact fun n hn => hn)
  unfold extract
  simp only [hlines, hscan, htable, htaken, blankLines_eq, hrest]
  rw [hprogram]
  show modelOf config declared ss = _
  rw [hmodel, hxs, hys, hdeclared]

end EventFlow.Emission
