import EventFlow.Proofs.Emission.RoundTrip
import EventFlow.Proofs.Extraction.WellFormed

/-! Descriptions that were read from comments.

The description of a flow is what the comment above it says, so it can be said by a comment again.
Written and read once more it settles, that is, it loses the blanks before it if it has one line
only, and nothing else:

    extract source = ok m
    generate m = ok text
    extract text = ok (ordered m.settled) -/

namespace EventFlow

open DocComment

variable {config : Config} {source : String} {m : Model} {x : Flow}

namespace Extraction

/-! ## Where descriptions come from -/

theorem flowOf_description {depth : Nat} {declared : Declared} {e : Expr} {doc : Option String}
    {f g : Findings} (h : flowOf depth declared e doc f = .ok (x, g)) :
    x.description = doc.bind fun raw => (parse raw).1 := by
  unfold flowOf at h
  obtain ⟨name, u, -, h⟩ := stateBind_eq_ok.1 h
  obtain ⟨⟨id, callback⟩, v, -, h⟩ := stateBind_eq_ok.1 h
  cases callback with
  | block l body =>
    obtain ⟨slices, w, -, h⟩ := stateBind_eq_ok.1 h
    obtain ⟨rfl, -⟩ := statePure_eq_ok.1 h
    rfl
  | _ => cases h

/-- A flow is described by the comment above its statement. -/
theorem topLevel_description {depth : Nat} {declared : Declared} {s : Statement} {f g : Findings}
    (h : topLevel config depth declared s f = .ok (some x, g)) :
    ∃ doc : Option String, x.description = doc.bind fun raw => (parse raw).1 := by
  cases s with
  | imports l content doc =>
    obtain ⟨_, u, -, h⟩ := stateBind_eq_ok.1 h
    cases (statePure_eq_ok.1 h).1
  | binding l keyword names init doc => cases (statePure_eq_ok.1 h).1
  | expression l e doc =>
    unfold topLevel at h
    cases hname : e.calleeName? with
    | none =>
      simp only [hname] at h
      cases h
    | some name =>
      simp only [hname] at h
      split at h
      · obtain ⟨y, u, hflow, h⟩ := stateBind_eq_ok.1 h
        obtain ⟨hy, -⟩ := statePure_eq_ok.1 h
        exact ⟨doc, Option.some.inj hy ▸ flowOf_description hflow⟩
      · cases h
  | result l value => cases h

theorem extract_description (h : extract config source = .ok m) (hx : x ∈ m.flows) :
    ∃ doc : Option String, x.description = doc.bind fun raw => (parse raw).1 := by
  obtain ⟨declared, program, -, -, h⟩ := exists_of_extract h
  obtain ⟨flows, f, hflows, rfl⟩ := exists_of_modelOf h
  obtain ⟨rs, u, hrs, h⟩ := stateBind_eq_ok.1 hflows
  obtain ⟨rfl, -⟩ := statePure_eq_ok.1 h
  obtain ⟨r, hr, rfl⟩ := List.mem_filterMap.1 hx
  obtain ⟨s, -, u, v, hs⟩ := exists_of_mem_stateMapM hrs hr
  exact topLevel_description hs

/-- So it can be said by a comment. -/
theorem extract_isCanonical (h : extract config source = .ok m) :
    ∀ x ∈ m.flows, ∀ t ∈ x.description, IsCanonical t := by
  intro x hx t ht
  obtain ⟨doc, hdoc⟩ := extract_description h hx
  rw [hdoc, Option.mem_def, Option.bind_eq_some_iff] at ht
  obtain ⟨raw, -, hraw⟩ := ht
  have hparse : parse raw = (some t, (parse raw).2) := by rw [← hraw]
  exact isCanonical_of_parse hparse

end Extraction

/-! ## Models whose flows are described by comments -/

/-- The model with no flow described. -/
def Model.undescribed (m : Model) : Model :=
  { m with flows := m.flows.map fun x => { x with description := none } }

namespace Emission

open Extraction

theorem entries_undescribed (m : Model) : m.undescribed.entries = m.entries := by
  simp [Model.entries, Model.slices, Model.undescribed, List.flatMap_map]

/-- A model that was read can be written, if it could be without the descriptions of its flows. -/
theorem writable_of_extract {d : Nat} (h : extract config source = .ok m)
    (hm : m.undescribed.Proper d config) :
    m.Writable d config where
  toWellFormed := extract_model_wellFormed config source m h
  messages := hm.messages
  integrations := hm.integrations
  descriptions := extract_isCanonical h
  written x hx := hm.written { x with description := none } (List.mem_map.2 ⟨x, hx, rfl⟩)
  exchanged := entries_undescribed m ▸ hm.exchanged

/-- **What a comment says is said by a comment again**, but for the blanks before a text of one
line: these are lost, and nothing else is. So it is with the descriptions of the flows of a model
that was read, if the rest of the model can be written. -/
theorem parse_format_settles (raw t : String) (tags : List Tag)
    (h : parse raw = (some t, tags)) :
    parse (Text.unlines (format (some t) [] "")) =
        (some (settled t), []) ∧
      (settled t = t ↔ '\n' ∈ t.toList ∨ Text.IsTrimmedStart t.toList) ∧
      ∀ (d limit : Nat) (source : String) (m : Model), d + 9 ≤ limit →
        let config : Config := { nestingLimit := limit }
        extract config source = .ok m → m.undescribed.Proper d config →
        ∃ text, generate config m = .ok text ∧ extract config text = .ok (ordered m.settled) ∧
          (m.settled.flows = m.flows ↔ ∀ x ∈ m.flows, ∀ t ∈ x.description,
            '\n' ∈ t.toList ∨ Text.IsTrimmedStart t.toList) := by
  have hcanonical := isCanonical_of_parse h
  refine ⟨?_, settled_eq_self_iff, ?_⟩
  · rw [unlines_format (said_ne_nil hcanonical), String.empty_append]
    exact parse_comment_settled hcanonical (by decide)
  · intro d limit source m hlimit config hsource hm
    obtain ⟨text, hgenerate, hextract⟩ :=
      extract_generate_settled (proper_default limit) hlimit (writable_of_extract hsource hm)
    exact ⟨text, hgenerate, hextract, Model.settled_flows_eq_self_iff⟩

/-! A flow described by two lines, and one described by a line with blanks before it. -/

def describedFlow (description : String) : Model :=
  { flows := [{ name := "F", description := some description }]
    messages := []
    integrations := [] }

theorem proper_describedFlow (description : String) :
    (describedFlow description).undescribed.Proper 0 {} := by
  have hplain : (describedFlow description).undescribed =
      { flows := [{ name := "F" }], messages := [], integrations := [] } := rfl
  rw [hplain]
  refine ⟨⟨⟨?_, ?_, ?_, ?_, ?_⟩, ?_, ?_, ?_, ?_, ?_⟩, ?_⟩ <;> simp [Model.entries, Model.slices]

theorem parse_format_settles_lines :
    parse "/**\n * a\n *  b\n */" = (some "a\n b", []) ∧
      parse (Text.unlines (format (some "a\n b") [] "")) =
        (some (settled "a\n b"), []) ∧
      extract {} "/**\n * a\n *  b\n */\nflow('F',()=>{});" = .ok (describedFlow "a\n b") ∧
      ∃ text, generate {} (describedFlow "a\n b") = .ok text ∧
        extract {} text = .ok (ordered (describedFlow "a\n b").settled) := by
  have hparse : parse "/**\n * a\n *  b\n */" = (some "a\n b", []) := by decide +kernel
  have hextract : extract {} "/**\n * a\n *  b\n */\nflow('F',()=>{});" =
      .ok (describedFlow "a\n b") := toOption_eq_some (by decide +kernel)
  obtain ⟨hformat, -, hflows⟩ := parse_format_settles _ _ _ hparse
  obtain ⟨text, hgenerate, htext, -⟩ := hflows 0 _ _ _ (by decide) hextract
    (proper_describedFlow "a\n b")
  exact ⟨hparse, hformat, hextract, text, hgenerate, htext⟩

/-- The blanks before a line of its own are lost. -/
theorem parse_format_indented :
    parse "/**\n *   a\n */" = (some "  a", []) ∧
      parse (Text.unlines (format (some "  a") [] "")) = (some "a", []) ∧
      extract {} "/**\n *   a\n */\nflow('F',()=>{});" = .ok (describedFlow "  a") ∧
      ∃ text, generate {} (describedFlow "  a") = .ok text ∧
        extract {} text = .ok (describedFlow "a") := by
  have hextract : extract {} "/**\n *   a\n */\nflow('F',()=>{});" =
      .ok (describedFlow "  a") := toOption_eq_some (by decide +kernel)
  refine ⟨by decide +kernel, by decide +kernel, hextract, ?_⟩
  have hsettled : ordered (describedFlow "  a").settled = describedFlow "a" := by cbv
  rw [← hsettled]
  exact extract_generate_settled (proper_default _) (show 0 + 9 ≤ _ by decide)
    (writable_of_extract hextract (proper_describedFlow "  a"))

end Emission

end EventFlow
