import EventFlow.Proofs.Emission.Flow
import EventFlow.Proofs.Emission.Permuted
import EventFlow.Proofs.Emission.Source
import EventFlow.Proofs.Model.Equality

/-! The source text of a model describes the model.

What is rendered is read again, section by section, and gives the model with its integrations in
the order of their imports. The order does not matter to what is rendered, so the text of the model
that was read is the text that it was read from:

    generate config m = ok text
    extract config text = ok (ordered m)
    generate config (ordered m) = generate config m -/

namespace EventFlow

open DocComment Extraction Token

/-- A model that can be written: it is well formed, its names can stand in code, and its data are
nested at most `d` levels deep. The data of an example stand nine levels below the flow, and so have
nine levels less than the default of a field. -/
structure Model.Writable (d : Nat) (config : Config) (m : Model) : Prop extends m.WellFormed where
  messages : ∀ n ∈ m.messages, n.Proper (d + 9)
  integrations : ∀ i ∈ m.integrations, i.Proper config
  descriptions : ∀ x ∈ m.flows, ∀ s ∈ x.description, IsCanonical s
  written : ∀ x ∈ m.flows, ∀ s ∈ x.slices, s.Proper d
  exchanged : ∀ e ∈ m.entries, ∀ types, e.integrationTypes = .ok types →
    ∀ n, Json.text n ∈ types → isFullName n = true

/-- A model that a source text can describe: it can be written, and is read again as it is, since no
flow is described by one line with blanks before it. -/
structure Model.Proper (d : Nat) (config : Config) (m : Model) : Prop
    extends m.Writable d config where
  starts : ∀ x ∈ m.flows, ∀ s ∈ x.description, '\n' ∈ s.toList ∨ Text.IsTrimmedStart s.toList

theorem Model.Writable.mono {d d' : Nat} {config : Config} {m : Model} (h : m.Writable d config)
    (hle : d ≤ d') : m.Writable d' config :=
  { h with
    messages := fun n hn => (h.messages n hn).mono (Nat.add_le_add_right hle 9)
    written := fun x hx s hs => (h.written x hx s hs).mono hle }

/-- The flow with its description as it is read again. -/
def Flow.settled (x : Flow) : Flow :=
  { x with description := x.description.map DocComment.settled }

/-- The model with the descriptions of its flows as they are read again. -/
def Model.settled (m : Model) : Model := { m with flows := m.flows.map Flow.settled }

theorem Flow.settled_eq_self_iff {x : Flow} :
    x.settled = x ↔ ∀ t ∈ x.description, '\n' ∈ t.toList ∨ Text.IsTrimmedStart t.toList := by
  obtain ⟨name, slices, id, description⟩ := x
  cases description with
  | none => simp [Flow.settled]
  | some t => simp [Flow.settled, DocComment.settled_eq_self_iff]

/-- Flows are read again as they are just if none is described by one line with blanks before it. -/
theorem Model.settled_flows_eq_self_iff {m : Model} :
    m.settled.flows = m.flows ↔
      ∀ x ∈ m.flows, ∀ t ∈ x.description, '\n' ∈ t.toList ∨ Text.IsTrimmedStart t.toList := by
  have hmap : m.settled.flows = m.flows ↔ ∀ x ∈ m.flows, x.settled = x := by
    show m.flows.map Flow.settled = m.flows ↔ _
    conv_lhs => rhs; rw [← List.map_id m.flows]
    exact List.map_inj_left
  rw [hmap]
  exact forall₂_congr fun x _ => Flow.settled_eq_self_iff

/-- A proper model is read again as it is. -/
theorem Model.Proper.settled_eq {d : Nat} {config : Config} {m : Model} (h : m.Proper d config) :
    m.settled = m := by
  rw [Model.settled, show m.flows.map Flow.settled = m.flows from
    Model.settled_flows_eq_self_iff.2 h.starts]

namespace Emission

variable {d : Nat} {config : Config} {names : List String} {declared : Declared} {m : Model}

/-! ## Flows -/

theorem adds_flow {x : Flow} {doc : Option String} {s : Statement} {depth : Nat}
    (h : IsFlow names depth declared x doc s)
    (hdoc : (doc.bind fun raw => (parse raw).1) = x.description) :
    Adds config names depth declared { flow := some x } s := by
  intro f hnew
  obtain ⟨g, hg, hgrows⟩ := h hdoc config f (hnew.flow x rfl)
  refine ⟨g, hg, ?_⟩
  simpa [Findings.plus] using hgrows

/-- A flow is rendered as a statement that gives it, with its description as it settles. -/
theorem renders_flow (hlimit : config.nestingLimit = d + 9) (h : m.Writable d config)
    (hnames : ∀ name, m.HasIntegration name → name ∈ names) (hd : declared.Covers m) {x : Flow}
    (hx : x ∈ m.flows) :
    Renders (flowLines m x) fun ts => Gives config names declared ts [] [x.settled] ∧ ts ≠ [] := by
  have hm : m.NamesMessages := ⟨h.messageNames, fun n hn => (h.messages n hn).name⟩
  have hi : m.NamesIntegrations := fun i hi =>
    ⟨(h.integrations i hi).name, (h.integrations i hi).literal⟩
  have hrenders := renders_flowLines hm hi hd (h.slices x hx) (h.written x hx) hnames (d + 7)
    x.settled.description
  rw [← hlimit] at hrenders
  refine hrenders.mono ?_
  rintro ts ⟨code, rfl, hcode⟩
  have hsayable : IsSayable x.description [] :=
    ⟨h.descriptions x hx, by simp, by simp⟩
  have hholds := hcode.holds (P := Adds config names config.nestingLimit declared)
    (x := { flow := some x.settled }) hsayable fun s hs =>
      adds_flow hs (docOf_settled (h.descriptions x hx) (by decide))
  exact ⟨⟨[{ flow := some x.settled }], hholds, rfl, rfl⟩, by simp [hcode.ne_nil]⟩

theorem renders_flows (hlimit : config.nestingLimit = d + 9) (h : m.Writable d config)
    (hnames : ∀ name, m.HasIntegration name → name ∈ names) :
    Renders (m.flows.mapM (flowLines m)) fun tss => ∀ declared : { d : Declared // d.Covers m },
      List.Forall₂ (fun ts x => Gives config names declared.1 ts [] [x] ∧ ts ≠ []) tss
        m.settled.flows := by
  have : Nonempty { d : Declared // d.Covers m } := ⟨⟨{ messages := m.messages }, rfl, rfl⟩⟩
  refine Renders.all fun declared => ?_
  refine (Renders.mapM fun x hx => renders_flow hlimit h hnames declared.2 hx).mono
    fun tss htss => ?_
  exact List.forall₂_map_right_iff.2 htss

/-! ## Builders, names and types -/

theorem gives_buildersFor (hlimit : config.nestingLimit = d + 1) {u : Usage} (h : u.Sound) :
    (buildersFor u).1.Sound ∧ Gives config names declared (buildersFor u).2 [] [] := by
  unfold buildersFor
  split
  · exact ⟨h.function (by decide), gives_builderLines hlimit h.events h.commands h.states⟩
  · exact ⟨h, Gives.nil⟩

theorem checkModel_ok (h : m.WellFormed) : checkModel m = .ok () := by
  obtain ⟨_, hmessages⟩ := (verdict_checkNames .duplicateMessages (fun _ => rfl)
    (m.messages.map (·.name))).accepted h.messageNames
  obtain ⟨_, hintegrations⟩ := (verdict_checkNames .duplicateIntegrations (fun _ => rfl)
    (m.integrations.map (·.name))).accepted h.integrationNames
  rw [List.map_map] at hmessages hintegrations
  show (checkNames .duplicateMessages (m.messages.map (Json.text ∘ (·.name))) >>= fun _ =>
    checkNames .duplicateIntegrations (m.integrations.map (Json.text ∘ (·.name)))) = _
  rw [hmessages, hintegrations]
  rfl

/-! The types that are imported are exchanged by some entry, and so can stand in code. -/

theorem looksUpSource_of_proper {d : Nat} {e : Entry} (h : e.Proper d) : e.LooksUpSource := by
  cases e with
  | source => trivial
  | sink target destination state instructions =>
    cases state with
    | none => trivial
    | some state => exact h.2.1

theorem mem_of_mapM {α β ε : Type} {f : α → Except ε (List β)} {as : List α} {bss : List (List β)}
    (h : as.mapM f = .ok bss) {b : β} (hb : b ∈ bss.flatten) :
    ∃ a ∈ as, ∃ bs, f a = .ok bs ∧ b ∈ bs := by
  obtain ⟨bs, hbs, hb⟩ := List.mem_flatten.1 hb
  obtain ⟨a, ha, hf⟩ := exists_of_mem_mapM h hbs
  exact ⟨a, ha, bs, hf, hb⟩

theorem mem_of_orderedNames {names ts : List Json} (h : orderedNames names = .ok ts) {v : Json}
    (hv : v ∈ ts) : v ∈ names := by
  unfold orderedNames at h
  split at h
  · cases h
    exact Json.mem_of_mem_distinct names v (List.mem_mergeSort.1 hv)
  · cases h

theorem mem_of_listedNames {names : List Json} {ts : List String} (h : listedNames names = .ok ts)
    {n : String} (hn : n ∈ ts) : Json.text n ∈ names := by
  have hmapM : names.mapM Json.text? = some ts := by
    unfold listedNames at h
    split at h
    · next hsome => rwa [Except.ok.inj h] at hsome
    · cases h
  clear h
  induction names generalizing ts with
  | nil =>
    cases hmapM
    cases hn
  | cons v names ih =>
    rw [List.mapM_cons] at hmapM
    obtain ⟨s, hs, hmapM⟩ := Option.bind_eq_some_iff.1 hmapM
    obtain ⟨ss, hss, hmapM⟩ := Option.bind_eq_some_iff.1 hmapM
    cases hmapM
    rcases List.mem_cons.1 hn with rfl | hn
    · cases v <;> cases hs
      exact List.mem_cons_self
    · exact List.mem_cons_of_mem _ (ih hn hss)

/-- What is imported as a type is exchanged by an entry. -/
theorem exists_entry {names : List String} (h : foreignTypes m = .ok names) {n : String}
    (hn : n ∈ names) :
    ∃ e ∈ m.entries, ∃ types, e.integrationTypes = .ok types ∧ Json.text n ∈ types := by
  obtain ⟨all, hall, h⟩ := bind_eq_ok.1 h
  have hmem := (List.mem_filter.1 (mem_of_listedNames h hn)).1
  have hall : m.integrationTypes = .ok all := by
    cases htypes : m.integrationTypes <;> rw [htypes] at hall <;> cases hall
    rfl
  obtain ⟨tss, htss, hordered⟩ := bind_eq_ok.1 hall
  obtain ⟨s, hs, ts, hts, hmem⟩ := mem_of_mapM htss (mem_of_orderedNames hordered hmem)
  obtain ⟨uss, huss, hordered⟩ := bind_eq_ok.1 hts
  obtain ⟨e, he, us, hus, hmem⟩ := mem_of_mapM huss (mem_of_orderedNames hordered hmem)
  exact ⟨e, List.mem_flatMap.2 ⟨s, hs, he⟩, us, hus, hmem⟩

theorem exists_foreignTypes (h : m.Writable d config) :
    ∃ types, foreignTypes m = .ok types ∧ ∀ n ∈ types, isFullName n = true := by
  obtain ⟨types, htypes⟩ := foreignTypes_typed (m := m) fun e he => by
    obtain ⟨s, hs, he⟩ := List.mem_flatMap.1 he
    obtain ⟨x, hx, hs⟩ := List.mem_flatMap.1 hs
    exact looksUpSource_of_proper ((h.written x hx s hs).data e he)
  refine ⟨types, htypes, fun n hn => ?_⟩
  obtain ⟨e, he, exchanged, hexchanged, hmem⟩ := exists_entry htypes hn
  exact h.exchanged e he exchanged hexchanged n hmem

/-! ## Sections -/

theorem generate_eq {flows types : List (List String)} {usage : Usage}
    {foreign imports : List String} (hcheck : checkModel m = .ok ())
    (hflows : (m.flows.mapM (flowLines m)).run {} = (.ok flows, usage))
    (htypes : m.messages.mapM messageLines = .ok types) (hforeign : foreignTypes m = .ok foreign)
    (himports : importLines config (buildersFor usage).1.functions (m.messages.map (·.kind))
      m.integrations foreign = .ok imports) :
    generate config m =
      .ok (joinSections ([imports] ++ types ++ [(buildersFor usage).2] ++ flows)) := by
  unfold generate
  rw [hcheck, hflows, htypes, hforeign]
  show (importLines config (buildersFor usage).1.functions _ _ foreign >>= _) = _
  rw [himports]
  rfl

/-- A model is rendered section by section. -/
theorem exists_sections (hconfig : config.Proper) (hlimit : config.nestingLimit = d + 9)
    (h : m.Writable d config)
    (hnames : ∀ name, m.HasIntegration name → name ∈ names) :
    ∃ imports builders flows,
      generate config m = .ok (joinSections ([imports] ++
        m.messages.map (fun n => messageComment n ++ messageCode n) ++ [builders] ++ flows)) ∧
      (imports = [] → m.messages = []) ∧
      ∀ declared : Declared, declared.Covers m →
        Gives config names declared imports (inOrder m.integrations) [] ∧
        Gives config names declared builders [] [] ∧
        List.Forall₂ (fun ts x => Gives config names declared ts [] [x] ∧ ts ≠ []) flows
          m.settled.flows := by
  obtain ⟨flows, usage, hrun, hkeeps, hflows⟩ := renders_flows hlimit h hnames {}
  have hsound : usage.Sound := hkeeps ⟨by simp, by simp, by simp, by simp⟩
  have htypes : m.messages.mapM messageLines =
      .ok (m.messages.map fun n => messageComment n ++ messageCode n) :=
    mapM_ok (List.forall₂_map_right_iff.2 (List.forall₂_same.2 fun n hn =>
      messageLines_eq (h.messages n hn)))
  obtain ⟨foreign, hforeign, hfull⟩ := exists_foreignTypes h
  have hbuilders : ∀ declared, (buildersFor usage).1.Sound ∧
      Gives config names declared (buildersFor usage).2 [] [] := fun _ =>
    gives_buildersFor (d := d + 8) hlimit hsound
  have himports : ∀ declared, ∃ ls, importLines config (buildersFor usage).1.functions
      (m.messages.map (·.kind)) m.integrations foreign = .ok ls ∧
        Gives config names declared ls (inOrder m.integrations) [] ∧
          (m.messages.map (·.kind) ≠ [] → ls ≠ []) := fun declared =>
    gives_importLines hconfig (hbuilders declared).1.functions _ h.integrations h.integrationNames
      hfull
  obtain ⟨imports, hlines, -, hne⟩ := himports {}
  refine ⟨imports, (buildersFor usage).2, flows,
    generate_eq (checkModel_ok h.toWellFormed) hrun htypes hforeign hlines, fun hnil => ?_,
    fun declared hcovers => ⟨?_, (hbuilders declared).2, hflows ⟨declared, hcovers⟩⟩⟩
  · by_contra hsome
    exact hne (by simpa using hsome) hnil
  · obtain ⟨ls, hls, hgives, -⟩ := himports declared
    rw [hlines, Except.ok.injEq] at hls
    exact hls ▸ hgives

/-- The lines of a model: its imports, its messages, and the builders and flows after them. -/
theorem exists_lines (hconfig : config.Proper) (hlimit : config.nestingLimit = d + 9)
    (h : m.Writable d config)
    (hnames : ∀ name, m.HasIntegration name → name ∈ names) :
    ∃ before after, before ++ after ≠ [] ∧
      generate config m = .ok (Text.unlines (before ++ messageBlocks m.messages ++ after)) ∧
      ∀ declared : Declared, declared.Covers m →
        Gives config names declared before (inOrder m.integrations) [] ∧
        Gives config names declared after [] m.settled.flows := by
  obtain ⟨imports, builders, flows, hgenerate, hempty, hgives⟩ :=
    exists_sections hconfig hlimit h hnames
  have hnotEmpty : ∀ ts ∈ flows, ts ≠ [] := by
    obtain ⟨-, -, hall⟩ := hgives { messages := m.messages } ⟨rfl, rfl⟩
    exact Program.forall_left hall fun _ _ hts => hts.2
  have hlate : ∀ declared : Declared, declared.Covers m → ∃ fss, fss.flatten = m.settled.flows ∧
      List.Forall₂ (fun ts fs => Gives config names declared ts [] fs)
        (lateSections builders flows) fss := fun declared hcovers =>
    exists_lateFlows (hgives declared hcovers).2.1
      ((hgives declared hcovers).2.2.imp fun _ _ hts => hts.1)
  rw [joinSections_eq, filter_sections imports builders (List.forall_mem_map.2 fun n _ => by
    simp [messageCode_ne_nil n]) hnotEmpty] at hgenerate
  by_cases hnil : imports = []
  · -- nothing is declared, and the first section is a later one
    have hmessages := hempty hnil
    refine ⟨[], fileLines (lateSections builders flows), ?_, ?_, fun declared hcovers => ?_⟩
    · cases lateSections builders flows <;> simp [fileLines, lateLines]
    · simpa [hnil, hmessages, messageBlocks] using hgenerate
    · obtain ⟨fss, hfss, hall⟩ := hlate declared hcovers
      exact ⟨hnil ▸ (hgives declared hcovers).1, hfss ▸ gives_fileLines hall⟩
  · refine ⟨imports, lateLines (lateSections builders flows), by simp [hnil], ?_,
      fun declared hcovers => ?_⟩
    · rw [← fileLines_messages]
      simpa [hnil] using hgenerate
    · obtain ⟨fss, hfss, hall⟩ := hlate declared hcovers
      exact ⟨(hgives declared hcovers).1, hfss ▸ gives_lateLines hall⟩

/-! ## Integrations in another order -/

/-- The model with its integrations in the order of their imports. -/
def ordered (m : Model) : Model := { m with integrations := inOrder m.integrations }

theorem wellFormed_ordered (h : m.WellFormed) : (ordered m).WellFormed where
  messageNames := h.messageNames
  flowNames := h.flowNames
  integrationNames := ((inOrder_perm m.integrations).map _).nodup_iff.2 h.integrationNames
  fieldNames := h.fieldNames
  slices x hx s hs := (h.slices x hx s hs).mono (fun _ _ hk => hk) fun _ ⟨i, hi, hname⟩ =>
    ⟨i, mem_inOrder.2 hi, hname⟩

/-! ## The round trip -/

theorem isKeyed_entry {d : Nat} (e : Entry) (h : e.Proper d) : e.IsKeyed := by
  fun_induction Entry.IsKeyed e generalizing d with
  | case1 target origin instructions =>
    cases origin with
    | database name query => exact Json.isKeyed_of_isExact h.1
    | _ => trivial
  | case2 => trivial
  | case3 _ _ _ _ ih => exact ih h.2.2

theorem isKeyed_of_writable (h : m.Writable d config) : m.IsKeyed where
  slices x hx s hs :=
    have hs := h.written x hx s hs
    ⟨fun b hb e he => Json.isKeyed_of_isExact (hs.payload b hb e he).exact,
      fun e he => isKeyed_entry e (hs.data e he)⟩
  defaults n hn f hf := Json.isKeyed_of_isExact ((h.messages n hn).fields f hf).exact

/-- The source text of a model describes it as it settles, with the integrations in order. -/
theorem extract_generate_settled (hconfig : config.Proper) (hlimit : d + 9 ≤ config.nestingLimit)
    (h : m.Writable d config) :
    ∃ text, generate config m = .ok text ∧ extract config text = .ok (ordered m.settled) := by
  obtain ⟨k, hk⟩ := Nat.exists_eq_add_of_le hlimit
  replace hlimit : config.nestingLimit = d + k + 9 := by omega
  replace h := h.mono (Nat.le_add_right d k)
  have hnames : ∀ name, m.HasIntegration name → name ∈ (ordered m).integrations.map (·.name) := by
    rintro _ ⟨i, hi, rfl⟩
    exact List.mem_map_of_mem (mem_inOrder.2 hi)
  obtain ⟨before, after, hne, hgenerate, hgives⟩ := exists_lines hconfig hlimit h hnames
  have hwell := wellFormed_ordered h.toWellFormed
  have hflowNames : ((ordered m.settled).flows.map (·.name)).Nodup := by
    have hsame : m.settled.flows.map (·.name) = m.flows.map (·.name) :=
      List.map_map.trans (List.map_congr_left fun _ _ => rfl)
    exact hsame ▸ hwell.flowNames
  refine ⟨_, hgenerate, extract_sections (m := ordered m.settled) hne (hlimit ▸ h.messages)
    hwell.messageNames hwell.integrationNames hflowNames (fun declared hcovers => ?_)
    fun declared hcovers => ?_⟩
  · exact (hgives declared ⟨hcovers.messages, hcovers.aliases⟩).1
  · exact (hgives declared ⟨hcovers.messages, hcovers.aliases⟩).2

/-- The source text of a proper model describes it, with the integrations in order. -/
theorem extract_generate (hconfig : config.Proper) (hlimit : d + 9 ≤ config.nestingLimit)
    (h : m.Proper d config) :
    ∃ text, generate config m = .ok text ∧ extract config text = .ok (ordered m) := by
  have hsettled := extract_generate_settled hconfig hlimit h.toWritable
  rwa [h.settled_eq] at hsettled

theorem proper_default (limit : Nat) : Config.Proper { nestingLimit := limit } :=
  have h : Config.Proper {} := ⟨by decide, by decide, by decide⟩
  ⟨h.1, h.2, h.3⟩

/-- The source text of a model that can be described is read as the same model, whose source text
it is, wherever the limit leaves nine levels above the data of the model. -/
theorem generate_roundTrips {d limit : Nat} (m : Model) (h : m.Proper d { nestingLimit := limit })
    (hlimit : d + 9 ≤ limit) :
    let config : Config := { nestingLimit := limit }
    ∃ text m', generate config m = .ok text ∧ extract config text = .ok m' ∧
      m'.same? m = some true ∧ generate config m' = .ok text := by
  intro config
  obtain ⟨text, hgenerate, hextract⟩ := extract_generate (proper_default limit) hlimit h
  refine ⟨text, ordered m, hgenerate, hextract, ?_, ?_⟩
  · have hnamed : m.IsNamed := ⟨h.messageNames, h.integrationNames⟩
    have hordered : (ordered m).Reorders m := ⟨rfl, .refl _, inOrder_perm m.integrations⟩
    have hself : m.Reorders m := ⟨rfl, .refl _, .refl _⟩
    rw [Model.same?_of_reorders hnamed hnamed hordered hself]
    exact Model.same?_self (isKeyed_of_writable h.toWritable)
  · exact (generate_of_perm config (inOrder_perm m.integrations)).trans hgenerate

/-! Orders are shipped by a carrier, and the stock is looked up for it. -/

namespace Shipping

def ship : Message :=
  { name := "Ship"
    kind := .command
    version := 2
    description := some "Asks for a parcel."
    fields := [{ name := "order id", type := "string[]", required := false,
                 description := some "Which one.", default := .array [.text "all"] }] }

def shipped : Message := { name := "Shipped", kind := .event, version := 1 }

def warehouse : Integration :=
  { name := "Warehouse", source := "./warehouse", description := some "Holds the stock." }

def carrier : Integration := { name := "Carrier", source := "./carrier" }

def shipSpec : Spec :=
  { given := [⟨"Shipped", .object []⟩]
    when := .one ⟨"Ship", .object [("order id", .int (-3))]⟩
    outcomes := [.message ⟨"Shipped", .object [("parts", .array [.text "*/", .null])]⟩,
      .error .notFound (some "none left")] }

def shipOrder : Slice :=
  { kind := .command
    name := "Ship it's order"
    client := some { description := "Form", specs := ["asks twice"] }
    request := some r"mutation {
  ship
}"
    server := {
      description := "Ships."
      specs := [shipSpec]
      data := [.sink ⟨.command, "Ship"⟩ (.integration ["Carrier"] (some ⟨"Parcel", "command"⟩))
        (some (.source ⟨.state, "Stock"⟩ (.integration ["Warehouse"]) none)) none] } }

def model : Model :=
  { flows := [{ name := "Shipping", description := some "Orders leave\n\n  the house.",
                slices := [shipOrder] }]
    messages := [ship, shipped]
    integrations := [warehouse, carrier] }

theorem proper_ship : ship.Proper 12 where
  name := by decide
  fields := by
    simp only [ship, List.forall_mem_singleton]
    refine ⟨by decide, by decide +kernel, ?_, by simp, by decide,
      by decide, by decide⟩
    rintro _ ⟨⟩
    decide
  distinct := by decide
  description := by
    rintro _ ⟨⟩
    decide
  start := by simp [ship]
  version := by decide
  short := by decide +kernel

theorem proper_shipped : shipped.Proper 12 where
  name := by decide
  fields := by simp [shipped]
  distinct := by decide
  description := by simp [shipped]
  start := by simp [shipped]
  version := by decide
  short := by decide +kernel

theorem proper_warehouse : warehouse.Proper {} where
  name := by decide
  reserved := by decide
  literal := by decide
  source := by decide
  foreign := by decide
  description := by
    rintro _ ⟨⟩
    decide

theorem proper_carrier : carrier.Proper {} where
  name := by decide
  reserved := by decide
  literal := by decide
  source := by decide
  foreign := by decide
  description := by simp [carrier]

theorem examples_shipSpec : shipSpec.examples = [⟨"Shipped", .object []⟩,
    ⟨"Ship", .object [("order id", .int (-3))]⟩,
    ⟨"Shipped", .object [("parts", .array [.text "*/", .null])]⟩] := rfl

theorem fits_shipOrder : shipOrder.Fits model.HasMessage model.HasIntegration := by
  have hship : model.HasMessage "Ship" .command := ⟨ship, by simp [model], rfl, rfl⟩
  have hshipped : model.HasMessage "Shipped" .event := ⟨shipped, by simp [model], rfl, rfl⟩
  have hwarehouse : model.HasIntegration "Warehouse" := ⟨warehouse, by simp [model], rfl⟩
  have hcarrier : model.HasIntegration "Carrier" := ⟨carrier, by simp [model], rfl⟩
  constructor
  · simp only [shipOrder, List.forall_mem_singleton]
    refine ⟨?_, hship, by simp⟩
    rw [examples_shipSpec]
    simp only [List.forall_mem_cons]
    exact ⟨⟨_, hshipped⟩, ⟨_, hship⟩, ⟨_, hshipped⟩, by simp⟩
  · simp only [shipOrder, List.forall_mem_singleton]
    exact ⟨⟨by simp, by simpa using hcarrier⟩, by simp, by simpa using hwarehouse⟩

theorem proper_shipOrder : shipOrder.Proper 3 where
  payload := by
    simp only [shipOrder, List.forall_mem_singleton, examples_shipSpec, List.forall_mem_cons]
    refine ⟨?_, ?_, ?_⟩ <;>
      exact ⟨⟨_, rfl⟩, by decide +kernel, by decide, by decide⟩
  data := by
    simp only [shipOrder, List.forall_mem_singleton]
    exact ⟨by simp [Destination.Proper, integrationTypes], rfl, trivial⟩
  request := by
    rintro _ ⟨⟩
    decide

theorem proper_model : model.Proper 3 {} where
  messageNames := by decide
  flowNames := by decide
  integrationNames := by decide
  fieldNames := by decide
  slices := by
    simp only [model, List.forall_mem_singleton]
    exact fits_shipOrder
  messages := by simpa [model] using ⟨proper_ship, proper_shipped⟩
  integrations := by simpa [model] using ⟨proper_warehouse, proper_carrier⟩
  descriptions := by
    simp only [model, List.forall_mem_singleton]
    rintro _ ⟨⟩
    decide
  written := by simpa [model] using proper_shipOrder
  exchanged := by
    have hentries : model.entries = shipOrder.server.data := by
      simp [model, Model.entries, Model.slices]
    rw [hentries]
    simp only [shipOrder, List.forall_mem_singleton]
    rintro types ⟨⟩ n hn
    have hname : n = "Parcel" ∨ n = "Stock" := by simpa using hn
    rcases hname with rfl | rfl <;> decide
  starts := by
    simp only [model, List.forall_mem_singleton]
    rintro _ ⟨⟩
    decide

end Shipping

theorem generate_roundTrips_shipping :
    (Shipping.model.Proper 3 {} ∧ 3 + 9 ≤ ({} : Config).nestingLimit) ∧
    ∃ text m', generate {} Shipping.model = .ok text ∧ extract {} text = .ok m' ∧
      m'.same? Shipping.model = some true ∧ generate {} m' = .ok text :=
  ⟨⟨Shipping.proper_model, by decide⟩,
    generate_roundTrips Shipping.model Shipping.proper_model (by decide)⟩

/-- A model of one message, whose version is too long to be written. -/
theorem generate_aged :
    let m : Model := { flows := [], messages := [aged], integrations := [] }
    m.WellFormed ∧ (∀ n ∈ m.messages, n.Declarable 9) ∧ generate {} m = .error .longNumber := by
  have hdeclarable : ∀ n ∈ [aged], n.Declarable 9 := by simpa using declarable_aged 9
  exact ⟨⟨by simp, by simp, by simp, fun n hn => (hdeclarable n hn).distinct, by simp⟩,
    hdeclarable, by decide +kernel⟩

end Emission

end EventFlow
