import EventFlow.Proofs.Document.RoundTrip

/-! Loading a document gives its normal form in one pass.

Whatever a document says, an optional leaf of the model that is read from it is missing rather than
null (`Model.Tidy`), so the document of that model is read as the same model again:

    l.Tidy  →  normalize l.toJson = ok l.toJson

The order of members plays no part in this.  The text of a document has them sorted, and a model
that is read from it has the same text:

    load? text = some text₁  →  load? text₁ = some text₁

if the text of the document reads back at all. -/

namespace EventFlow

open Json (sorted)

variable {l : LooseModel} {α : Type}

namespace Document

/-! ## Loaded models are tidy -/

variable {v : Json}

theorem tidy_present (v : Json) : Tidy (present v) := by
  intro a ha hnull
  obtain rfl : a = .null := hnull
  cases v <;> cases ha

theorem tidy_optional {key : String} {found : Option Json} (h : optional v key = .ok found) :
    Tidy found := by
  obtain ⟨w, -, h⟩ := bind_eq_ok.1 h
  cases h
  exact tidy_present w

theorem forall_mapM {item : Json → Loaded α} {P : α → Prop} (hitem : ∀ w x, item w = .ok x → P x)
    {ws : List Json} {xs : List α} (h : ws.mapM item = .ok xs) : ∀ x ∈ xs, P x := by
  intro x hx
  obtain ⟨w, -, hw⟩ := exists_of_mem_mapM h hx
  exact hitem w x hw

theorem forall_listOf {key : String} {item : Json → Loaded α} {P : α → Prop}
    (hitem : ∀ w x, item w = .ok x → P x) {xs : List α} (h : listOf v key item = .ok xs) :
    ∀ x ∈ xs, P x := by
  obtain ⟨w, -, h⟩ := bind_eq_ok.1 h
  obtain ⟨items, -, h⟩ := bind_eq_ok.1 h
  exact forall_mapM hitem h

theorem tidy_field {f : Field Json Json} (h : field v = .ok f) : f.Tidy := by
  obtain ⟨name, -, h⟩ := bind_eq_ok.1 h
  obtain ⟨type, -, h⟩ := bind_eq_ok.1 h
  obtain ⟨needed, -, h⟩ := bind_eq_ok.1 h
  obtain ⟨description, hdescription, h⟩ := bind_eq_ok.1 h
  obtain ⟨value, -, h⟩ := bind_eq_ok.1 h
  cases h
  exact tidy_optional hdescription

theorem tidy_message {m : LooseMessage} (h : message v = .ok m) : m.Tidy := by
  obtain ⟨metadata, -, h⟩ := bind_eq_ok.1 h
  obtain ⟨name, -, h⟩ := bind_eq_ok.1 h
  obtain ⟨type, -, h⟩ := bind_eq_ok.1 h
  obtain ⟨kind, -, h⟩ := bind_eq_ok.1 h
  obtain ⟨fields, hfields, h⟩ := bind_eq_ok.1 h
  obtain ⟨description, hdescription, h⟩ := bind_eq_ok.1 h
  obtain ⟨version, -, h⟩ := bind_eq_ok.1 h
  cases h
  exact ⟨tidy_optional hdescription, forall_listOf (fun _ _ => tidy_field) hfields⟩

theorem tidy_integration {i : Integration Json} (h : integration v = .ok i) : i.Tidy := by
  obtain ⟨name, -, h⟩ := bind_eq_ok.1 h
  obtain ⟨source, -, h⟩ := bind_eq_ok.1 h
  obtain ⟨description, hdescription, h⟩ := bind_eq_ok.1 h
  cases h
  exact tidy_optional hdescription

theorem tidy_outcome {o : Outcome Json} (h : outcome v = .ok o) : o.Tidy := by
  unfold outcome at h
  split at h
  · split at h
    · obtain ⟨type, -, h⟩ := bind_eq_ok.1 h
      obtain ⟨note, hnote, h⟩ := bind_eq_ok.1 h
      cases h
      exact tidy_optional hnote
    · obtain ⟨e, -, h⟩ := bind_eq_ok.1 h
      cases h
      trivial
  · cases h

theorem tidy_spec {s : Spec Json} (h : spec v = .ok s) : s.Tidy := by
  obtain ⟨start, -, h⟩ := bind_eq_ok.1 h
  obtain ⟨trigger, -, h⟩ := bind_eq_ok.1 h
  obtain ⟨outcomes, houtcomes, h⟩ := bind_eq_ok.1 h
  obtain ⟨given, -, h⟩ := bind_eq_ok.1 h
  cases h
  exact forall_listOf (fun _ _ => tidy_outcome) houtcomes

theorem tidy_origin {o : Origin Json} (h : origin v = .ok o) : o.Tidy := by
  obtain ⟨type, -, h⟩ := bind_eq_ok.1 h
  split at h
  · obtain ⟨name, -, h⟩ := bind_eq_ok.1 h
    obtain ⟨idField, -, h⟩ := bind_eq_ok.1 h
    cases h
    trivial
  · obtain ⟨name, -, h⟩ := bind_eq_ok.1 h
    cases h
    trivial
  · obtain ⟨collection, -, h⟩ := bind_eq_ok.1 h
    obtain ⟨query, -, h⟩ := bind_eq_ok.1 h
    cases h
    trivial
  · obtain ⟨endpoint, -, h⟩ := bind_eq_ok.1 h
    obtain ⟨method, hmethod, h⟩ := bind_eq_ok.1 h
    cases h
    exact tidy_optional hmethod
  · obtain ⟨listed, -, h⟩ := bind_eq_ok.1 h
    obtain ⟨systems, -, h⟩ := bind_eq_ok.1 h
    cases h
    trivial
  · cases h

theorem tidy_bind_present (found : Option Json) : Tidy (found.bind present) := by
  cases found with
  | none =>
    intro a ha
    cases ha
  | some v => exact tidy_present v

theorem tidy_entry {e : Entry Json} (h : entry v = .ok e) : e.Tidy := by
  fun_induction entry v generalizing e with
  | case1 members instructions dest _ =>
    rename_i ih
    obtain ⟨about, -, h⟩ := bind_eq_ok.1 h
    obtain ⟨about, -, h⟩ := bind_eq_ok.1 h
    obtain ⟨dest, -, h⟩ := bind_eq_ok.1 h
    split at h
    · cases h
      exact tidy_bind_present _
    · cases h
      exact tidy_bind_present _
    · next state _ hstate =>
      obtain ⟨inner, hinner, h⟩ := bind_eq_ok.1 h
      cases h
      exact ⟨ih state hstate hinner, tidy_bind_present _⟩
  | case2 members instructions from_ _ =>
    obtain ⟨about, -, h⟩ := bind_eq_ok.1 h
    obtain ⟨about, -, h⟩ := bind_eq_ok.1 h
    obtain ⟨from_, hfrom, h⟩ := bind_eq_ok.1 h
    cases h
    exact ⟨tidy_origin hfrom, tidy_bind_present _⟩
  | case3 => cases h
  | case4 => cases h

theorem tidy_server {s : Server Json} (h : server v = .ok s) : s.Tidy := by
  obtain ⟨description, -, h⟩ := bind_eq_ok.1 h
  obtain ⟨specs, hspecs, h⟩ := bind_eq_ok.1 h
  obtain ⟨data, hdata, h⟩ := bind_eq_ok.1 h
  cases h
  exact ⟨forall_listOf (fun _ _ => tidy_spec) hspecs,
    forall_listOf (fun _ _ => tidy_entry) hdata⟩

theorem tidy_slice {s : Slice Json} (h : slice v = .ok s) : s.Tidy := by
  obtain ⟨behind, -, h⟩ := bind_eq_ok.1 h
  obtain ⟨front, -, h⟩ := bind_eq_ok.1 h
  obtain ⟨client, -, h⟩ := bind_eq_ok.1 h
  obtain ⟨type, -, h⟩ := bind_eq_ok.1 h
  obtain ⟨kind, -, h⟩ := bind_eq_ok.1 h
  obtain ⟨name, -, h⟩ := bind_eq_ok.1 h
  obtain ⟨server, hserver, h⟩ := bind_eq_ok.1 h
  obtain ⟨id, hid, h⟩ := bind_eq_ok.1 h
  obtain ⟨stream, hstream, h⟩ := bind_eq_ok.1 h
  obtain ⟨request, hrequest, h⟩ := bind_eq_ok.1 h
  cases h
  exact ⟨tidy_server hserver, tidy_optional hid, tidy_optional hstream, tidy_optional hrequest⟩

theorem tidy_flow {f : Flow Json} (h : flow v = .ok f) : f.Tidy := by
  obtain ⟨name, -, h⟩ := bind_eq_ok.1 h
  obtain ⟨slices, hslices, h⟩ := bind_eq_ok.1 h
  obtain ⟨id, hid, h⟩ := bind_eq_ok.1 h
  obtain ⟨description, hdescription, h⟩ := bind_eq_ok.1 h
  cases h
  exact ⟨forall_listOf (fun _ _ => tidy_slice) hslices, tidy_optional hid,
    tidy_optional hdescription⟩

theorem tidy_integrations {is : List (Integration Json)} (h : integrations v = .ok is) :
    ∀ i ∈ is, i.Tidy := by
  obtain ⟨listed, -, h⟩ := bind_eq_ok.1 h
  obtain ⟨items, -, h⟩ := bind_eq_ok.1 h
  exact forall_mapM (fun _ _ => tidy_integration) h

end Document

open Document

/-- What is read from a document is tidy. -/
theorem Model.tidy_ofJson {v : Json} (h : Model.ofJson v = .ok l) : l.Tidy := by
  obtain ⟨flows, hflows, h⟩ := bind_eq_ok.1 h
  obtain ⟨messages, hmessages, h⟩ := bind_eq_ok.1 h
  obtain ⟨integrations, hintegrations, h⟩ := bind_eq_ok.1 h
  cases h
  exact ⟨forall_listOf (fun _ _ => tidy_flow) hflows,
    forall_listOf (fun _ _ => tidy_message) hmessages, tidy_integrations hintegrations⟩

/-! ## Documents up to the order of members

The document of a part whose leaves and data are sorted is that of the part, once both are
sorted. -/

section Sorted

open Json (sorted_array sorted_object sorted_sorted)

theorem map_put_sorted (key : String) (leaf : Option Json) :
    (put key (leaf.map sorted)).map (fun m => (m.1, m.2.sorted)) =
      (put key leaf).map fun m => (m.1, m.2.sorted) := by
  cases leaf <;> simp [put, sorted_sorted]

theorem map_putValue_sorted (key : String) (v : Json) :
    (putValue key v.sorted).map (fun m => (m.1, m.2.sorted)) =
      (putValue key v).map fun m => (m.1, m.2.sorted) := by
  cases v with
  | array items => simp [Json.sorted, putValue, Json.sortedItems_sortedItems]
  | object members =>
    have h := sorted_sorted (.object members)
    simpa [Json.sorted, putValue] using h
  | _ => rfl

theorem map_putItems_sorted (key : String) (items : List Json) :
    (putItems key items).map (fun m => (m.1, m.2.sorted)) =
      putItems key (items.map sorted) := by
  cases items <;> simp [putItems, sorted_array]

/-- Parts of a list, each under its own document. -/
theorem map_toJson_sorted {encode : α → Json} {change : α → α}
    (h : ∀ x, (encode (change x)).sorted = (encode x).sorted) (xs : List α) :
    ((xs.map change).map encode).map sorted = (xs.map encode).map sorted := by
  simp only [List.map_map]
  exact List.map_congr_left fun x _ => h x

theorem Field.toJson_sorted (f : Field Json Json) :
    (f.map sorted sorted sorted).toJson.sorted = f.toJson.sorted := by
  simp [Field.toJson, Field.map, sorted_object, map_put_sorted, map_putValue_sorted, sorted_sorted]

theorem Message.toJson_sorted (m : LooseMessage) :
    (m.map sorted sorted sorted sorted).toJson.sorted = m.toJson.sorted := by
  have hfields := map_toJson_sorted Field.toJson_sorted m.fields
  simp only [Message.toJson, Message.map, sorted_object, List.map_append, List.map_cons,
    map_put_sorted, Leaf.value_json, sorted_sorted, sorted_array, hfields, List.map_nil]

theorem Integration.toJson_sorted (i : Integration Json) :
    (i.map sorted).toJson.sorted = i.toJson.sorted := by
  simp [Integration.toJson, Integration.map, sorted_object, map_put_sorted, sorted_sorted]

theorem Example.toJson_sorted (e : Example Json) :
    (e.map sorted sorted).toJson.sorted = e.toJson.sorted := by
  simp [Example.toJson, Example.map, sorted_object, sorted_sorted]

theorem Outcome.toJson_sorted (o : Outcome Json) :
    (o.map sorted sorted).toJson.sorted = o.toJson.sorted := by
  cases o with
  | message e => exact e.toJson_sorted
  | error type note =>
    simp [Outcome.toJson, Outcome.map, sorted_object, map_put_sorted]

theorem When.map_members_sorted (w : When Json) :
    (w.map sorted sorted).members.map (fun m => (m.1, m.2.sorted)) =
      w.members.map fun m => (m.1, m.2.sorted) := by
  cases w with
  | nothing => rfl
  | one e => simp [When.members, When.map, Example.toJson_sorted]
  | many es =>
    have hes := map_toJson_sorted Example.toJson_sorted es
    simp only [When.members, When.map, List.map_cons, List.map_nil, sorted_array, hes]

theorem Spec.toJson_sorted (s : Spec Json) :
    (s.map sorted sorted).toJson.sorted = s.toJson.sorted := by
  have hgiven := map_toJson_sorted Example.toJson_sorted s.given
  have houtcomes := map_toJson_sorted Outcome.toJson_sorted s.outcomes
  simp only [Spec.toJson, Spec.map, sorted_object, List.map_append, List.map_cons, List.map_nil,
    map_putItems_sorted, When.map_members_sorted, sorted_array, hgiven, houtcomes]

theorem Target.toJson_sorted (t : Target Json) :
    (t.map sorted).toJson.sorted = t.toJson.sorted := by
  simp [Target.toJson, Target.map, sorted_object, sorted_sorted]

theorem leaves_sorted (xs : List Json) : (leaves (xs.map sorted)).sorted = (leaves xs).sorted := by
  simp [leaves, sorted_array, Function.comp_def, sorted_sorted]

theorem Destination.toJson_sorted (d : Destination Json) :
    (d.map sorted).toJson.sorted = d.toJson.sorted := by
  cases d with
  | integration systems message =>
    cases message <;>
      simp [Destination.toJson, Destination.map, IntegrationMessage.toJson, IntegrationMessage.map,
        sorted_object, leaves_sorted, sorted_sorted]
  | _ => simp [Destination.toJson, Destination.map, sorted_object, sorted_sorted]

theorem Origin.toJson_sorted (o : Origin Json) :
    (o.map sorted sorted).toJson.sorted = o.toJson.sorted := by
  cases o <;>
    simp [Origin.toJson, Origin.map, sorted_object, leaves_sorted, map_put_sorted,
      map_putValue_sorted, sorted_sorted]

theorem Entry.toJson_sorted (e : Entry Json) :
    (e.map sorted sorted).toJson.sorted = e.toJson.sorted := by
  fun_induction Entry.map sorted sorted e <;>
    simp_all [Entry.toJson, sorted_object, map_put_sorted, Target.toJson_sorted,
      Origin.toJson_sorted, Destination.toJson_sorted]

theorem Client.toJson_sorted (c : Client Json) :
    (c.map sorted).toJson.sorted = c.toJson.sorted := by
  simp [Client.toJson, Client.map, sorted_object, leaves_sorted, sorted_sorted]

theorem Server.toJson_sorted (s : Server Json) :
    (s.map sorted sorted).toJson.sorted = s.toJson.sorted := by
  have hspecs := map_toJson_sorted Spec.toJson_sorted s.specs
  have hdata := map_toJson_sorted Entry.toJson_sorted s.data
  simp only [Server.toJson, Server.map, sorted_object, List.map_append, List.map_cons,
    List.map_nil, map_putItems_sorted, sorted_array, Leaf.value_json, sorted_sorted, hspecs, hdata]

theorem Slice.toJson_sorted (s : Slice Json) :
    (s.map sorted sorted).toJson.sorted = s.toJson.sorted := by
  have hclient : (Client.members (s.client.map (·.map sorted))).map
      (fun m => (m.1, m.2.sorted)) = (Client.members s.client).map fun m => (m.1, m.2.sorted) := by
    cases s.client <;> simp [Client.members, Client.toJson_sorted]
  simp [Slice.toJson, Slice.map, sorted_object, map_put_sorted, hclient, Server.toJson_sorted,
    sorted_sorted]

theorem Flow.toJson_sorted (f : Flow Json) :
    (f.map sorted sorted).toJson.sorted = f.toJson.sorted := by
  have hslices := map_toJson_sorted Slice.toJson_sorted f.slices
  simp only [Flow.toJson, Flow.map, sorted_object, List.map_append, List.map_cons, List.map_nil,
    map_put_sorted, sorted_array, Leaf.value_json, sorted_sorted, hslices]

/-- To sort the leaves first makes no difference. -/
theorem Model.toJson_sorted (m : LooseModel) :
    (m.map sorted sorted sorted sorted).toJson.sorted = m.toJson.sorted := by
  have hflows := map_toJson_sorted Flow.toJson_sorted m.flows
  have hmessages := map_toJson_sorted Message.toJson_sorted m.messages
  have hintegrations := map_toJson_sorted Integration.toJson_sorted m.integrations
  simp only [Model.toJson, Model.map, sorted_object, List.map_cons, List.map_nil, sorted_array,
    hflows, hmessages, hintegrations]

end Sorted

/-! ## Loading twice -/

namespace Document

/-- A normal form is the document of a tidy model. -/
theorem normalize_eq_ok {v n : Json} (h : normalize v = .ok n) :
    ∃ l : LooseModel, l.Tidy ∧ n = l.toJson := by
  obtain ⟨l, hl, h⟩ := bind_eq_ok.1 h
  cases h
  exact ⟨l, Model.tidy_ofJson hl, rfl⟩

theorem normalize_of_ofJson {v : Json} (h : Model.ofJson v = .ok l) :
    normalize v = .ok l.toJson := by
  rw [normalize, h]
  rfl

/-- The document of a tidy model is its own normal form. -/
theorem normalize_toJson (hl : l.Tidy) : normalize l.toJson = .ok l.toJson := by
  have kept : Kept id id Json := fun a w hw => hw
  obtain ⟨l', hl', hmap⟩ := Model.ofJson_reads Json.keepsShape_id kept kept kept hl rfl
  have hsame : l' = l := by
    rw [← Model.map_id l', ← Model.map_id l]
    exact hmap
  rw [normalize_of_ofJson hl', hsame]

/-- The order of members in the document of a tidy model is lost on a reader. -/
theorem normalize_reordered (hl : l.Tidy) {w : Json} (hw : w.Reordered l.toJson) :
    ∃ n, normalize w = .ok n ∧ n.Reordered l.toJson := by
  have kept : Kept sorted sorted Json := fun a w hw => hw
  obtain ⟨l', hl', hmap⟩ := Model.ofJson_reads Json.keepsShape_sorted kept kept kept hl hw
  refine ⟨l'.toJson, normalize_of_ofJson hl', ?_⟩
  have hsame : l'.map sorted sorted sorted sorted = l.map sorted sorted sorted sorted := hmap
  calc l'.toJson.sorted
      = (l'.map sorted sorted sorted sorted).toJson.sorted := l'.toJson_sorted.symm
    _ = (l.map sorted sorted sorted sorted).toJson.sorted := by rw [hsame]
    _ = l.toJson.sorted := l.toJson_sorted

/-- The normal form of the document in a text. -/
def ofText? (text : String) : Option Json := do
  let v ← (Json.read text).toOption
  (normalize v).toOption

/-- The text of the normal form of the document in a text. -/
def load? (text : String) : Option String := do
  let n ← ofText? text
  n.document?

theorem ofText?_eq_some {text : String} {n : Json} :
    ofText? text = some n ↔ ∃ v, Json.read text = .ok v ∧ normalize v = .ok n := by
  constructor
  · intro h
    obtain ⟨v, hv, hn⟩ := Option.bind_eq_some_iff.1 h
    exact ⟨v, toOption_eq_some hv, toOption_eq_some hn⟩
  · rintro ⟨v, hv, hn⟩
    simp [ofText?, hv, hn, Except.toOption]

theorem load?_eq_some {text text₁ : String} :
    load? text = some text₁ ↔ ∃ n, ofText? text = some n ∧ n.document? = some text₁ :=
  Option.bind_eq_some_iff

/-- **Loading is idempotent.**  Let a text be loaded, whatever its document holds: members of any
type, missing, or unknown.  If the text of the normal form reads back at all, then loading that text
gives it again, character for character.  The normal form is the document of a tidy model, and its
own normal form. -/
theorem load_idempotent {text text₁ : String} (h : load? text = some text₁)
    (hback : ∀ n, ofText? text = some n → n.ReadsBack) :
    load? text₁ = some text₁ ∧
      ∃ l : LooseModel, l.Tidy ∧ ofText? text = some l.toJson ∧
        normalize l.toJson = .ok l.toJson := by
  obtain ⟨n, hn, htext₁⟩ := load?_eq_some.1 h
  obtain ⟨v, -, hv⟩ := ofText?_eq_some.1 hn
  obtain ⟨l, hl, rfl⟩ := normalize_eq_ok hv
  obtain ⟨text₂, w, htext₂, hw, hreordered⟩ := hback _ hn
  -- the text that reads back is the one that was loaded
  obtain rfl : text₂ = text₁ := Option.some.inj (htext₂.symm.trans htext₁)
  obtain ⟨n, hn', hsame⟩ := normalize_reordered hl hreordered
  have hagain : n.document? = some text₂ := by rw [hsame.document?_eq, htext₁]
  exact ⟨load?_eq_some.2 ⟨n, ofText?_eq_some.2 ⟨w, hw, hn'⟩, hagain⟩,
    l, hl, hn, normalize_toJson hl⟩

/-- A document with a flow that has a number for its name and an object for its id, with texts and
a number in place of lists, and with a member that no document has. -/
def muddled : Json := .object
  [("messages", .text ""), ("integrations", .int 0), ("extra", .null),
    ("flows", .array [.object [("name", .number (.double .nan)), ("slices", .text ""),
      ("id", .object [("z", .number (.double (.infinite true))), ("a", .bool true)])]])]

/-- The normal form of `muddled`. -/
def unmuddled : Json := .object
  [("flows", .array [.object [("name", .number (.double .nan)),
      ("id", .object [("z", .number (.double (.infinite true))), ("a", .bool true)]),
      ("slices", .array [])]]),
    ("messages", .array []), ("integrations", .array [])]

theorem sorted_unmuddled : unmuddled.sorted = .object
    [("flows", .array [.object
        [("id", .object [("a", .bool true), ("z", .number (.double (.infinite true)))]),
          ("name", .number (.double .nan)), ("slices", .array [])]]),
      ("integrations", .array []), ("messages", .array [])] := by
  simp [unmuddled, Json.sorted, Json.sortedItems, Json.sortedMembers, Json.sortByName,
    List.mergeSort, List.MergeSort.Internal.splitInTwo]

theorem readsBack_unmuddled : unmuddled.ReadsBack := by
  refine ⟨unmuddled.writeSorted, unmuddled.sorted, if_pos (by decide +kernel), ?_,
    Json.sorted_sorted _⟩
  rw [Json.writeSorted, sorted_unmuddled]
  exact toOption_eq_some (by decide +kernel)

/-- A muddled document is set right once. -/
theorem load_idempotent_muddled :
    ofText? muddled.write = some unmuddled ∧ unmuddled.ReadsBack ∧
      load? muddled.write = some unmuddled.writeSorted ∧
      load? unmuddled.writeSorted = some unmuddled.writeSorted := by
  have hform : ofText? muddled.write = some unmuddled := by decide +kernel
  have hload : load? muddled.write = some unmuddled.writeSorted :=
    load?_eq_some.2 ⟨unmuddled, hform, if_pos (by decide +kernel)⟩
  refine ⟨hform, readsBack_unmuddled, hload, (load_idempotent hload ?_).1⟩
  intro n hn
  obtain rfl : n = unmuddled := Option.some.inj (hn.symm.trans hform)
  exact readsBack_unmuddled

end Document

end EventFlow
