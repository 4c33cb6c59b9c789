import EventFlow.Document.Decode
import EventFlow.Model.Example
import EventFlow.Proofs.Json.Reordered
import EventFlow.Proofs.Model.Map

/-! Documents give back the models that they are written for.

    ofJson (toJson m) = ok (loose m)

Members are read by name, so the same holds of a document whose members are reordered, with the
data of the model reordered as well.  Both are one statement about a map `q` of values, which is
the identity in the first case and `sorted` in the second: whatever `q` does not tell from the
document of a part is read as a part that `q` does not tell from it. -/

namespace EventFlow

namespace Json

@[simp] theorem get?_append (key : String) (ms ns : Members) :
    get? key (ms ++ ns) = (get? key ms).or (get? key ns) := by
  induction ms with
  | nil => rfl
  | cons m ms ih =>
    obtain ⟨k, v⟩ := m
    by_cases hk : k = key <;> simp [get?, hk, ih]

end Json

open Json (get? KeepsShape)

variable {τ β ν : Type} [Leaf τ] [Leaf β] [Leaf ν] {q u : Json → Json}

namespace Document

/-! ## Members as they are written -/

@[simp] theorem get?_put (key name : String) (leaf : Option τ) :
    get? key (put name leaf) = if name = key then leaf.map Leaf.value else none := by
  cases leaf <;> simp [put, get?]

@[simp] theorem get?_putValue (key name : String) (v : Json) :
    get? key (putValue name v) = if name = key then present v else none := by
  cases v <;> simp [putValue, get?, present]

@[simp] theorem get?_putItems (key name : String) (items : List Json) :
    get? key (putItems name items) =
      if name = key then if items.isEmpty then none else some (.array items) else none := by
  cases items <;> simp [putItems, get?]

/-! ## Members as they are read -/

@[simp] theorem ok_bind {α β : Type} (a : α) (k : α → Loaded β) :
    ((.ok a : Loaded α) >>= k) = k a := rfl

/-- Members that `q` does not tell apart, name by name. -/
def Like (q : Json → Json) (ns ms : Json.Members) : Prop :=
  ∀ key, (get? key ns).map q = (get? key ms).map q

/-- Leaves that `q` does not tell apart have the same image under `u`. -/
def Kept (q u : Json → Json) (τ : Type) [Leaf τ] : Prop :=
  ∀ (a : τ) (w : Json), q w = q (Leaf.value a) → u w = u (Leaf.value a)

/-- A leaf that may be left out is not null where it is given. -/
def Tidy (leaf : Option τ) : Prop := ∀ a ∈ leaf, Leaf.value a ≠ .null

variable {ns ms : Json.Members}

/-- A member is found where there is one like it. -/
theorem Like.found (h : Like q ns ms) (key : String) {v : Json} (hv : get? key ms = some v) :
    ∃ w, get? key ns = some w ∧ q w = q v := by
  have := h key
  rw [hv, Option.map_some, Option.map_eq_some_iff] at this
  exact this

theorem Like.absent (h : Like q ns ms) (key : String) (hv : get? key ms = none) :
    get? key ns = none := by
  have := h key
  rwa [hv, Option.map_none, Option.map_eq_none_iff] at this

theorem Like.required (h : Like q ns ms) (key : String) {v : Json} (hv : get? key ms = some v) :
    ∃ w, Document.required (.object ns) key = .ok w ∧ q w = q v := by
  obtain ⟨w, hw, heq⟩ := h.found key hv
  exact ⟨w, by simp [Document.required, hw], heq⟩

theorem Like.memberOr (h : Like q ns ms) (key : String) (default : Json) {v : Json}
    (hv : get? key ms = some v) :
    ∃ w, Document.memberOr (.object ns) key default = .ok w ∧ q w = q v := by
  obtain ⟨w, hw, heq⟩ := h.found key hv
  exact ⟨w, by simp [Document.memberOr, hw], heq⟩

theorem Like.memberOr_none (h : Like q ns ms) (key : String) (default : Json)
    (hv : get? key ms = none) :
    Document.memberOr (.object ns) key default = .ok default := by
  simp [Document.memberOr, h.absent key hv]

/-- A value that is left out when it is null. -/
theorem Like.value (h : Like q ns ms) (key : String) {v : Json} (hv : get? key ms = present v) :
    ∃ w, Document.memberOr (.object ns) key .null = .ok w ∧ q w = q v := by
  by_cases hnull : v = .null
  · exact ⟨.null, h.memberOr_none key .null (by rw [hv, hnull]; rfl), by rw [hnull]⟩
  · refine h.memberOr key .null ?_
    rw [hv]
    cases v <;> first | exact absurd rfl hnull | rfl

/-- A leaf that is left out when there is none. -/
theorem Like.present (hq : KeepsShape q) (hτ : Kept q u τ) (h : Like q ns ms) (key : String)
    {leaf : Option τ} (hv : get? key ms = leaf.map Leaf.value) (ht : Tidy leaf) :
    ((get? key ns).bind Document.present).map u = leaf.map (u ∘ Leaf.value) := by
  cases leaf with
  | none =>
    rw [h.absent key hv]
    rfl
  | some a =>
    obtain ⟨w, hw, heq⟩ := h.found key (v := Leaf.value a) hv
    have hnull : w ≠ .null := by
      rintro rfl
      exact ht a rfl (hq.single .null _ rfl heq.symm)
    have hpresent : Document.present w = some w := by
      cases w <;> first | exact absurd rfl hnull | rfl
    simp [hw, hpresent, hτ a w heq]

theorem optional_object (ns : Json.Members) (key : String) :
    optional (.object ns) key = .ok ((get? key ns).bind present) := by
  rw [optional, memberOr]
  cases get? key ns <;> rfl

theorem Like.optional (hq : KeepsShape q) (hτ : Kept q u τ) (h : Like q ns ms) (key : String)
    {leaf : Option τ} (hv : get? key ms = leaf.map Leaf.value) (ht : Tidy leaf) :
    ∃ found, Document.optional (.object ns) key = .ok found ∧
      found.map u = leaf.map (u ∘ Leaf.value) :=
  ⟨_, optional_object ns key, h.present hq hτ key hv ht⟩

/-- The word that says how an object is to be read. -/
theorem tag_reads (hq : KeepsShape q) {word : String} {w : Json}
    (hw : q w = q (.object (("type", .text word) :: ms))) :
    ∃ ns, w = .object ns ∧ Like q ns (("type", .text word) :: ms) ∧
      Document.memberOr (.object ns) "type" .null = .ok (.text word) := by
  obtain ⟨ns, rfl, h⟩ := hq.object _ w hw
  obtain ⟨type, htype, ht⟩ := Like.memberOr h "type" .null rfl
  rw [hq.single (.text word) type rfl ht] at htype
  exact ⟨ns, rfl, h, htype⟩

/-! ## Lists -/

section Lists

variable {ι α δ : Type} {encode : ι → Json} {decode : Json → Loaded α} {out : α → δ}
  {inside : ι → δ}

theorem mapM_reads (xs : List ι)
    (h : ∀ x ∈ xs, ∀ w, q w = q (encode x) → ∃ y, decode w = .ok y ∧ out y = inside x)
    {vs : List Json} (hvs : vs.map q = (xs.map encode).map q) :
    ∃ ys, vs.mapM decode = .ok ys ∧ ys.map out = xs.map inside := by
  induction xs generalizing vs with
  | nil =>
    obtain rfl := List.map_eq_nil_iff.1 hvs
    exact ⟨[], rfl, rfl⟩
  | cons x xs ih =>
    cases vs with
    | nil => cases hvs
    | cons v vs =>
      simp only [List.map_cons, List.cons.injEq] at hvs
      obtain ⟨y, hy, hout⟩ := h x List.mem_cons_self v hvs.1
      obtain ⟨ys, hys, houts⟩ := ih (fun z hz => h z (List.mem_cons_of_mem x hz)) hvs.2
      refine ⟨y :: ys, ?_, by rw [List.map_cons, hout, houts, List.map_cons]⟩
      rw [List.mapM_cons, hy, hys]
      rfl

theorem Like.listOf (hq : KeepsShape q) (h : Like q ns ms) (key : String) (xs : List ι)
    (hv : get? key ms = some (.array (xs.map encode)))
    (hx : ∀ x ∈ xs, ∀ w, q w = q (encode x) → ∃ y, decode w = .ok y ∧ out y = inside x) :
    ∃ ys, Document.listOf (.object ns) key decode = .ok ys ∧ ys.map out = xs.map inside := by
  obtain ⟨w, hw, heq⟩ := h.memberOr key (.array []) hv
  obtain ⟨vs, rfl, hvs⟩ := hq.array _ w heq
  obtain ⟨ys, hys, houts⟩ := mapM_reads xs hx hvs
  refine ⟨ys, ?_, houts⟩
  rw [Document.listOf, hw]
  exact hys

/-- A list that is left out when it is empty. -/
theorem Like.items (hq : KeepsShape q) (h : Like q ns ms) (key : String) (xs : List ι)
    (hv : get? key ms = if (xs.map encode).isEmpty then none else some (.array (xs.map encode)))
    (hx : ∀ x ∈ xs, ∀ w, q w = q (encode x) → ∃ y, decode w = .ok y ∧ out y = inside x) :
    ∃ ys, Document.listOf (.object ns) key decode = .ok ys ∧ ys.map out = xs.map inside := by
  cases xs with
  | nil =>
    have hnone := h.memberOr_none key (.array []) (by simpa using hv)
    exact ⟨[], by rw [Document.listOf, hnone]; rfl, rfl⟩
  | cons x xs => exact h.listOf hq key (x :: xs) (by simpa using hv) hx

end Lists

theorem map_leaves (hτ : Kept q u τ) {xs : List τ} {vs : List Json}
    (h : vs.map q = (xs.map Leaf.value).map q) : vs.map u = xs.map (u ∘ Leaf.value) := by
  induction xs generalizing vs with
  | nil =>
    obtain rfl := List.map_eq_nil_iff.1 h
    rfl
  | cons x xs ih =>
    cases vs with
    | nil => cases h
    | cons v vs =>
      simp only [List.map_cons, List.cons.injEq] at h
      rw [List.map_cons, List.map_cons, hτ x v h.1, ih h.2]
      rfl

theorem oneOf_reads (hq : KeepsShape q) {α : Type} {enumeration : String}
    {ofWord? : String → Option α} {word : String} {x : α} (hx : ofWord? word = some x) {w : Json}
    (hw : q w = q (.text word)) : oneOf enumeration ofWord? w = .ok x := by
  rw [hq.single (.text word) w rfl hw]
  simp [oneOf, Json.text?, hx]

end Document

/-! ## Parts whose optional leaves are there -/

section Tidy

open Document (Tidy)

def Field.Tidy (f : Field τ β) : Prop := Document.Tidy f.description

structure Message.Tidy (m : Message τ β ν) : Prop where
  description : Document.Tidy m.description
  fields : ∀ f ∈ m.fields, f.Tidy

def Integration.Tidy (i : Integration τ) : Prop := Document.Tidy i.description

def Outcome.Tidy : Outcome τ → Prop
  | .message _ => True
  | .error _ note => Document.Tidy note

def Spec.Tidy (s : Spec τ) : Prop := ∀ o ∈ s.outcomes, o.Tidy

def Origin.Tidy : Origin τ → Prop
  | .api _ method => Document.Tidy method
  | _ => True

def Entry.Tidy : Entry τ → Prop
  | .source _ origin instructions => origin.Tidy ∧ Document.Tidy instructions
  | .sink _ _ none instructions => Document.Tidy instructions
  | .sink _ _ (some state) instructions => state.Tidy ∧ Document.Tidy instructions

structure Server.Tidy (s : Server τ) : Prop where
  specs : ∀ b ∈ s.specs, b.Tidy
  data : ∀ e ∈ s.data, e.Tidy

structure Slice.Tidy (s : Slice τ) : Prop where
  server : s.server.Tidy
  id : Document.Tidy s.id
  stream : Document.Tidy s.stream
  request : Document.Tidy s.request

structure Flow.Tidy (f : Flow τ) : Prop where
  slices : ∀ s ∈ f.slices, s.Tidy
  id : Document.Tidy f.id
  description : Document.Tidy f.description

structure Model.Tidy (m : Model τ β ν) : Prop where
  flows : ∀ f ∈ m.flows, f.Tidy
  messages : ∀ n ∈ m.messages, n.Tidy
  integrations : ∀ i ∈ m.integrations, i.Tidy

end Tidy

namespace Document

section Parts

variable {w : Json} (hq : KeepsShape q) (hτ : Kept q u τ)

include hq hτ

/-! ## Messages and integrations -/

theorem field_reads (hβ : Kept q u β) {f : Field τ β} (hf : f.Tidy) (hw : q w = q f.toJson) :
    ∃ g, field w = .ok g ∧ g.map u u q = f.map (u ∘ Leaf.value) (u ∘ Leaf.value) q := by
  obtain ⟨ns, rfl, h⟩ := hq.object _ w hw
  obtain ⟨name, hname, hn⟩ := Like.required h "name" rfl
  obtain ⟨type, htype, ht⟩ := Like.required h "type" rfl
  obtain ⟨needed, hneeded, hr⟩ := Like.memberOr h "required" (.bool true) rfl
  obtain ⟨description, hdescription, hd⟩ := Like.optional hq hτ h "description"
    (by simp [get?]) hf
  obtain ⟨value, hvalue, hv⟩ := Like.value h "defaultValue" (v := f.default)
    (by simp [get?])
  refine ⟨⟨name, type, needed, description, value⟩, ?_, ?_⟩
  · simp [field, hname, htype, hneeded, hdescription, hvalue]
  · simp [Field.map, hτ _ _ hn, hτ _ _ ht, hβ _ _ hr, hd, hv]

theorem message_reads (hβ : Kept q u β) (hν : Kept q u ν) {m : Message τ β ν} (hm : m.Tidy)
    (hw : q w = q m.toJson) :
    ∃ n, message w = .ok n ∧
      n.map u u u q = m.map (u ∘ Leaf.value) (u ∘ Leaf.value) (u ∘ Leaf.value) q := by
  obtain ⟨ns, rfl, h⟩ := hq.object _ w hw
  obtain ⟨metadata, hmetadata, hd⟩ := Like.memberOr h "metadata" .null rfl
  obtain ⟨name, hname, hn⟩ := Like.required h "name" rfl
  obtain ⟨type, htype, ht⟩ := Like.required h "type" rfl
  have hkind : oneOf "MessageKind" MessageKind.ofWord? type = .ok m.kind :=
    oneOf_reads hq (by cases m.kind <;> rfl) ht
  obtain ⟨fields, hfields, hf⟩ := Like.listOf hq h "fields" m.fields rfl
    fun f hf w hw => field_reads hq hτ hβ (hm.fields f hf) hw
  obtain ⟨description, hdescription, hs⟩ := Like.optional hq hτ h "description"
    (by simp [get?]) hm.description
  -- the metadata are an object with a version, so they do not count as nothing
  obtain ⟨inner, rfl, hinner⟩ := hq.object _ metadata hd
  obtain ⟨version, hversion, hv⟩ := Like.memberOr hinner "version" (.int 1) rfl
  have hfull : orEmpty (.object inner) = .object inner := by
    obtain ⟨v, hfound, -⟩ := Like.found hinner "version" rfl
    cases inner with
    | nil => cases hfound
    | cons m inner => rfl
  refine ⟨⟨name, m.kind, fields, description, version⟩, ?_, ?_⟩
  · simp [message, hmetadata, hname, htype, hkind, hfields, hdescription, hfull, hversion]
  · simp [Message.map, hτ _ _ hn, hf, hs, hν _ _ hv]

theorem integration_reads {i : Integration τ} (hi : i.Tidy) (hw : q w = q i.toJson) :
    ∃ j, integration w = .ok j ∧ j.map u = i.map (u ∘ Leaf.value) := by
  obtain ⟨ns, rfl, h⟩ := hq.object _ w hw
  obtain ⟨name, hname, hn⟩ := Like.required h "name" rfl
  obtain ⟨source, hsource, hs⟩ := Like.required h "source" rfl
  obtain ⟨description, hdescription, hd⟩ := Like.optional hq hτ h "description"
    (by simp [get?]) hi
  refine ⟨⟨name, source, description⟩, ?_, ?_⟩
  · simp [integration, hname, hsource, hdescription]
  · simp [Integration.map, hτ _ _ hn, hτ _ _ hs, hd]

/-! ## Blocks of examples -/

theorem exampleOf_reads {e : Example τ} (hw : q w = q e.toJson) :
    ∃ f, exampleOf w = .ok f ∧ f.map u q = e.map (u ∘ Leaf.value) q := by
  obtain ⟨ns, rfl, h⟩ := hq.object _ w hw
  obtain ⟨ref, href, hr⟩ := Like.required h "ref" rfl
  obtain ⟨data, hdata, hd⟩ := Like.memberOr h "exampleData" (.object []) rfl
  refine ⟨⟨ref, data⟩, ?_, ?_⟩
  · simp [exampleOf, href, hdata]
  · simp [Example.map, hτ _ _ hr, hd]

theorem outcome_reads {o : Outcome τ} (ho : o.Tidy) (hw : q w = q o.toJson) :
    ∃ p, outcome w = .ok p ∧ p.map u q = o.map (u ∘ Leaf.value) q := by
  cases o with
  | message e =>
    obtain ⟨f, hf, hmap⟩ := exampleOf_reads hq hτ hw
    obtain ⟨ns, rfl, h⟩ := hq.object _ w hw
    have hnone : get? "errorType" ns = none := Like.absent h "errorType" rfl
    refine ⟨.message f, ?_, ?_⟩
    · simp [outcome, hnone, hf]
    · simp only [Outcome.map, hmap]
  | error type note =>
    obtain ⟨ns, rfl, h⟩ := hq.object _ w hw
    obtain ⟨word, hword, hd⟩ := Like.found h "errorType" rfl
    have htype : oneOf "ErrorType" ErrorType.ofWord? word = .ok type :=
      oneOf_reads hq (by cases type <;> rfl) hd
    obtain ⟨message, hmessage, hm⟩ := Like.optional hq hτ h "message"
      (by simp [get?]) ho
    refine ⟨.error type message, ?_, ?_⟩
    · simp [outcome, hword, htype, hmessage]
    · simp only [Outcome.map, hm]

theorem spec_reads {s : Spec τ} (hs : s.Tidy) (hw : q w = q s.toJson) :
    ∃ t, spec w = .ok t ∧ t.map u q = s.map (u ∘ Leaf.value) q := by
  obtain ⟨ns, rfl, h⟩ := hq.object _ w hw
  have hstart : ∃ start t, memberOr (.object ns) "when" .null = .ok start ∧
      whenOf start = .ok t ∧ t.map u q = s.when.map (u ∘ Leaf.value) q := by
    cases hwhen : s.when with
    | nothing =>
      have hnone := Like.memberOr_none h "when" .null
        (by simp [get?, hwhen, When.members])
      exact ⟨_, _, hnone, rfl, rfl⟩
    | one e =>
      obtain ⟨start, hstart, hv⟩ := Like.memberOr h "when" .null (v := e.toJson)
        (by simp [get?, hwhen, When.members])
      obtain ⟨f, hf, hmap⟩ := exampleOf_reads hq hτ hv
      obtain ⟨inner, rfl, -⟩ := hq.object _ start hv
      refine ⟨_, .one f, hstart, ?_, by simp only [When.map, hmap]⟩
      simp [whenOf, hf]
    | many es =>
      obtain ⟨start, hstart, hv⟩ :=
        Like.memberOr h "when" .null (v := .array (es.map Example.toJson))
        (by simp [get?, hwhen, When.members])
      obtain ⟨vs, rfl, hvs⟩ := hq.array _ start hv
      obtain ⟨fs, hfs, hmap⟩ :=
        mapM_reads es (fun e _ w hw => exampleOf_reads hq hτ (e := e) hw) hvs
      refine ⟨_, .many fs, hstart, ?_, by simp only [When.map, hmap]⟩
      simp [whenOf, hfs]
  obtain ⟨start, t, hmember, hwhen, ht⟩ := hstart
  have hmembers : ∀ key, key ≠ "when" → get? key s.when.members = none := by
    intro key hkey
    cases s.when <;> simp [When.members, get?, Ne.symm hkey]
  obtain ⟨outcomes, houtcomes, ho⟩ := Like.listOf hq h "then" s.outcomes
    (by simp [get?, hmembers])
    fun o ho w hw => outcome_reads hq hτ (hs o ho) hw
  obtain ⟨given, hgiven, hg⟩ := Like.items hq h "given" s.given
    (by simp [get?, hmembers])
    fun e _ w hw => exampleOf_reads hq hτ (e := e) hw
  refine ⟨⟨given, t, outcomes⟩, ?_, ?_⟩
  · simp [spec, hmember, hwhen, houtcomes, hgiven]
  · simp only [Spec.map, hg, ht, ho]

/-! ## Pipelines -/

theorem target_reads {t : Target τ} (hw : q w = q t.toJson) :
    ∃ s, target w = .ok s ∧ s.map u = t.map (u ∘ Leaf.value) := by
  obtain ⟨ns, rfl, h⟩ := hq.object _ w hw
  obtain ⟨type, htype, ht⟩ := Like.required h "type" rfl
  obtain ⟨name, hname, hn⟩ := Like.required h "name" rfl
  have hkind : targetKind type = .ok t.kind := by
    rw [hq.single _ type rfl ht]
    cases t.kind <;> rfl
  refine ⟨⟨t.kind, name⟩, ?_, ?_⟩
  · simp [target, htype, hkind, hname]
  · simp [Target.map, hτ _ _ hn]

theorem integrationMessage_reads {m : IntegrationMessage τ} (hw : q w = q m.toJson) :
    ∃ n, integrationMessage w = .ok (some n) ∧ n.map u = m.map (u ∘ Leaf.value) := by
  obtain ⟨ns, rfl, h⟩ := hq.object _ w hw
  obtain ⟨name, hname, hn⟩ := Like.required h "name" rfl
  obtain ⟨type, htype, ht⟩ := Like.required h "type" rfl
  refine ⟨⟨name, type⟩, ?_, ?_⟩
  · simp [integrationMessage, hname, htype]
  · simp [IntegrationMessage.map, hτ _ _ hn, hτ _ _ ht]

theorem systems_reads {ns ms : Json.Members} (h : Like q ns ms) {systems : List τ}
    (hv : get? "systems" ms = some (leaves systems)) :
    ∃ w vs, required (.object ns) "systems" = .ok w ∧ itemsOf w = .ok vs ∧
      vs.map u = systems.map (u ∘ Leaf.value) := by
  obtain ⟨w, hw, hs⟩ := Like.required h "systems" hv
  obtain ⟨vs, rfl, hvs⟩ := hq.array _ w hs
  exact ⟨_, vs, hw, rfl, map_leaves hτ hvs⟩

theorem destination_reads {d : Destination τ} (hw : q w = q d.toJson) :
    ∃ e, destination w = .ok e ∧ e.map u = d.map (u ∘ Leaf.value) := by
  cases d with
  | stream pattern =>
    obtain ⟨ns, rfl, h, htype⟩ := tag_reads hq hw
    obtain ⟨v, hv, heq⟩ := Like.required h "pattern" rfl
    refine ⟨.stream v, ?_, by simp [Destination.map, hτ _ _ heq]⟩
    simp [destination, htype, hv]
  | integration systems message =>
    cases message with
    | none =>
      obtain ⟨ns, rfl, h, htype⟩ := tag_reads hq hw
      have hmessage := Like.memberOr_none h "message" .null rfl
      obtain ⟨v, vs, hv, hvs, hmap⟩ := systems_reads hq hτ h rfl
      refine ⟨.integration vs none, ?_, by simp only [Destination.map, hmap, Option.map_none]⟩
      simp [destination, htype, hmessage, integrationMessage, hv, hvs]
    | some m =>
      obtain ⟨ns, rfl, h, htype⟩ := tag_reads hq hw
      obtain ⟨x, hx, hxeq⟩ := Like.memberOr h "message" .null rfl
      obtain ⟨n, hn, hnmap⟩ := integrationMessage_reads hq hτ hxeq
      obtain ⟨v, vs, hv, hvs, hmap⟩ := systems_reads hq hτ h rfl
      refine ⟨.integration vs (some n), ?_, by
        simp only [Destination.map, hmap, Option.map_some, hnmap]⟩
      simp [destination, htype, hx, hn, hv, hvs]
  | database collection =>
    obtain ⟨ns, rfl, h, htype⟩ := tag_reads hq hw
    obtain ⟨v, hv, heq⟩ := Like.required h "collection" rfl
    refine ⟨.database v, ?_, by simp [Destination.map, hτ _ _ heq]⟩
    simp [destination, htype, hv]
  | topic name =>
    obtain ⟨ns, rfl, h, htype⟩ := tag_reads hq hw
    obtain ⟨v, hv, heq⟩ := Like.required h "name" rfl
    refine ⟨.topic v, ?_, by simp [Destination.map, hτ _ _ heq]⟩
    simp [destination, htype, hv]

theorem origin_reads {o : Origin τ} (ho : o.Tidy) (hw : q w = q o.toJson) :
    ∃ p, origin w = .ok p ∧ p.map u q = o.map (u ∘ Leaf.value) q := by
  cases o with
  | projection name idField =>
    obtain ⟨ns, rfl, h, htype⟩ := tag_reads hq hw
    obtain ⟨v, hv, heq⟩ := Like.required h "name" rfl
    obtain ⟨x, hx, hxeq⟩ := Like.required h "idField" rfl
    refine ⟨.projection v x, ?_, by
      simp [Origin.map, hτ _ _ heq, hτ _ _ hxeq]⟩
    simp [origin, htype, hv, hx]
  | readModel name =>
    obtain ⟨ns, rfl, h, htype⟩ := tag_reads hq hw
    obtain ⟨v, hv, heq⟩ := Like.required h "name" rfl
    refine ⟨.readModel v, ?_, by simp [Origin.map, hτ _ _ heq]⟩
    simp [origin, htype, hv]
  | database collection query =>
    obtain ⟨ns, rfl, h, htype⟩ := tag_reads hq hw
    obtain ⟨v, hv, heq⟩ := Like.required h "collection" rfl
    obtain ⟨x, hx, hxeq⟩ := Like.value h "query" (v := query) (by simp [get?])
    refine ⟨.database v x, ?_, by simp [Origin.map, hτ _ _ heq, hxeq]⟩
    simp [origin, htype, hv, hx]
  | api endpoint method =>
    obtain ⟨ns, rfl, h, htype⟩ := tag_reads hq hw
    obtain ⟨v, hv, heq⟩ := Like.required h "endpoint" rfl
    obtain ⟨x, hx, hxmap⟩ := Like.optional hq hτ h "method" (by simp [get?]) ho
    refine ⟨.api v x, ?_, by simp [Origin.map, hτ _ _ heq, hxmap]⟩
    simp [origin, htype, hv, hx]
  | integration systems =>
    obtain ⟨ns, rfl, h, htype⟩ := tag_reads hq hw
    obtain ⟨v, vs, hv, hvs, hmap⟩ := systems_reads hq hτ h rfl
    refine ⟨.integration vs, ?_, by simp only [Origin.map, hmap]⟩
    simp [origin, htype, hv, hvs]

/-- By induction on the states that are looked up. -/
theorem entry_reads {e : Entry τ} (he : e.Tidy) (hw : q w = q e.toJson) :
    ∃ f, entry w = .ok f ∧ f.map u q = e.map (u ∘ Leaf.value) q := by
  fun_induction Entry.toJson e generalizing w with
  | case1 t o i =>
    obtain ⟨ns, rfl, h⟩ := hq.object _ w hw
    obtain ⟨about, habout, ha⟩ := Like.required h "target" rfl
    obtain ⟨t', ht, htmap⟩ := target_reads hq hτ ha
    obtain ⟨from_, hfrom, hf⟩ := Like.found h "origin" rfl
    obtain ⟨o', ho, homap⟩ := origin_reads hq hτ he.1 hf
    have hdest : get? "destination" ns = none :=
      Like.absent h "destination" (by simp [get?])
    have hi := Like.present hq hτ h "_additionalInstructions" (by simp [get?]) he.2
    refine ⟨.source t' o' ((get? "_additionalInstructions" ns).bind present), ?_, ?_⟩
    · rw [entry]
      simp [hdest, hfrom, habout, ht, ho]
    · simp only [Entry.map, htmap, homap, hi]
  | case2 t d i =>
    obtain ⟨ns, rfl, h⟩ := hq.object _ w hw
    obtain ⟨about, habout, ha⟩ := Like.required h "target" rfl
    obtain ⟨t', ht, htmap⟩ := target_reads hq hτ ha
    obtain ⟨dest, hdest, hd⟩ := Like.found h "destination" rfl
    obtain ⟨d', hd', hdmap⟩ := destination_reads hq hτ hd
    have hstate : get? "_withState" ns = none :=
      Like.absent h "_withState" (by simp [get?])
    have hi := Like.present hq hτ h "_additionalInstructions" (by simp [get?]) he
    refine ⟨.sink t' d' none ((get? "_additionalInstructions" ns).bind present), ?_, ?_⟩
    · rw [entry]
      simp [hdest, habout, ht, hd']
      split
      · rfl
      · rfl
      · next hsome => rw [hstate] at hsome; cases hsome
    · simp only [Entry.map, htmap, hdmap, hi]
  | case3 t d s i ih =>
    obtain ⟨ns, rfl, h⟩ := hq.object _ w hw
    obtain ⟨about, habout, ha⟩ := Like.required h "target" rfl
    obtain ⟨t', ht, htmap⟩ := target_reads hq hτ ha
    obtain ⟨dest, hdest, hd⟩ := Like.found h "destination" rfl
    obtain ⟨d', hd', hdmap⟩ := destination_reads hq hτ hd
    obtain ⟨state, hstate, hs⟩ := Like.found h "_withState" rfl
    obtain ⟨s', hs', hsmap⟩ := ih he.1 hs
    have hi := Like.present hq hτ h "_additionalInstructions" (by simp [get?]) he.2
    refine ⟨.sink t' d' (some s') ((get? "_additionalInstructions" ns).bind present), ?_, ?_⟩
    · rw [entry]
      simp [hdest, habout, ht, hd']
      split
      · next hnone => rw [hstate] at hnone; cases hnone
      · next hnull =>
        rw [hstate] at hnull
        cases hnull
        simp [entry] at hs'
      · next found _ hsome =>
        rw [hstate] at hsome
        cases hsome
        rw [hs']
        rfl
    · simp only [Entry.map, htmap, hdmap, hsmap, hi]

/-! ## Slices, flows and models -/

theorem client_reads {c : Client τ} (hw : q w = q c.toJson) :
    ∃ d, client w = .ok (some d) ∧ d.map u = c.map (u ∘ Leaf.value) := by
  obtain ⟨ns, rfl, h⟩ := hq.object _ w hw
  obtain ⟨description, hdescription, hd⟩ := Like.memberOr h "description" (.text "") rfl
  obtain ⟨specs, hspecs, hs⟩ := Like.listOf hq h "specs" c.specs rfl
    fun x _ w hw => ⟨w, (rfl : (pure w : Loaded Json) = .ok w), hτ x w hw⟩
  refine ⟨⟨description, specs⟩, ?_, ?_⟩
  · simp only [client, hdescription, hspecs, bind, Except.bind]
    rfl
  · simp [Client.map, hτ _ _ hd, hs]

theorem server_reads {s : Server τ} (hs : s.Tidy) (hw : q w = q s.toJson) :
    ∃ t, server (orEmpty w) = .ok t ∧ t.map u q = s.map (u ∘ Leaf.value) q := by
  obtain ⟨ns, rfl, h⟩ := hq.object _ w hw
  obtain ⟨description, hdescription, hd⟩ := Like.memberOr h "description" (.text "") rfl
  obtain ⟨specs, hspecs, hsmap⟩ := Like.listOf hq h "gwt" s.specs rfl
    fun b hb w hw => spec_reads hq hτ (hs.specs b hb) hw
  obtain ⟨data, hdata, hdmap⟩ := Like.items hq h "data" s.data (by simp [get?])
    fun e he w hw => entry_reads hq hτ (hs.data e he) hw
  have hfull : orEmpty (.object ns) = .object ns := by
    obtain ⟨v, hfound, -⟩ := Like.found h "description" rfl
    cases ns with
    | nil => cases hfound
    | cons m ns => rfl
  refine ⟨⟨description, specs, data⟩, ?_, ?_⟩
  · simp [hfull, server, hdescription, hspecs, hdata]
  · simp [Server.map, hτ _ _ hd, hsmap, hdmap]

theorem slice_reads {s : Slice τ} (hs : s.Tidy) (hw : q w = q s.toJson) :
    ∃ t, slice w = .ok t ∧ t.map u q = s.map (u ∘ Leaf.value) q := by
  obtain ⟨ns, rfl, h⟩ := hq.object _ w hw
  have hclient : ∀ key, key ≠ "client" → get? key (Client.members s.client) = none := by
    intro key hkey
    cases s.client <;> simp [Client.members, get?, Ne.symm hkey]
  obtain ⟨behind, hbehind, hb⟩ := Like.memberOr h "server" .null (v := s.server.toJson)
    (by simp [get?, hclient])
  obtain ⟨server, hserver, hsmap⟩ := server_reads hq hτ hs.server hb
  have hfront : ∃ front c, memberOr (.object ns) "client" .null = .ok front ∧
      client front = .ok c ∧ c.map (·.map u) = s.client.map (·.map (u ∘ Leaf.value)) := by
    cases hc : s.client with
    | none =>
      have hnone := Like.memberOr_none h "client" .null
        (by simp [get?, hc, Client.members])
      exact ⟨_, none, hnone, rfl, rfl⟩
    | some c =>
      obtain ⟨front, hfront, hf⟩ := Like.memberOr h "client" .null (v := c.toJson)
        (by simp [get?, hc, Client.members])
      obtain ⟨d, hd, hmap⟩ := client_reads hq hτ hf
      exact ⟨front, some d, hfront, hd, by rw [Option.map_some, hmap, Option.map_some]⟩
  obtain ⟨front, c, hfront, hc, hcmap⟩ := hfront
  obtain ⟨type, htype, ht⟩ := Like.required h "type" rfl
  have hkind : oneOf "SliceKind" SliceKind.ofWord? type = .ok s.kind :=
    oneOf_reads hq (by cases s.kind <;> rfl) ht
  obtain ⟨name, hname, hn⟩ := Like.required h "name" rfl
  obtain ⟨id, hid, hi⟩ := Like.optional hq hτ h "id"
    (by simp [get?, hclient]) hs.id
  obtain ⟨stream, hstream, hst⟩ := Like.optional hq hτ h "stream"
    (by simp [get?, hclient]) hs.stream
  obtain ⟨request, hrequest, hr⟩ := Like.optional hq hτ h "request"
    (by simp [get?, hclient]) hs.request
  refine ⟨⟨s.kind, name, server, id, stream, c, request⟩, ?_, ?_⟩
  · simp [slice, hbehind, hfront, hc, htype, hkind, hname, hserver, hid, hstream, hrequest]
  · simp [Slice.map, hτ _ _ hn, hsmap, hi, hst, hcmap, hr]

theorem flow_reads {f : Flow τ} (hf : f.Tidy) (hw : q w = q f.toJson) :
    ∃ g, flow w = .ok g ∧ g.map u q = f.map (u ∘ Leaf.value) q := by
  obtain ⟨ns, rfl, h⟩ := hq.object _ w hw
  obtain ⟨name, hname, hn⟩ := Like.required h "name" rfl
  obtain ⟨slices, hslices, hs⟩ := Like.listOf hq h "slices" f.slices
    (by simp [get?])
    fun s hs w hw => slice_reads hq hτ (hf.slices s hs) hw
  obtain ⟨id, hid, hi⟩ := Like.optional hq hτ h "id"
    (by simp [get?]) hf.id
  obtain ⟨description, hdescription, hd⟩ := Like.optional hq hτ h "description"
    (by simp [get?]) hf.description
  refine ⟨⟨name, slices, id, description⟩, ?_, ?_⟩
  · simp [flow, hname, hslices, hid, hdescription]
  · simp [Flow.map, hτ _ _ hn, hs, hi, hd]

theorem integrations_reads {ns ms : Json.Members} (h : Like q ns ms) (is : List (Integration τ))
    (hv : get? "integrations" ms = some (.array (is.map Integration.toJson)))
    (hi : ∀ i ∈ is, i.Tidy) :
    ∃ js, integrations (.object ns) = .ok js ∧
      js.map (·.map u) = is.map (·.map (u ∘ Leaf.value)) := by
  obtain ⟨w, hw, heq⟩ := Like.memberOr h "integrations" .null hv
  obtain ⟨vs, rfl, hvs⟩ := hq.array _ w heq
  obtain ⟨js, hjs, hmap⟩ :=
    mapM_reads is (fun i hmem w hw => integration_reads hq hτ (hi i hmem) hw) hvs
  have hlisted : (if (Json.array vs).isVoid then .array [] else .array vs) = Json.array vs := by
    cases vs <;> rfl
  refine ⟨js, ?_, hmap⟩
  rw [integrations, hw]
  show (itemsOf (if (Json.array vs).isVoid then .array [] else .array vs)).bind _ = _
  rw [hlisted]
  exact hjs

end Parts

end Document

open Document

/-- A document that `q` does not tell from the one of a model is read as a model that `q` does not
tell from it. -/
theorem Model.ofJson_reads (hq : KeepsShape q) (hτ : Kept q u τ) (hβ : Kept q u β)
    (hν : Kept q u ν) {m : Model τ β ν} (hm : m.Tidy) {w : Json} (hw : q w = q m.toJson) :
    ∃ l, Model.ofJson w = .ok l ∧
      l.map u u u q = m.map (u ∘ Leaf.value) (u ∘ Leaf.value) (u ∘ Leaf.value) q := by
  obtain ⟨ns, rfl, h⟩ := hq.object _ w hw
  obtain ⟨flows, hflows, hf⟩ := Like.listOf hq h "flows" m.flows rfl
    fun f hf w hw => flow_reads hq hτ (hm.flows f hf) hw
  obtain ⟨messages, hmessages, hn⟩ := Like.listOf hq h "messages" m.messages rfl
    fun n hn w hw => message_reads hq hτ hβ hν (hm.messages n hn) hw
  obtain ⟨integrations, hintegrations, hi⟩ := integrations_reads hq hτ h m.integrations rfl
    hm.integrations
  refine ⟨⟨flows, messages, integrations⟩, ?_, ?_⟩
  · simp [Model.ofJson, hflows, hmessages, hintegrations]
  · simp only [Model.map, hf, hn, hi]

/-! ## Models over texts -/

theorem Document.tidy_text (leaf : Option String) : Tidy leaf := by
  intro a _ h
  cases h

theorem Entry.tidy_texts (e : Entry) : e.Tidy := by
  fun_induction Entry.Tidy e with
  | case1 _ origin _ =>
    refine ⟨?_, tidy_text _⟩
    cases origin <;> first | exact tidy_text _ | trivial
  | case2 => exact tidy_text _
  | case3 _ _ _ _ ih => exact ⟨ih, tidy_text _⟩

theorem Slice.tidy_texts (s : Slice) : s.Tidy where
  server := by
    refine ⟨fun b _ o _ => ?_, fun e _ => e.tidy_texts⟩
    cases o <;> first | exact tidy_text _ | trivial
  id := tidy_text _
  stream := tidy_text _
  request := tidy_text _

theorem Model.tidy_texts (m : Model) : m.Tidy where
  flows _ _ := ⟨fun s _ => s.tidy_texts, tidy_text _, tidy_text _⟩
  messages _ _ := ⟨tidy_text _, fun _ _ => tidy_text _⟩
  integrations _ _ := tidy_text _

theorem Document.kept_of_single (hq : KeepsShape q) (h : ∀ a : τ, (Leaf.value a).isSingle = true) :
    Kept q id τ :=
  fun a w hw => hq.single _ w (h a) hw

/-- A document that `q` does not tell from the one of a model over texts is read as the model, up to
what `q` does to the data. -/
theorem Model.ofJson_of_keepsShape (hq : KeepsShape q) (m : Model) {w : Json}
    (hw : q w = q m.toJson) :
    ∃ l, Model.ofJson w = .ok l ∧ l.map id id id q = m.map Leaf.value Leaf.value Leaf.value q :=
  Model.ofJson_reads hq (kept_of_single hq fun _ => rfl) (kept_of_single hq fun _ => rfl)
    (kept_of_single hq fun _ => rfl) m.tidy_texts hw

/-- A model is read from its document as it is. -/
theorem Model.ofJson_toJson (m : Model) : Model.ofJson m.toJson = .ok m.loose := by
  obtain ⟨l, hl, hmap⟩ := Model.ofJson_of_keepsShape Json.keepsShape_id m rfl
  rw [hl, ← Model.map_id l, hmap]
  rfl

/-- Equal but for the order of members in the data of examples, queries and defaults. -/
def Model.Reordered {τ' β' ν' : Type} [Leaf τ'] [Leaf β'] [Leaf ν'] (a : Model τ β ν)
    (b : Model τ' β' ν') : Prop :=
  a.map Leaf.value Leaf.value Leaf.value Json.sorted =
    b.map Leaf.value Leaf.value Leaf.value Json.sorted

/-- The order of members is lost in the data, and nowhere else. -/
theorem Model.ofJson_reordered (m : Model) {v : Json} (hv : v.Reordered m.toJson) :
    ∃ l, Model.ofJson v = .ok l ∧ l.Reordered m :=
  Model.ofJson_of_keepsShape Json.keepsShape_sorted m hv

/-- **Documents are lossless.**  A model is read from its document as it is, so no two models have
one document.  If the texts of the documents can be read back at all, a model is read from the text
of its document as it is but for the order of members in its data, and two models with one text
differ in nothing else. -/
theorem Model.ofJson_lossless (m : Model) :
    Model.ofJson m.toJson = .ok m.loose ∧ (∀ m' : Model, m'.toJson = m.toJson → m' = m) ∧
    (m.toJson.ReadsBack → ∃ text v l, m.toJson.document? = some text ∧ Json.read text = .ok v ∧
      Model.ofJson v = .ok l ∧ l.Reordered m) ∧
    ∀ (m' : Model) (text : String), m.toJson.ReadsBack → m'.toJson.ReadsBack →
      m.toJson.document? = some text → m'.toJson.document? = some text → m'.Reordered m := by
  refine ⟨m.ofJson_toJson, ?_, ?_, ?_⟩
  · intro m' h
    have hloose := m'.ofJson_toJson
    rw [h, m.ofJson_toJson] at hloose
    exact Model.loose_injective (Except.ok.inj hloose).symm
  · rintro ⟨text, v, htext, hread, hv⟩
    obtain ⟨l, hl, hreordered⟩ := m.ofJson_reordered hv
    exact ⟨text, v, l, htext, hread, hl, hreordered⟩
  · rintro m' text ⟨text₁, v, htext, hread, hv⟩ ⟨text₂, v', htext', hread', hv'⟩ h h'
    -- both texts are the same, so both models are read from the same value
    have hsame : some text₁ = some text₂ := by rw [← htext, h, ← h', htext']
    obtain rfl := Option.some.inj hsame
    rw [hread] at hread'
    cases hread'
    obtain ⟨l, hl, hreordered⟩ := m.ofJson_reordered hv
    obtain ⟨l', hl', hreordered'⟩ := m'.ofJson_reordered hv'
    rw [hl] at hl'
    cases hl'
    exact hreordered'.symm.trans hreordered

/-- An inventory comes back from the text of its document. -/
theorem Model.ofJson_lossless_items :
    items.toJson.ReadsBack ∧ ∃ text v l, items.toJson.document? = some text ∧
      Json.read text = .ok v ∧ Model.ofJson v = .ok l ∧ l.Reordered items := by
  have h : items.toJson.ReadsBack := Json.readsBack_of_isExact (by decide +kernel)
  exact ⟨h, (Model.ofJson_lossless items).2.2.1 h⟩

end EventFlow
