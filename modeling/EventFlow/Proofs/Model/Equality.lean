import EventFlow.Proofs.Json.Meaning
import EventFlow.Proofs.Model.Map
import EventFlow.Proofs.Model.Report
import EventFlow.Proofs.Project.Merge

/-! Models are the same just if they have the same contents under each name.

The data in a model are brought to their normal form, and what has a name is put in its order:

    a.same b  ↔  a.meaning = b.meaning

A member of an object is looked up by its name, so a value that has a name twice in one object is
not the same as itself: the data are keyed, as those of a mapping are. -/

namespace EventFlow

/-! ## Parts of a model -/

theorem sameAll_iff {α γ : Type} {same : α → α → Bool} {f : α → γ} {as bs : List α}
    (h : ∀ a ∈ as, ∀ b ∈ bs, (same a b = true ↔ f a = f b)) :
    sameAll same as bs = true ↔ as.map f = bs.map f := by
  induction as generalizing bs with
  | nil => cases bs <;> simp [sameAll]
  | cons a as ih =>
    cases bs with
    | nil => simp [sameAll]
    | cons b bs =>
      have hhead := h a List.mem_cons_self b List.mem_cons_self
      have htail := ih fun x hx y hy =>
        h x (List.mem_cons_of_mem a hx) y (List.mem_cons_of_mem b hy)
      rw [sameAll, Bool.and_eq_true, hhead, htail, List.map_cons, List.map_cons, List.cons.injEq]

namespace Leaf

@[simp] theorem same_text_iff (s t : String) : same s t = true ↔ s = t := by
  simp [same, Json.same]

@[simp] theorem same_bool_iff (b c : Bool) : same b c = true ↔ b = c := by
  revert b c
  decide

@[simp] theorem same_int_iff (i j : Int) : same i j = true ↔ i = j := by
  simp [same, Json.int, Json.same, Json.number?, Number.same]

@[simp] theorem sameOption_iff (s t : Option String) : sameOption s t = true ↔ s = t := by
  cases s <;> cases t <;> simp [sameOption]

@[simp] theorem sameAll_texts_iff (ss ts : List String) : sameAll same ss ts = true ↔ ss = ts := by
  simpa using sameAll_iff (f := id) fun s _ t _ => same_text_iff s t

end Leaf

theorem Example.same_iff {a b : Example} (ha : a.data.isKeyed = true) (hb : b.data.isKeyed = true) :
    a.same b = true ↔ a.map id Json.meaning = b.map id Json.meaning := by
  simp [Example.same, Example.map, Json.same_iff _ _ ha hb]

theorem Spec.same_iff {a b : Spec} (ha : ∀ e ∈ a.examples, e.data.isKeyed = true)
    (hb : ∀ e ∈ b.examples, e.data.isKeyed = true) :
    a.same b = true ↔ a.map id Json.meaning = b.map id Json.meaning := by
  have hexample : ∀ e ∈ a.examples, ∀ f ∈ b.examples,
      (e.same f = true ↔ e.map id Json.meaning = f.map id Json.meaning) :=
    fun e he f hf => Example.same_iff (ha e he) (hb f hf)
  simp only [Spec.examples, List.mem_append, List.mem_filterMap] at hexample
  have houtcomes : sameAll Outcome.same a.outcomes b.outcomes = true ↔
      a.outcomes.map (·.map id Json.meaning) = b.outcomes.map (·.map id Json.meaning) := by
    refine sameAll_iff fun o ho p hp => ?_
    cases o <;> cases p
    case message.message e f =>
      simpa [Outcome.same, Outcome.map] using
        hexample e (Or.inr ⟨_, ho, rfl⟩) f (Or.inr ⟨_, hp, rfl⟩)
    all_goals simp [Outcome.same, Outcome.map]
  have hgiven : sameAll Example.same a.given b.given = true ↔
      a.given.map (·.map id Json.meaning) = b.given.map (·.map id Json.meaning) :=
    sameAll_iff fun e he f hf => hexample e (Or.inl (Or.inl he)) f (Or.inl (Or.inl hf))
  have hwhen : a.when.same b.when = true ↔
      a.when.map id Json.meaning = b.when.map id Json.meaning := by
    have hwhens : ∀ e ∈ a.when.examples, ∀ f ∈ b.when.examples, _ :=
      fun e he f hf => hexample e (Or.inl (Or.inr he)) f (Or.inl (Or.inr hf))
    generalize a.when = v at hwhens ⊢
    generalize b.when = w at hwhens ⊢
    cases v <;> cases w
    case one.one e f =>
      simpa [When.same, When.map, When.examples] using hwhens
    case many.many es fs => simpa [When.same, When.map, When.examples] using sameAll_iff hwhens
    all_goals simp [When.same, When.map]
  simp only [Spec.same, Spec.map, Bool.and_eq_true, houtcomes, hgiven, hwhen, Spec.mk.injEq]
  tauto

theorem Target.same_iff (t u : Target) : t.same u = true ↔ t = u := by
  rcases t with ⟨_, _⟩
  rcases u with ⟨_, _⟩
  simp [Target.same]

theorem IntegrationMessage.same_iff (m n : IntegrationMessage) : m.same n = true ↔ m = n := by
  rcases m with ⟨_, _⟩
  rcases n with ⟨_, _⟩
  simp [IntegrationMessage.same]

theorem Destination.same_iff (c d : Destination) : c.same d = true ↔ c = d := by
  rcases c with _ | ⟨_, _ | _⟩ | _ | _ <;> rcases d with _ | ⟨_, _ | _⟩ | _ | _ <;>
    simp [Destination.same, IntegrationMessage.same_iff]

/-- The query of an origin, if any, is keyed. -/
def Origin.IsKeyed : Origin → Prop
  | .database _ query => query.isKeyed = true
  | _ => True

theorem Origin.same_iff {o p : Origin} (ho : o.IsKeyed) (hp : p.IsKeyed) :
    o.same p = true ↔ o.map id Json.meaning = p.map id Json.meaning := by
  cases o <;> cases p
  case database.database q _ r => simp [Origin.same, Origin.map, Json.same_iff q r ho hp]
  all_goals simp [Origin.same, Origin.map]

/-- The queries of an entry are keyed. -/
def Entry.IsKeyed : Entry → Prop
  | .source _ origin _ => origin.IsKeyed
  | .sink _ _ none _ => True
  | .sink _ _ (some state) _ => state.IsKeyed

theorem Entry.same_iff (d e : Entry) (hd : d.IsKeyed) (he : e.IsKeyed) :
    d.same e = true ↔ d.map id Json.meaning = e.map id Json.meaning := by
  match d, e with
  | .source _ _ _, .source _ _ _ =>
    simp [Entry.same, Entry.map, Target.same_iff, Origin.same_iff hd he, and_assoc]
  | .sink _ _ none _, .sink _ _ none _ =>
    simp [Entry.same, Entry.map, Target.same_iff, Destination.same_iff, and_assoc]
  | .sink _ _ (some a) _, .sink _ _ (some b) _ =>
    simp [Entry.same, Entry.map, Target.same_iff, Destination.same_iff, same_iff a b hd he,
      and_assoc]
  | .source _ _ _, .sink _ _ none _ | .source _ _ _, .sink _ _ (some _) _
  | .sink _ _ none _, .source _ _ _ | .sink _ _ (some _) _, .source _ _ _
  | .sink _ _ none _, .sink _ _ (some _) _ | .sink _ _ (some _) _, .sink _ _ none _ =>
    simp [Entry.same, Entry.map]

/-- The data of a slice are keyed. -/
structure Slice.IsKeyed (s : Slice) : Prop where
  examples : ∀ b ∈ s.server.specs, ∀ e ∈ b.examples, e.data.isKeyed = true
  data : ∀ e ∈ s.server.data, e.IsKeyed

theorem same_slice_iff {s t : Slice} (hs : s.IsKeyed) (ht : t.IsKeyed) :
    s.same t = true ↔ s.map id Json.meaning = t.map id Json.meaning := by
  have hspecs : sameAll Spec.same s.server.specs t.server.specs = true ↔ _ :=
    sameAll_iff fun b hb c hc => Spec.same_iff (hs.examples b hb) (ht.examples c hc)
  have hdata : sameAll Entry.same s.server.data t.server.data = true ↔ _ :=
    sameAll_iff fun d hd e he => Entry.same_iff d e (hs.data d hd) (ht.data e he)
  have hclient : Client.sameOption s.client t.client = true ↔ s.client = t.client := by
    rcases s.client with _ | ⟨_, _⟩ <;> rcases t.client with _ | ⟨_, _⟩ <;>
      simp [Client.sameOption, Client.same]
  simp [Slice.same, Server.same, hspecs, hdata, hclient, Slice.map, Server.map, and_assoc]

theorem same_flow_iff {x y : Flow} (hx : ∀ s ∈ x.slices, s.IsKeyed)
    (hy : ∀ s ∈ y.slices, s.IsKeyed) :
    x.same y = true ↔ x.map id Json.meaning = y.map id Json.meaning := by
  have hslices : sameAll Slice.same x.slices y.slices = true ↔ _ :=
    sameAll_iff fun s hs t ht => same_slice_iff (hx s hs) (hy t ht)
  simp [Flow.same, hslices, Flow.map, and_assoc]

theorem Message.same_iff {n o : Message} (hn : ∀ f ∈ n.fields, f.default.isKeyed = true)
    (ho : ∀ f ∈ o.fields, f.default.isKeyed = true) :
    n.same o = true ↔ n.map id id id Json.meaning = o.map id id id Json.meaning := by
  have hfields : sameAll Field.same n.fields o.fields = true ↔
      n.fields.map (·.map id id Json.meaning) = o.fields.map (·.map id id Json.meaning) :=
    sameAll_iff fun f hf g hg => by
      simp [Field.same, Field.map, Json.same_iff _ _ (hn f hf) (ho g hg), and_assoc]
  simp [Message.same, hfields, Message.map, and_assoc]

theorem Integration.same_iff (i j : Integration) : i.same j = true ↔ i = j := by
  cases i
  cases j
  simp [Integration.same, and_assoc]

/-! ## In the order of names -/

section ByName

variable {α : Type} {name : α → String}

/-- A list in ascending order of names. -/
def ascendingBy (name : α → String) (xs : List α) : List α :=
  xs.mergeSort fun a b => (Json.text (name a)).notAfter (.text (name b))

theorem ascendingBy_perm (name : α → String) (xs : List α) : (ascendingBy name xs).Perm xs :=
  List.mergeSort_perm _ _

theorem pairwise_ascendingBy (xs : List α) :
    (ascendingBy name xs).Pairwise fun a b => name a ≤ name b := by
  have hpairwise : (ascendingBy name xs).Pairwise fun a b =>
      (Json.text (name a)).notAfter (.text (name b)) = true :=
    List.pairwise_mergeSort (by simpa [Json.notAfter] using fun _ _ _ => String.le_trans)
      (by simpa [Json.notAfter] using fun _ _ => String.le_total _ _) xs
  exact hpairwise.imp fun hab => by simpa [Json.notAfter] using hab

variable {xs ys : List α}

/-- Distinct names have one order. -/
theorem ascendingBy_of_perm (h : xs.Perm ys) (hnodup : (xs.map name).Nodup) :
    ascendingBy name xs = ascendingBy name ys := by
  have hperm := ((ascendingBy_perm name xs).trans h).trans (ascendingBy_perm name ys).symm
  exact Text.eq_of_perm_of_names hperm (((ascendingBy_perm name xs).map name).nodup_iff.2 hnodup)
    (pairwise_ascendingBy xs) (pairwise_ascendingBy ys)

/-- What a name finds does not depend on the order. -/
theorem find?_of_perm (h : xs.Perm ys) (hnodup : (xs.map name).Nodup) (n : String) :
    xs.find? (name · = n) = ys.find? (name · = n) := by
  cases hfind : xs.find? (name · = n) with
  | none =>
    symm
    rw [List.find?_eq_none] at hfind ⊢
    exact fun y hy => hfind y (h.mem_iff.2 hy)
  | some x =>
    have hname : name x = n := by simpa using List.find?_some hfind
    have hx : x ∈ ys := h.mem_iff.1 (List.mem_of_find?_eq_some hfind)
    subst hname
    exact (find?_eq_some_of_nodup name ys x ((h.map name).nodup_iff.1 hnodup) hx).symm

theorem find?_self (x : α) (xs : List α) : (x :: xs).find? (name · = name x) = some x := by simp

/-- The first of an ascending list comes before every name that finds something. -/
theorem le_of_find? {x : α} {n : String} (h : (x :: xs).Pairwise fun a b => name a ≤ name b)
    (hfind : (x :: xs).find? (name · = n) ≠ none) : name x ≤ n := by
  obtain ⟨y, hy⟩ := Option.ne_none_iff_exists'.1 hfind
  have hname : name y = n := by simpa using List.find?_some hy
  rw [List.pairwise_cons] at h
  rcases List.mem_cons.1 (List.mem_of_find?_eq_some hy) with rfl | hmem
  · exact hname ▸ String.le_refl _
  · exact hname ▸ h.1 y hmem

theorem find?_eq_none_of_nodup {x : α} (h : ((x :: xs).map name).Nodup) :
    xs.find? (name · = name x) = none := by
  rw [List.map_cons, List.nodup_cons] at h
  rw [List.find?_eq_none]
  intro y hy
  have hne : name y ≠ name x := fun heq => h.1 (heq ▸ List.mem_map_of_mem hy)
  simpa using hne

theorem eq_none_iff_of_rel {r : α → α → Prop} {a b : Option α} (h : Option.Rel r a b) :
    a = none ↔ b = none := by
  cases h <;> simp

/-- Ascending lists of named items are the same just if each name finds the same in both. -/
theorem sameAll_iff_find? {same : α → α → Bool} (hname : ∀ a b, same a b = true → name a = name b)
    (hxs : xs.Pairwise fun a b => name a ≤ name b) (hys : ys.Pairwise fun a b => name a ≤ name b)
    (hx : (xs.map name).Nodup) (hy : (ys.map name).Nodup) :
    sameAll same xs ys = true ↔ ∀ n, Option.Rel (fun a b => same a b = true)
      (xs.find? (name · = n)) (ys.find? (name · = n)) := by
  induction xs generalizing ys with
  | nil =>
    cases ys with
    | nil => simp [sameAll]
    | cons y ys =>
      refine iff_of_false (by simp [sameAll]) fun h => ?_
      have hnone := (eq_none_iff_of_rel (h (name y))).1 rfl
      rw [find?_self] at hnone
      cases hnone
  | cons x xs ih =>
    cases ys with
    | nil =>
      refine iff_of_false (by simp [sameAll]) fun h => ?_
      have hnone := (eq_none_iff_of_rel (h (name x))).2 rfl
      rw [find?_self] at hnone
      cases hnone
    | cons y ys =>
      rw [sameAll, Bool.and_eq_true, ih hxs.of_cons hys.of_cons hx.of_cons hy.of_cons]
      constructor
      · rintro ⟨hhead, htail⟩ n
        rw [List.find?_cons, List.find?_cons, hname x y hhead]
        by_cases hn : name y = n
        · simpa [hn] using hhead
        · simpa [hn] using htail n
      · intro h
        have hyx : name y ≤ name x := le_of_find? hys fun hnone => by
          simpa using (eq_none_iff_of_rel (h (name x))).2 hnone
        have hxy : name x ≤ name y := le_of_find? hxs fun hnone => by
          simpa using (eq_none_iff_of_rel (h (name y))).1 hnone
        have hheads : name x = name y := String.le_antisymm hxy hyx
        refine ⟨by simpa [hheads] using h (name x), fun n => ?_⟩
        by_cases hn : name x = n
        · subst hn
          rw [find?_eq_none_of_nodup hx, hheads, find?_eq_none_of_nodup hy]
          exact .none
        · simpa [← hheads, hn] using h n

/-- Lists of named items are the same in order just if each name finds the same in both. -/
theorem sameAll_ascendingBy_iff (name : α → String) (same : α → α → Bool)
    (hname : ∀ a b, same a b = true → name a = name b)
    (hx : (xs.map name).Nodup) (hy : (ys.map name).Nodup) :
    sameAll same (ascendingBy name xs) (ascendingBy name ys) = true ↔
      ∀ n, Option.Rel (fun a b => same a b = true)
        (xs.find? (name · = n)) (ys.find? (name · = n)) := by
  have hxs := ascendingBy_perm name xs
  have hys := ascendingBy_perm name ys
  rw [sameAll_iff_find? hname (pairwise_ascendingBy xs) (pairwise_ascendingBy ys)
    ((hxs.map name).nodup_iff.2 hx) ((hys.map name).nodup_iff.2 hy)]
  simp only [find?_of_perm hxs.symm hx, find?_of_perm hys.symm hy]

end ByName

/-! ## Models -/

namespace Model

/-- No two messages and no two integrations have one name. -/
structure IsNamed (m : Model) : Prop where
  messages : (m.messages.map (·.name)).Nodup
  integrations : (m.integrations.map (·.name)).Nodup

/-- No object in the data of a model has a name twice. -/
structure IsKeyed (m : Model) : Prop where
  slices : ∀ x ∈ m.flows, ∀ s ∈ x.slices, s.IsKeyed
  defaults : ∀ n ∈ m.messages, ∀ f ∈ n.fields, f.default.isKeyed = true

/-- The models differ in the order of their messages and integrations only. -/
structure Reorders (m' m : Model) : Prop where
  flows : m'.flows = m.flows
  messages : m'.messages.Perm m.messages
  integrations : m'.integrations.Perm m.integrations

/-- The normal form of a model. -/
def meaning (m : Model) : Model where
  flows := m.flows.map (·.map id Json.meaning)
  messages := (Message.byName m.messages).map (·.map id id id Json.meaning)
  integrations := Integration.byName m.integrations

variable {a b : Model}

theorem same?_eq (a b : Model) : a.same? b = some (a.same b) := by
  have hsortable : ∀ names : List String, sortableNames names = true := fun names =>
    (Json.AreTexts.map id names).sortable
  cases hflows : sameAll Flow.same a.flows b.flows with
  | false => simp [same?, same, hflows]
  | true =>
    cases hmessages : Message.sameByName a.messages b.messages <;>
      simp [same?, same, hflows, hmessages, hsortable]

/-- Keyed models are the same just if they have the same normal form. -/
theorem same_iff (ha : a.IsKeyed) (hb : b.IsKeyed) : a.same b = true ↔ a.meaning = b.meaning := by
  have hflows : sameAll Flow.same a.flows b.flows = true ↔ _ :=
    sameAll_iff fun x hx y hy => same_flow_iff (ha.slices x hx) (hb.slices y hy)
  have hmessages : Message.sameByName a.messages b.messages = true ↔ _ :=
    sameAll_iff fun n hn o ho => Message.same_iff (ha.defaults n (List.mem_mergeSort.1 hn))
      (hb.defaults o (List.mem_mergeSort.1 ho))
  have hintegrations : Integration.sameByName a.integrations b.integrations = true ↔ _ :=
    sameAll_iff (f := id) fun i _ j _ => Integration.same_iff i j
  rw [same, Bool.and_eq_true, Bool.and_eq_true, hflows, hmessages, hintegrations, meaning, meaning,
    Model.mk.injEq, List.map_id, List.map_id, and_assoc]

theorem same?_self (h : a.IsKeyed) : a.same? a = some true := by
  rw [same?_eq, (same_iff h h).2 rfl]

theorem same_eq_true_iff (ha : a.IsNamed) (hb : b.IsNamed) :
    a.same b = true ↔ sameAll Flow.same a.flows b.flows = true ∧
      (∀ n : String, Option.Rel (fun x y => x.same y = true) (a.message? n) (b.message? n)) ∧
      ∀ n : String,
        Option.Rel (fun x y => x.same y = true) (a.integration? n) (b.integration? n) := by
  have hmessages := sameAll_ascendingBy_iff (fun n : Message => n.name) Message.same
    (fun n o h => by simp_all [Message.same]) ha.messages hb.messages
  have hintegrations := sameAll_ascendingBy_iff (fun i : Integration => i.name) Integration.same
    (fun i j h => by simp_all [Integration.same]) ha.integrations hb.integrations
  simp only [Report.message?_text, Report.integration?_text]
  rw [same, Bool.and_eq_true, Bool.and_eq_true, and_assoc]
  exact and_congr_right fun _ => and_congr hmessages hintegrations

theorem same?_of_reorders {a' b' : Model} (ha : a.IsNamed) (hb : b.IsNamed)
    (ha' : a'.Reorders a) (hb' : b'.Reorders b) : a'.same? b' = a.same? b := by
  have hbyName : ∀ {m m' : Model}, m.IsNamed → m'.Reorders m →
      Message.byName m'.messages = Message.byName m.messages ∧
      Integration.byName m'.integrations = Integration.byName m.integrations := by
    intro m m' h h'
    exact ⟨(ascendingBy_of_perm h'.messages.symm h.messages).symm,
      (ascendingBy_of_perm h'.integrations.symm h.integrations).symm⟩
  obtain ⟨hma, hia⟩ := hbyName ha ha'
  obtain ⟨hmb, hib⟩ := hbyName hb hb'
  rw [same?_eq, same?_eq, same, same, ha'.flows, hb'.flows, Message.sameByName, Message.sameByName,
    Integration.sameByName, Integration.sameByName, hma, hmb, hia, hib]

/-- Models whose names are distinct are compared by what each name finds.  The comparison is an
equivalence of models with keyed data, what is no number counting as the same as itself, and the
order of messages and integrations does not matter on either side. -/
theorem same_by_name (a b : Model) (ha : a.IsNamed) (hb : b.IsNamed) :
    (∃ r, a.same? b = some r ∧ (r = true ↔
      sameAll Flow.same a.flows b.flows = true ∧
      (∀ n : String, Option.Rel (fun x y => x.same y = true) (a.message? n) (b.message? n)) ∧
      ∀ n : String,
        Option.Rel (fun x y => x.same y = true) (a.integration? n) (b.integration? n))) ∧
    (a.IsKeyed → a.same? a = some true) ∧
    (a.IsKeyed → b.IsKeyed → b.same? a = a.same? b) ∧
    (∀ c : Model, a.IsKeyed → b.IsKeyed → c.IsKeyed →
      a.same? b = some true → b.same? c = some true → a.same? c = some true) ∧
    ∀ a' b' : Model, a'.Reorders a → b'.Reorders b → a'.same? b' = a.same? b := by
  refine ⟨⟨_, same?_eq a b, same_eq_true_iff ha hb⟩, same?_self, ?_, ?_,
    fun a' b' => same?_of_reorders ha hb⟩
  · intro hka hkb
    rw [same?_eq, same?_eq, Option.some.injEq, Bool.eq_iff_iff, same_iff hkb hka, same_iff hka hkb]
    exact eq_comm
  · intro c hka hkb hkc hab hbc
    rw [same?_eq, Option.some.injEq] at hab hbc ⊢
    exact (same_iff hka hkc).2 (((same_iff hka hkb).1 hab).trans ((same_iff hkb hkc).1 hbc))

end Model

/-! A price is paid. Whoever writes it down may spell the amount and the flag in other ways, or list
the messages in another order. -/

namespace Payment

def pay (data : Json) : Model where
  flows := [{ name := "Pay"
              slices := [{ kind := .command
                           name := "Pay a bill"
                           server := { description := "Books the amount."
                                       specs := [{ when := .one ⟨"Pay", data⟩
                                                   outcomes := [.message ⟨"Paid", data⟩] }] } }] }]
  messages := [{ name := "Pay", kind := .command, version := 1 },
               { name := "Paid", kind := .event, version := 1 }]
  integrations := [{ name := "bank", source := "./bank" }, { name := "audit", source := "./audit" }]

def booked : Model := pay (.object [("amount", .number (.int 3)), ("final", .bool true)])

def respelled : Model :=
  pay (.object [("final", .number (.int 1)), ("amount", .number (.double (.finite false 6 (-1))))])

def reversed : Model :=
  { booked with
    messages := booked.messages.reverse
    integrations := booked.integrations.reverse }

theorem isNamed_pay (data : Json) : (pay data).IsNamed :=
  ⟨by simp [pay], by simp [pay]⟩

theorem isKeyed_pay {data : Json} (h : data.isKeyed = true) : (pay data).IsKeyed where
  slices := by
    simp only [pay, List.mem_singleton, forall_eq]
    refine ⟨?_, by simp⟩
    simpa [Spec.examples, When.examples, Outcome.example?] using h
  defaults := by simp [pay]

end Payment

open Payment in
theorem Model.same_by_name_payment :
    booked.IsNamed ∧ respelled.IsNamed ∧ booked.IsKeyed ∧ respelled.IsKeyed ∧
    reversed.Reorders booked ∧ booked.same? respelled = some true ∧
    respelled.same? booked = some true ∧ reversed.same? respelled = some true := by
  have hnb : booked.IsNamed := isNamed_pay _
  have hnr : respelled.IsNamed := isNamed_pay _
  have hkb : booked.IsKeyed := isKeyed_pay (by decide)
  have hkr : respelled.IsKeyed := isKeyed_pay (by decide)
  have hreversed : reversed.Reorders booked :=
    ⟨rfl, List.reverse_perm _, List.reverse_perm _⟩
  -- the messages and integrations of both are those of `booked`, which is the same as itself
  obtain ⟨⟨r, hr, hcontents⟩, hrefl, -⟩ := same_by_name booked booked hnb hnb
  rw [hrefl hkb, Option.some.injEq] at hr
  obtain ⟨-, hmessages, hintegrations⟩ := hcontents.1 hr.symm
  obtain ⟨⟨s, hs, hcontents'⟩, -, hsymm, -, hreorders⟩ := same_by_name booked respelled hnb hnr
  have hflows : sameAll Flow.same booked.flows respelled.flows = true := by decide
  have hsame : booked.same? respelled = some true :=
    hs.trans (congrArg some (hcontents'.2 ⟨hflows, hmessages, hintegrations⟩))
  exact ⟨hnb, hnr, hkb, hkr, hreversed, hsame, (hsymm hkb hkr).trans hsame,
    (hreorders reversed respelled hreversed ⟨rfl, .refl _, .refl _⟩).trans hsame⟩

end EventFlow
