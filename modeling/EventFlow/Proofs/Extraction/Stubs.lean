import EventFlow.Extraction.Model
import EventFlow.Proofs.Declaration.Resolution
import EventFlow.Proofs.Extraction.Parts
import Mathlib.Data.List.Basic

/-! Which stubs a model has.

A message that is not declared is known by its examples alone, and its stub is inferred from one of
them: the first of those that have most members.  The walk through a program meets the examples in
the order in which the model lists them, and at every step the stubs are the right ones for the
examples met so far (`StubsFor`).  `Tracks before w after` is the step lemma for a reader `w`:

    StubsFor declared before f.stubs, w f = ok (a, g)  →  StubsFor declared (after a) g.stubs

The readers of pipelines, clients and imports meet no examples, and leave the stubs alone. -/

namespace EventFlow

open Declaration

/-- The members of the data of an example. -/
def Example.members (x : Example) : Json.Members :=
  match x.data with
  | .object members => members
  | _ => []

/-- The example is the first one of its message that has most members. -/
def Example.IsRichest (x : Example) (es : List Example) : Prop :=
  ∃ before after, es = before ++ x :: after ∧
    (∀ y ∈ before, y.ref = x.ref → y.members.length < x.members.length) ∧
    ∀ y ∈ after, y.ref = x.ref → y.members.length ≤ x.members.length

namespace Example.IsRichest

variable {x : Example} {es : List Example}

theorem le (h : x.IsRichest es) {y : Example} (hy : y ∈ es) (href : y.ref = x.ref) :
    y.members.length ≤ x.members.length := by
  obtain ⟨before, after, rfl, hbefore, hafter⟩ := h
  rcases List.mem_append.1 hy with hy | hy
  · exact Nat.le_of_lt (hbefore y hy href)
  · rcases List.mem_cons.1 hy with rfl | hy
    · exact Nat.le_refl _
    · exact hafter y hy href

/-- It stays the richest one if no richer example of its message follows. -/
theorem concat (h : x.IsRichest es) {y : Example}
    (hy : y.ref = x.ref → y.members.length ≤ x.members.length) : x.IsRichest (es ++ [y]) := by
  obtain ⟨before, after, rfl, hbefore, hafter⟩ := h
  refine ⟨before, after ++ [y], by simp, hbefore, fun z hz => ?_⟩
  rcases List.mem_append.1 hz with hz | hz
  · exact hafter z hz
  · rw [List.mem_singleton.1 hz]
    exact hy

/-- A last example is the richest one if it is richer than all before it. -/
theorem last (h : ∀ y ∈ es, y.ref = x.ref → y.members.length < x.members.length) :
    x.IsRichest (es ++ [x]) :=
  ⟨es, [], rfl, h, by simp⟩

end Example.IsRichest

namespace Extraction

variable {declared : Declared}

/-! ## The stubs of some examples -/

/-- The names of the messages that some examples refer to and that are not declared, in order of
first occurrence. -/
def undeclaredRefs (declared : Declared) (es : List Example) : List String :=
  ((es.map (·.ref)).filter fun ref => (declared.message? ref).isNone).eraseDups

/-- The stubs are those of the given examples. -/
structure StubsFor (declared : Declared) (es : List Example) (stubs : List Message) : Prop where
  objects : ∀ x ∈ es, x.data = .object x.members
  names : stubs.map (·.name) = undeclaredRefs declared es
  richest : ∀ m ∈ stubs, ∃ x : Example, x.ref = m.name ∧ x.IsRichest es ∧
    m = Message.infer m.name m.kind x.members

theorem StubsFor.nil : StubsFor declared [] [] := ⟨by simp, rfl, by simp⟩

theorem undeclaredRefs_concat (es : List Example) {x : Example}
    (h : declared.message? x.ref = none) :
    undeclaredRefs declared (es ++ [x]) =
      if x.ref ∈ undeclaredRefs declared es then undeclaredRefs declared es
      else undeclaredRefs declared es ++ [x.ref] := by
  simp only [undeclaredRefs, List.map_append, List.map_singleton, List.filter_append,
    List.filter_cons, List.filter_nil, h, Option.isNone_none, if_true, Text.eraseDups_concat,
    List.mem_eraseDups]

theorem undeclaredRefs_concat_of_declared (es : List Example) {x : Example} {m : Message}
    (h : declared.message? x.ref = some m) :
    undeclaredRefs declared (es ++ [x]) = undeclaredRefs declared es := by
  simp [undeclaredRefs, h]

theorem mem_undeclaredRefs {es : List Example} {x : Example} (hx : x ∈ es)
    (h : declared.message? x.ref = none) : x.ref ∈ undeclaredRefs declared es := by
  rw [undeclaredRefs, List.mem_eraseDups, List.mem_filter]
  exact ⟨List.mem_map_of_mem hx, by simp [h]⟩

/-- A stub that is noted is kept if it has more fields than the one of its name; all others stay. -/
theorem mem_noteStub_cases {stub m : Message} {stubs : List Message}
    (hnodup : (stubs.map (·.name)).Nodup) (h : m ∈ noteStub stub stubs) :
    (m = stub ∧ ∀ n ∈ stubs, n.name = stub.name → n.fields.length < stub.fields.length) ∨
      (m ∈ stubs ∧ (m.name = stub.name → stub.fields.length ≤ m.fields.length)) := by
  induction stubs with
  | nil =>
    rw [noteStub, List.mem_singleton] at h
    exact Or.inl ⟨h, by simp⟩
  | cons first rest ih =>
    rw [List.map_cons, List.nodup_cons] at hnodup
    unfold noteStub at h
    by_cases hname : first.name = stub.name
    · -- no other stub has the name
      have hother : ∀ n ∈ rest, n.name ≠ stub.name := fun n hn heq =>
        hnodup.1 (List.mem_map.2 ⟨n, hn, heq.trans hname.symm⟩)
      rw [if_pos hname] at h
      split at h
      · next hfewer =>
        rcases List.mem_cons.1 h with rfl | h
        · refine Or.inl ⟨rfl, fun n hn heq => ?_⟩
          rcases List.mem_cons.1 hn with rfl | hn
          · exact hfewer
          · exact absurd heq (hother n hn)
        · exact Or.inr ⟨List.mem_cons_of_mem _ h, fun heq => absurd heq (hother m h)⟩
      · next hmore =>
        refine Or.inr ⟨h, fun heq => ?_⟩
        rcases List.mem_cons.1 h with rfl | h
        · exact Nat.le_of_not_lt hmore
        · exact absurd heq (hother m h)
    · rw [if_neg hname] at h
      rcases List.mem_cons.1 h with rfl | h
      · exact Or.inr ⟨List.mem_cons_self, fun heq => absurd heq hname⟩
      · rcases ih hnodup.2 h with ⟨rfl, hall⟩ | ⟨hm, hkept⟩
        · refine Or.inl ⟨rfl, fun n hn heq => ?_⟩
          rcases List.mem_cons.1 hn with rfl | hn
          · exact absurd heq hname
          · exact hall n hn heq
        · exact Or.inr ⟨List.mem_cons_of_mem _ hm, hkept⟩

theorem required_of_mem_infer {name : String} {kind : MessageKind} {data : Json.Members} {f : Field}
    (h : f ∈ (Message.infer name kind data).fields) : f.required = true := by
  obtain ⟨p, -, rfl⟩ := List.mem_map.1 h
  rfl

theorem length_fields_infer (name : String) (kind : MessageKind) (data : Json.Members) :
    (Message.infer name kind data).fields.length = data.length := by
  simp [Message.infer]

/-- One more example of a message that is not declared. -/
theorem StubsFor.note {es : List Example} {stubs : List Message}
    (h : StubsFor declared es stubs) {x : Example} (hdata : x.data = .object x.members)
    (hnone : declared.message? x.ref = none) (kind : MessageKind) :
    StubsFor declared (es ++ [x]) (noteStub (Message.infer x.ref kind x.members) stubs) where
  objects y hy := by
    rcases List.mem_append.1 hy with hy | hy
    · exact h.objects y hy
    · rw [List.mem_singleton.1 hy]
      exact hdata
  names := by
    rw [map_name_noteStub, undeclaredRefs_concat es hnone, h.names]
    rfl
  richest m hm := by
    have hnodup : (stubs.map (·.name)).Nodup := h.names ▸ Text.nodup_eraseDups _
    rcases mem_noteStub_cases hnodup hm with ⟨rfl, hfewer⟩ | ⟨hm, hkept⟩
    · refine ⟨x, rfl, Example.IsRichest.last fun y hy href => ?_, rfl⟩
      -- the stub that was there before had the fields of the richest example so far
      have hmem : y.ref ∈ stubs.map (·.name) := by
        rw [h.names]
        exact mem_undeclaredRefs hy (href ▸ hnone)
      obtain ⟨n, hn, hname⟩ := List.mem_map.1 hmem
      obtain ⟨z, hz, hrichest, hinfer⟩ := h.richest n hn
      have hless := hfewer n hn (hname.trans href)
      rw [hinfer, length_fields_infer, length_fields_infer] at hless
      exact Nat.lt_of_le_of_lt (hrichest.le hy (hname.symm.trans hz.symm)) hless
    · obtain ⟨y, hy, hrichest, hinfer⟩ := h.richest m hm
      refine ⟨y, hy, hrichest.concat fun href => ?_, hinfer⟩
      have hmore := hkept (hy.symm.trans href.symm)
      rwa [hinfer, length_fields_infer, length_fields_infer] at hmore

/-- One more example of a declared message. -/
theorem StubsFor.pass {es : List Example} {stubs : List Message}
    (h : StubsFor declared es stubs) {x : Example} (hdata : x.data = .object x.members)
    {d : Message} (hsome : declared.message? x.ref = some d) :
    StubsFor declared (es ++ [x]) stubs where
  objects y hy := by
    rcases List.mem_append.1 hy with hy | hy
    · exact h.objects y hy
    · rw [List.mem_singleton.1 hy]
      exact hdata
  names := by rw [undeclaredRefs_concat_of_declared es hsome, h.names]
  richest m hm := by
    obtain ⟨y, hy, hrichest, hinfer⟩ := h.richest m hm
    refine ⟨y, hy, hrichest.concat fun href => ?_, hinfer⟩
    -- a stub has the name of no declared message
    have hmem : m.name ∈ undeclaredRefs declared es := h.names ▸ List.mem_map_of_mem hm
    rw [undeclaredRefs, List.mem_eraseDups, List.mem_filter] at hmem
    rw [← hy, ← href, hsome] at hmem
    simp at hmem

/-! ## Readers -/

/-- A reader that starts with the stubs of some examples ends with the stubs of others. -/
def Tracks {α : Type} (declared : Declared) (before : List Example) (w : Walk α)
    (after : α → List Example) : Prop :=
  ∀ f a g, StubsFor declared before f.stubs → w f = .ok (a, g) →
    StubsFor declared (after a) g.stubs

namespace Tracks

variable {α β : Type} {es : List Example}

theorem refuse (after : α → List Example) (line : Nat) (fault : Fault) :
    Tracks declared es (refuse line fault) after := by
  intro f a g _ h
  cases h

theorem pure {a : α} {after : α → List Example} (h : after a = es) :
    Tracks declared es (pure a) after := by
  intro f b g hf hb
  obtain ⟨rfl, rfl⟩ := statePure_eq_ok.1 hb
  rwa [h]

theorem bind {w : Walk α} {k : α → Walk β} {q : α → List Example} {after : β → List Example}
    (hw : Tracks declared es w q) (hk : ∀ a, Tracks declared (q a) (k a) after) :
    Tracks declared es (w >>= k) after := by
  intro f b g hf hb
  obtain ⟨a, u, ha, hb⟩ := stateBind_eq_ok.1 hb
  exact hk a u b g (hw f a u hf ha) hb

/-- A step that does not look at the findings. -/
theorem lift (x : Result α) : Tracks declared es (liftM x) fun _ => es := by
  intro f a g hf ha
  obtain ⟨-, rfl⟩ := stateLift_eq_ok.1 ha
  exact hf

/-- Each item of a list adds its examples to those before it. -/
theorem mapM {w : α → Walk β} {q : β → List Example} {xs : List α}
    (hw : ∀ x ∈ xs, ∀ es, Tracks declared es (w x) fun b => es ++ q b) :
    Tracks declared es (xs.mapM w) fun bs => es ++ bs.flatMap q := by
  induction xs generalizing es with
  | nil =>
    rw [List.mapM_nil]
    exact pure (by simp)
  | cons x rest ih =>
    rw [List.mapM_cons]
    refine (hw x List.mem_cons_self es).bind fun b => ?_
    refine (ih fun y hy => hw y (List.mem_cons_of_mem _ hy)).bind fun bs => ?_
    exact pure (by simp)

/-- A list of readers that meet no examples. -/
theorem mapM_quiet {w : α → Walk β} {xs : List α}
    (hw : ∀ x ∈ xs, ∀ es, Tracks declared es (w x) fun _ => es) :
    Tracks declared es (xs.mapM w) fun _ => es := by
  have hall : Tracks declared es (xs.mapM w) fun bs => es ++ bs.flatMap fun _ => [] :=
    mapM fun x hx es => by simpa using hw x hx es
  intro f bs g hf hbs
  have hnone : (bs.flatMap fun _ => ([] : List Example)) = [] := List.flatMap_eq_nil_iff.2 (by simp)
  simpa only [hnone, List.append_nil] using hall f bs g hf hbs

theorem foldlM {δ : Type} {w : δ → α → Walk δ} {q : δ → List Example} {xs : List α}
    (hw : ∀ d, ∀ x ∈ xs, Tracks declared (q d) (w d x) q) (d : δ) :
    Tracks declared (q d) (xs.foldlM w d) q := by
  induction xs generalizing d with
  | nil =>
    rw [List.foldlM_nil]
    exact pure rfl
  | cons x rest ih =>
    rw [List.foldlM_cons]
    exact (hw d x List.mem_cons_self).bind fun e =>
      ih (fun d y hy => hw d y (List.mem_cons_of_mem _ hy)) e

/-- A step that changes no stubs. -/
theorem of_stubs_eq {w : Walk α} (h : ∀ f a g, w f = .ok (a, g) → g.stubs = f.stubs) :
    Tracks declared es w fun _ => es :=
  fun f a g hf ha => (h f a g ha).symm ▸ hf

end Tracks

/-! ## Blocks of examples -/

theorem exampleOf_tracks (es : List Example) (expected : Option MessageKind) (e : Expr) :
    Tracks declared es (exampleOf declared expected e) fun x => es ++ [x] := by
  rcases exampleOf_cases declared expected e with ⟨line, fault, h⟩ | ⟨l, kind, name, args, -, h⟩
  · exact h ▸ .refuse _ _ _
  · rw [h]
    refine (Tracks.lift _).bind fun data => ?_
    intro f x g hf hx
    obtain ⟨u, v, hnote, hx⟩ := stateBind_eq_ok.1 hx
    obtain ⟨rfl, rfl⟩ := statePure_eq_ok.1 hx
    obtain ⟨-, rfl⟩ := (noteMessage_eq_ok _ _ _ _ _ _ _).1 hnote
    cases hm : declared.message? (declared.resolve name) with
    | none => exact hf.note rfl hm kind
    | some d => exact hf.pass rfl hm

theorem examples_track (es : List Example) (expected : Option MessageKind) (xs : List Expr) :
    Tracks declared es (xs.mapM (exampleOf declared expected)) fun found => es ++ found := by
  have hone : Tracks declared es (xs.mapM (exampleOf declared expected)) fun found =>
      es ++ found.flatMap ([·]) := Tracks.mapM fun x _ es => exampleOf_tracks es expected x
  simpa only [List.flatMap_singleton'] using hone

theorem outcomeOf_tracks (es : List Example) (kind : SliceKind) (e : Expr) :
    Tracks declared es (outcomeOf declared kind e) fun o => es ++ o.example?.toList := by
  unfold outcomeOf
  split
  · next l ps =>
    split
    · exact .refuse _ _ _
    · refine (Tracks.lift _).bind fun data => ?_
      intro f o g hf ho
      obtain ⟨herror, rfl⟩ := stateLift_eq_ok.1 ho
      obtain ⟨type, message, rfl⟩ := exists_error_of_errorOf herror
      simpa [Outcome.example?] using hf
  · exact (exampleOf_tracks es none e).bind fun _ => .pure rfl

theorem whenOf_tracks (es : List Example) (trigger : Option Expr) :
    Tracks declared es (whenOf declared trigger) fun w => es ++ w.examples := by
  unfold whenOf
  split
  · exact .pure (by simp [When.examples])
  · exact (examples_track es _ _).bind fun _ => .pure rfl
  · exact (exampleOf_tracks es _ _).bind fun _ => .pure rfl

theorem specOf_tracks (es : List Example) (kind : SliceKind) (e : Expr) :
    Tracks declared es (specOf declared kind e) fun s => es ++ s.examples := by
  unfold specOf
  refine (Tracks.lift _).bind fun steps => ?_
  split
  · exact .refuse _ _ _
  · next outcomes _ =>
    dsimp only
    split
    · intro f s g _ hs
      obtain ⟨_, _, hrefuse, _⟩ := stateBind_eq_ok.1 hs
      cases hrefuse
    · refine (examples_track es none _).bind fun given => ?_
      refine (whenOf_tracks _ _).bind fun trigger => ?_
      refine (Tracks.mapM (q := fun o => o.example?.toList)
        fun o _ es => outcomeOf_tracks es kind o).bind fun outs => ?_
      refine .pure ?_
      simp [Spec.examples, List.filterMap_eq_flatMap_toList]

/-! ## Pipelines -/

theorem systemsOf_tracks (es : List Example) (link : Link) :
    Tracks declared es (systemsOf link) fun _ => es := by
  unfold systemsOf
  split
  · exact .refuse _ _ _
  · refine Tracks.bind (q := fun _ => es) (.of_stubs_eq fun f u g h => ?_) fun _ => .pure rfl
    cases h
    rfl

theorem destinationOf_tracks (es : List Example) (link : Link) :
    Tracks declared es (destinationOf link) fun _ => es := by
  unfold destinationOf
  split
  · exact (Tracks.lift _).bind fun _ => .pure rfl
  · exact (Tracks.lift _).bind fun _ => .pure rfl
  · exact (Tracks.lift _).bind fun _ => .pure rfl
  · exact (systemsOf_tracks es link).bind fun _ => (Tracks.lift _).bind fun _ => .pure rfl
  · exact .refuse _ _ _

theorem originOf_tracks (es : List Example) (link : Link) :
    Tracks declared es (originOf link) fun _ => es := by
  unfold originOf
  split
  · split
    · exact (Tracks.lift _).bind fun _ => (Tracks.lift _).bind fun _ => .pure rfl
    · exact .refuse _ _ _
  · exact (Tracks.lift _).bind fun _ => .pure rfl
  · split
    · exact (Tracks.lift _).bind fun _ => .pure rfl
    · exact (Tracks.lift _).bind fun _ => (Tracks.lift _).bind fun _ => .pure rfl
    · exact .refuse _ _ _
  · split
    · exact (Tracks.lift _).bind fun _ => .pure rfl
    · exact (Tracks.lift _).bind fun _ => (Tracks.lift _).bind fun _ => .pure rfl
    · exact .refuse _ _ _
  · refine (systemsOf_tracks es link).bind fun named => ?_
    dsimp only
    split
    · exact .pure rfl
    · exact .refuse _ _ _
  · exact .refuse _ _ _

theorem SinkDraft.add_tracks (es : List Example) {inner : Expr → Walk Entry}
    (hinner : ∀ e, Tracks declared es (inner e) fun _ => es) (d : SinkDraft) (link : Link) :
    Tracks declared es (d.add inner link) fun _ => es := by
  unfold SinkDraft.add
  split
  · exact (Tracks.lift _).bind fun _ => .pure rfl
  · split
    · split
      · exact .refuse _ _ _
      · exact (destinationOf_tracks es link).bind fun _ => .pure rfl
    · split
      · split
        · refine (hinner _).bind fun entry => ?_
          split
          · exact .pure rfl
          · exact .refuse _ _ _
        · exact .refuse _ _ _
      · exact .refuse _ _ _

theorem SourceDraft.add_tracks (es : List Example) (d : SourceDraft) (link : Link) :
    Tracks declared es (d.add link) fun _ => es := by
  unfold SourceDraft.add
  split
  · exact (Tracks.lift _).bind fun _ => .pure rfl
  · split
    · split
      · exact .refuse _ _ _
      · exact (originOf_tracks es link).bind fun _ => .pure rfl
    · exact .refuse _ _ _

/-- Entries mention messages, but they are no examples of them. -/
theorem entryOf_tracks (es : List Example) (depth : Nat) (e : Expr) :
    Tracks declared es (entryOf depth e) fun _ => es := by
  induction depth generalizing e with
  | zero =>
    intro f x g _ h
    cases h
  | succ depth ih =>
    unfold entryOf
    split
    · exact .refuse _ _ _
    · split
      · refine (Tracks.lift _).bind fun target => ?_
        refine (Tracks.foldlM (q := fun _ => es)
          (fun d link _ => SinkDraft.add_tracks es ih d link) {}).bind fun d => ?_
        split
        · exact .pure rfl
        · exact .refuse _ _ _
      · refine (Tracks.lift _).bind fun target => ?_
        refine (Tracks.foldlM (q := fun _ => es)
          (fun d link _ => SourceDraft.add_tracks es d link) {}).bind fun d => ?_
        split
        · exact .pure rfl
        · exact .refuse _ _ _
      · exact .refuse _ _ _

/-! ## Slices -/

theorem specStatement_tracks (es : List Example) (kind : SliceKind) (s : Statement) :
    Tracks declared es (specStatement declared kind s) fun b => es ++ b.examples := by
  unfold specStatement
  split
  · exact specOf_tracks es kind _
  · exact .refuse _ _ _

theorem serverPart_tracks (es : List Example) (depth : Nat) (kind : SliceKind) (s : Statement) :
    Tracks declared es (serverPart depth declared kind s) fun p =>
      es ++ p.1.flatMap Spec.examples := by
  unfold serverPart
  split
  · dsimp only
    split
    · refine Tracks.bind (q := fun _ => es) ?_ fun _ => .pure (by simp)
      unfold entriesOf
      split
      · exact Tracks.mapM_quiet fun x _ es => entryOf_tracks es depth x
      · exact .refuse _ _ _
    · refine (Tracks.lift _).bind fun titled => ?_
      exact (Tracks.mapM fun s _ es => specStatement_tracks es kind s).bind fun _ => .pure rfl
    · exact (specOf_tracks es kind _).bind fun _ => .pure (by simp)
  · exact .refuse _ _ _

theorem serverOf_tracks (es : List Example) (depth : Nat) (kind : SliceKind) (link : Link) :
    Tracks declared es (serverOf depth declared kind link) fun s =>
      es ++ s.specs.flatMap Spec.examples := by
  have hfrom : ∀ description callback,
      Tracks declared es (serverFrom declared kind depth description callback) fun s =>
        es ++ s.specs.flatMap Spec.examples := by
    intro description callback
    refine (Tracks.lift _).bind fun body => ?_
    refine (Tracks.mapM (q := fun p => p.1.flatMap Spec.examples)
      fun s _ es => serverPart_tracks es depth kind s).bind fun parts => .pure ?_
    rw [List.flatMap_assoc]
  unfold serverOf
  dsimp only
  split
  · exact hfrom _ _
  · exact (Tracks.lift _).bind fun _ => hfrom _ _
  · exact .refuse _ _ _

/-- The examples that have been met in a slice so far. -/
def SliceDraft.examples (d : SliceDraft) : List Example :=
  d.server.toList.flatMap fun s => s.specs.flatMap Spec.examples

theorem SliceDraft.add_tracks (es : List Example) (depth : Nat) (kind : SliceKind) (d : SliceDraft)
    (link : Link) :
    Tracks declared (es ++ d.examples) (d.add depth declared kind link) fun d' =>
      es ++ d'.examples := by
  unfold SliceDraft.add
  split
  · split
    · exact .refuse _ _ _
    · exact (Tracks.lift _).bind fun _ => .pure rfl
  · split
    · exact .refuse _ _ _
    · exact (Tracks.lift _).bind fun _ => .pure rfl
  · split
    · exact .refuse _ _ _
    · exact (Tracks.lift _).bind fun _ => .pure rfl
  · split
    · exact .refuse _ _ _
    · next hnone =>
      -- the server is read once, so there were no examples before
      have hempty : d.examples = [] := by
        rw [SliceDraft.examples, Option.not_isSome_iff_eq_none.1 hnone]
        rfl
      rw [hempty, List.append_nil]
      exact (serverOf_tracks es depth kind link).bind fun _ => .pure (by simp [SliceDraft.examples])
  · exact .refuse _ _ _

/-- The examples of a slice, block by block. -/
def sliceExamples (s : Slice) : List Example := s.server.specs.flatMap Spec.examples

theorem sliceOf_tracks (es : List Example) (depth : Nat) (e : Expr) :
    Tracks declared es (sliceOf depth declared e) fun s => es ++ sliceExamples s := by
  unfold sliceOf
  dsimp only
  split
  · exact .refuse _ _ _
  · next kind _ =>
    refine (Tracks.lift _).bind fun names => ?_
    have hdraft : Tracks declared (es ++ ({} : SliceDraft).examples)
        (e.chain.2.foldlM (SliceDraft.add depth declared kind) {}) fun d => es ++ d.examples :=
      Tracks.foldlM (fun d link _ => SliceDraft.add_tracks es depth kind d link) {}
    rw [SliceDraft.examples, Option.toList_none, List.flatMap_nil, List.append_nil] at hdraft
    refine Tracks.bind (q := fun d => es ++ d.examples) ?_ fun d => .pure ?_
    · intro f d g hf hd
      exact hdraft f d g hf ((inSlice_eq_ok _ _ _ _ _).1 hd)
    · cases hserver : d.server <;> simp [sliceExamples, SliceDraft.examples, hserver, Server.empty]

theorem flowSlice_tracks (es : List Example) (depth : Nat) (flow : String) (s : Statement) :
    Tracks declared es (flowSlice depth declared flow s) fun s => es ++ sliceExamples s := by
  unfold flowSlice
  split
  · exact sliceOf_tracks es depth _
  · exact .refuse _ _ _

/-! ## The top level -/

/-- The examples of a flow, slice by slice. -/
def flowExamples (x : Flow) : List Example := x.slices.flatMap sliceExamples

theorem flowName_tracks (es : List Example) (line : Nat) (args : List Expr) :
    Tracks declared es (flowName line args) fun _ => es := by
  refine .of_stubs_eq fun f name g h => ?_
  unfold flowName at h
  split at h
  · obtain ⟨f', u, hget, h⟩ := stateBind_eq_ok.1 h
    cases hget
    dsimp only at h
    split at h
    · obtain ⟨_, _, hrefuse, _⟩ := stateBind_eq_ok.1 h
      cases hrefuse
    · obtain ⟨_, v, hset, h⟩ := stateBind_eq_ok.1 h
      obtain ⟨rfl, rfl⟩ := statePure_eq_ok.1 h
      cases hset
      rfl
  · cases h

theorem flowOf_tracks (es : List Example) (depth : Nat) (e : Expr) (doc : Option String) :
    Tracks declared es (flowOf depth declared e doc) fun x => es ++ flowExamples x := by
  unfold flowOf
  refine (flowName_tracks es _ _).bind fun name => ?_
  refine (Tracks.lift _).bind fun called => ?_
  dsimp only
  split
  · exact (Tracks.mapM fun s _ es => flowSlice_tracks es depth name s).bind fun _ => .pure rfl
  · exact .refuse _ _ _

theorem importOne_tracks (es : List Example) (module : String)
    (texts : List (String × Option String)) (s : Specifier) :
    Tracks declared es (importOne module texts s) fun _ => es := by
  refine .of_stubs_eq fun f u g h => ?_
  unfold importOne at h
  obtain ⟨f', v, hget, h⟩ := stateBind_eq_ok.1 h
  cases hget
  dsimp only at h
  split at h
  · obtain ⟨_, _, hrefuse, _⟩ := stateBind_eq_ok.1 h
    cases hrefuse
  · cases h
    rfl

theorem importAll_tracks (es : List Example) (module : String)
    (texts : List (String × Option String)) (ss : List Specifier) :
    Tracks declared es (ss.forM (importOne module texts)) fun _ => es := by
  induction ss with
  | nil => exact .pure rfl
  | cons s rest ih =>
    show Tracks declared es (importOne module texts s >>= fun _ => rest.forM _) fun _ => es
    exact (importOne_tracks es module texts s).bind fun _ => ih

theorem topLevel_tracks (es : List Example) (config : Config) (depth : Nat) (s : Statement) :
    Tracks declared es (topLevel config depth declared s) fun r =>
      es ++ r.toList.flatMap flowExamples := by
  unfold topLevel
  split
  · exact (importAll_tracks es _ _ _).bind fun _ => .pure (by simp)
  · exact .pure (by simp)
  · split
    · split
      · exact (flowOf_tracks es depth _ _).bind fun _ => .pure (by simp)
      · exact .refuse _ _ _
    · exact .refuse _ _ _
  · exact .refuse _ _ _

theorem flowsOf_tracks (es : List Example) (config : Config) (depth : Nat)
    (program : List Statement) :
    Tracks declared es (flowsOf config depth declared program) fun flows =>
      es ++ flows.flatMap flowExamples := by
  unfold flowsOf
  refine (Tracks.mapM (q := fun r => r.toList.flatMap flowExamples)
    fun s _ es => topLevel_tracks es config depth s).bind fun rs => .pure ?_
  rw [← List.flatMap_assoc, List.filterMap_eq_flatMap_toList]
  rfl

theorem examples_eq (flows : List Flow) (messages : List Message)
    (integrations : List Integration) :
    (⟨flows, messages, integrations⟩ : Model).examples = flows.flatMap flowExamples := by
  rw [Model.examples, Model.slices, List.flatMap_assoc]
  rfl

/-- The messages of a model are the declared ones and the stubs of its examples. -/
theorem modelOf_stubs {config : Config} {program : List Statement} {m : Model}
    (h : modelOf config declared program = .ok m) :
    ∃ stubs, m.messages = declared.messages ++ stubs ∧ StubsFor declared m.examples stubs := by
  obtain ⟨flows, f, hflows, rfl⟩ := exists_of_modelOf h
  refine ⟨f.stubs, rfl, ?_⟩
  rw [examples_eq]
  exact flowsOf_tracks [] config config.nestingLimit program {} flows f StubsFor.nil hflows

theorem undeclaredRefs_eq (es : List Example) :
    undeclaredRefs declared es =
      ((es.map (·.ref)).filter fun ref => ref ∉ declared.messages.map (·.name)).eraseDups := by
  rw [undeclaredRefs]
  congr 2
  funext ref
  rw [Bool.eq_iff_iff, decide_eq_true_iff, ← message?_isSome_iff]
  cases declared.message? ref <;> simp

/-- **The messages of a model** are the declared ones, in order of declaration, and then a stub for
each other message that an example refers to, in order of first occurrence. The stub has the fields
that are inferred from the first of its examples with most members, all of them required, and
neither a description nor a version but the first. -/
theorem extract_stubs (config : Config) (source : String) (m : Model)
    (h : extract config source = .ok m) :
    (∀ x ∈ m.examples, x.data = .object x.members) ∧
      ∃ declared stubs,
        table config.nestingLimit (linesOf source) (scan (linesOf source)) =
          .ok declared ∧
        m.messages = declared.messages ++ stubs ∧
        declared.messages.map (·.name) = declared.types.map (·.2) ∧
        (declared.types.map (·.1)).Sublist
          ((scan (linesOf source)).map (·.name)) ∧
        stubs.map (·.name) = ((m.examples.map (·.ref)).filter fun ref =>
          ref ∉ declared.messages.map (·.name)).eraseDups ∧
        ∀ stub ∈ stubs, ∃ x : Example, x.ref = stub.name ∧ x.IsRichest m.examples ∧
          stub.fields = (Message.infer stub.name stub.kind x.members).fields ∧
          (∀ f ∈ stub.fields, f.required = true) ∧ stub.description = none ∧ stub.version = 1 := by
  unfold extract at h
  dsimp only at h
  split at h
  · cases h
  · next declared htable =>
    obtain ⟨program, -, h⟩ := bind_eq_ok.1 h
    obtain ⟨stubs, hmessages, hstubs⟩ := modelOf_stubs h
    have hcoherent := table_coherent htable
    refine ⟨hstubs.objects, declared, stubs, htable, hmessages, hcoherent.targets.symm,
      hcoherent.types, hstubs.names.trans (undeclaredRefs_eq _), ?_⟩
    intro stub hstub
    obtain ⟨x, href, hrichest, hinfer⟩ := hstubs.richest stub hstub
    have hfields : stub.fields = (Message.infer stub.name stub.kind x.members).fields :=
      congrArg Message.fields hinfer
    exact ⟨x, href, hrichest, hfields, fun f hf => required_of_mem_infer (hfields ▸ hf),
      congrArg Message.description hinfer, congrArg Message.version hinfer⟩

/-- One message is declared, and another one has examples without members, with one and with one
again. -/
def growingExamples : String :=
  r"type A=Event<'A',{}>;
flow('',()=>{query('').server(()=>{given([" ++
    r"Events.E({}),Events.A(),Events.E({b:1}),Events.E({c:1})]).then([])})})"

theorem extract_stubs_growing :
    ∃ (m : Model) (declared : Declared) (stubs : List Message),
      extract {} growingExamples = .ok m ∧
      m.messages.map (fun n => (n.name, n.fields.map (·.name))) =
        [("A", []), ("E", ["b"])] ∧
      m.messages = declared.messages ++ stubs ∧
      ∀ stub ∈ stubs, ∃ x : Example, x.ref = stub.name ∧ x.IsRichest m.examples := by
  have h : (extract {} growingExamples).toOption.map (fun m =>
      m.messages.map fun n => (n.name, n.fields.map (·.name))) =
        some [("A", []), ("E", ["b"])] := by decide +kernel
  obtain ⟨m, hm, hnames⟩ := Option.map_eq_some_iff.1 h
  have hok := toOption_eq_some hm
  obtain ⟨-, declared, stubs, -, hmessages, -, -, -, hstubs⟩ :=
    extract_stubs {} growingExamples m hok
  refine ⟨m, declared, stubs, hok, hnames, hmessages, fun stub hstub => ?_⟩
  obtain ⟨x, href, hrichest, -⟩ := hstubs stub hstub
  exact ⟨x, href, hrichest⟩

end Extraction

end EventFlow
