import EventFlow.Proofs.Extraction.Answer
import EventFlow.Proofs.Extraction.Walk
import EventFlow.Proofs.Model.WellFormed
import EventFlow.Proofs.Text.Order

/-! What the parts of a program yield.

One lemma for each reader of a part: it extends the findings, and the part that it yields fits
them.  Together they give the slices of a flow:

    Yields declared (sliceOf depth declared e) fun s g => s.Fits (Known declared g) (· ∈ g.systems)
-/

namespace EventFlow.Extraction

variable {declared : Declared} {α β : Type}

theorem Yields.refuse (P : α → Findings → Prop) (line : Nat) (fault : Fault) :
    Yields declared (refuse line fault) P := by
  intro f a g h
  cases h

theorem Yields.pure {P : α → Findings → Prop} (a : α) (h : ∀ g, P a g) :
    Yields declared (pure a) P := by
  intro f b g hb
  obtain ⟨rfl, rfl⟩ := statePure_eq_ok.1 hb
  exact ⟨.refl _ _, h f⟩

/-- A step that does not look at the findings, and one after it. -/
theorem Yields.lift {P : β → Findings → Prop} (x : Result α) (k : α → Walk β)
    (h : ∀ a, x = .ok a → Yields declared (k a) P) :
    Yields declared (liftM x >>= k) P := by
  intro f b g hb
  obtain ⟨a, u, ha, hb⟩ := stateBind_eq_ok.1 hb
  obtain ⟨hx, rfl⟩ := stateLift_eq_ok.1 ha
  exact h a hx f b g hb

/-- Two steps, the second of which keeps what the first one yields. -/
theorem Yields.bind {Q : α → Findings → Prop} {P : β → Findings → Prop} (w : Walk α)
    (k : α → Walk β) (hw : Yields declared w Q)
    (hk : ∀ a f b g, Q a f → k a f = .ok (b, g) → f.Extends declared g ∧ P b g) :
    Yields declared (w >>= k) P := by
  intro f b g hb
  obtain ⟨a, u, ha, hb⟩ := stateBind_eq_ok.1 hb
  obtain ⟨hfu, hQ⟩ := hw f a u ha
  obtain ⟨hug, hP⟩ := hk a u b g hQ hb
  exact ⟨hfu.trans hug, hP⟩

/-- A step, and what is made of its result. -/
theorem Yields.map {Q : α → Findings → Prop} {P : β → Findings → Prop} {w : Walk α} {k : α → β}
    (hw : Yields declared w Q) (h : ∀ a g, Q a g → P (k a) g) :
    Yields declared (do return k (← w)) P := by
  refine .bind _ _ hw ?_
  intro a f b g hQ hb
  obtain ⟨rfl, rfl⟩ := statePure_eq_ok.1 hb
  exact ⟨.refl _ _, h a f hQ⟩

/-! ## Examples -/

/-- A message is noted if nothing is known of it to the contrary. -/
theorem noteMessage_eq_ok (line : Nat) (ref : String) (kind : MessageKind) (data : Json.Members)
    (f g : Findings) (u : Unit) :
    noteMessage declared line ref kind data f = .ok (u, g) ↔
      (∀ known, knownKind? declared f.stubs ref = some known → known = kind) ∧
      g = if (declared.message? ref).isNone then
          { f with stubs := noteStub (Message.infer ref kind data) f.stubs } else f := by
  have note : ∀ x : Findings, ((if (declared.message? ref).isNone = true then
      set { f with stubs := noteStub (Message.infer ref kind data) f.stubs } else pure () :
      Walk Unit) f = .ok (u, x)) ↔ x = if (declared.message? ref).isNone then
          { f with stubs := noteStub (Message.infer ref kind data) f.stubs } else f := by
    intro x
    split
    · show (Except.ok _ : Except (Complaint Fault) (Unit × Findings)) = .ok (u, x) ↔ _
      simp [eq_comm]
    · rw [statePure_eq_ok]
      simp [eq_comm]
  unfold noteMessage
  rw [stateBind_eq_ok]
  constructor
  · rintro ⟨f', v, hget, h⟩
    cases hget
    cases hk : knownKind? declared f.stubs ref with
    | none =>
      simp only [hk] at h
      exact ⟨by simp, (note g).1 h⟩
    | some known =>
      simp only [hk] at h
      split at h
      · cases h
      · next hne => exact ⟨by rintro _ ⟨⟩; exact Decidable.not_not.1 hne, (note g).1 h⟩
  · rintro ⟨hk, hg⟩
    refine ⟨f, f, rfl, ?_⟩
    cases hkk : knownKind? declared f.stubs ref with
    | none => exact (note g).2 hg
    | some known =>
      show (if known ≠ kind then _ else _ : Walk Unit) f = _
      rw [if_neg (Decidable.not_not.2 (hk known hkk))]
      exact (note g).2 hg

theorem known_of_stub (f : Findings) (ref : String) (h : declared.message? ref = none) :
    knownKind? declared f.stubs ref = (f.stubs.find? (·.name = ref)).map (·.kind) := by
  simp [knownKind?, h]

theorem noteMessage_yields (line : Nat) (ref : String) (kind : MessageKind) (data : Json.Members)
    (hd : (data.map (·.1)).Nodup) :
    Yields declared (noteMessage declared line ref kind data)
      (fun _ g => Known declared g ref kind) := by
  intro f u g h
  rw [noteMessage_eq_ok] at h
  obtain ⟨hk, rfl⟩ := h
  cases hm : declared.message? ref with
  | some m =>
    have hkind : m.kind = kind := hk m.kind (by simp [knownKind?, hm])
    exact ⟨.refl _ _, by simp [Known, knownKind?, hm, hkind]⟩
  | none =>
    -- the stub of `ref` keeps its kind, and the stubs of other names stay as they are
    rw [known_of_stub f ref hm] at hk
    have hself := find?_noteStub_self (Message.infer ref kind data) f.stubs
      (fun m hf => hk m.kind (by simpa [Message.infer] using ⟨m, hf, rfl⟩))
    simp only [Option.isNone_none, if_true]
    refine ⟨⟨fun hs => ?_, ?_, fun _ h => h, rfl, rfl⟩, ?_⟩
    · refine ⟨?_, ?_, ?_, hs.systems, hs.imported, hs.flowNames⟩
      · show ((noteStub (Message.infer ref kind data) f.stubs).map (·.name)).Nodup
        rw [map_name_noteStub]
        split
        · exact hs.stubs
        · next hn => exact nodup_concat _ _ hs.stubs hn
      · intro x hx
        rcases mem_noteStub _ _ _ hx with rfl | hx
        · exact hm
        · exact hs.apart x hx
      · intro x hx
        rcases mem_noteStub _ _ _ hx with rfl | hx
        · simpa [Message.infer, Function.comp_def] using hd
        · exact hs.fields x hx
    · intro other k hother
      unfold Known knownKind? at hother ⊢
      cases hmo : declared.message? other with
      | some m => simpa [hmo] using hother
      | none =>
        simp only [hmo] at hother ⊢
        by_cases ho : other = ref
        · subst ho
          have hkk := hk k hother
          subst hkk
          exact hself
        · rw [find?_noteStub_ne (Message.infer ref kind data) f.stubs other ho]
          exact hother
    · unfold Known knownKind?
      simp only [hm]
      exact hself

theorem nodup_exampleData (line : Nat) (kind : MessageKind) (name : String) (args : List Expr)
    (data : Json.Members) (h : exampleData line kind name args = .ok data) :
    (data.map (·.1)).Nodup := by
  unfold exampleData at h
  split at h
  · cases h
    simp
  · obtain ⟨pairs, -, h⟩ := bind_eq_ok.1 h
    cases h
    exact Json.nodup_ofPairs pairs
  · cases h
  · cases h

/-- An example names a message of the expected kind. -/
theorem exampleOf_yields (expected : Option MessageKind) (e : Expr) :
    Yields declared (exampleOf declared expected e)
      (fun x g => ∃ kind, Known declared g x.ref kind ∧ ∀ wanted, expected = some wanted →
        kind = wanted) := by
  rcases exampleOf_cases declared expected e with ⟨line, fault, h⟩ | ⟨l, kind, name, args, hkind, h⟩
  · exact h ▸ .refuse _ _ _
  · rw [h]
    refine .lift _ _ fun data hdata => ?_
    exact (noteMessage_yields l _ kind data (nodup_exampleData l kind name args data hdata)).map
      fun _ g hknown => ⟨kind, hknown, hkind⟩

theorem lasting_known (expected : Option MessageKind) :
    Lasting declared fun (x : Example) g => ∃ kind, Known declared g x.ref kind ∧
      ∀ wanted, expected = some wanted → kind = wanted := by
  rintro x f g hfg ⟨kind, hk, hw⟩
  exact ⟨kind, hfg.known _ _ hk, hw⟩

theorem examples_yield (expected : Option MessageKind) (es : List Expr) :
    Yields declared (es.mapM (exampleOf declared expected)) (fun xs g => ∀ x ∈ xs,
      ∃ kind, Known declared g x.ref kind ∧ ∀ wanted, expected = some wanted → kind = wanted) :=
  Yields.mapM (lasting_known expected) _ es fun e _ => exampleOf_yields expected e

/-! ## Blocks -/

/-- An outcome names a message, or is an error of a command. -/
def OutcomeFits (declared : Declared) (kind : SliceKind) (o : Outcome) (g : Findings) : Prop :=
  match o with
  | .message x => ∃ k, Known declared g x.ref k
  | .error .. => kind = .command

/-- An object denotes an error, whatever its members are. -/
theorem exists_error_of_errorOf {line : Nat} {data : Json.Members} {o : Outcome}
    (h : errorOf line data = .ok o) : ∃ type message, o = .error type message := by
  unfold errorOf at h
  split at h
  · cases h
  · split at h
    · cases h
    · dsimp only at h
      split at h
      · cases h
      · obtain ⟨message, -, h⟩ := bind_eq_ok.1 h
        cases h
        exact ⟨_, _, rfl⟩

theorem outcomeOf_yields (kind : SliceKind) (e : Expr) :
    Yields declared (outcomeOf declared kind e) (OutcomeFits declared kind) := by
  unfold outcomeOf
  split
  · next l ps =>
    split
    · exact .refuse _ _ _
    · next hc =>
      refine .lift _ _ fun data _ => ?_
      intro f o g h
      obtain ⟨herr, rfl⟩ := stateLift_eq_ok.1 h
      obtain ⟨t, m, rfl⟩ := exists_error_of_errorOf herr
      have hcommand : kind = .command := Decidable.not_not.1 hc
      exact ⟨.refl _ _, hcommand⟩
  · refine (exampleOf_yields none e).map ?_
    rintro x g ⟨k, hk, -⟩
    exact ⟨k, hk⟩

theorem lasting_outcome (kind : SliceKind) : Lasting declared (OutcomeFits declared kind) := by
  intro o f g hfg h
  cases o with
  | message x =>
    obtain ⟨k, hk⟩ := h
    exact ⟨k, hfg.known _ _ hk⟩
  | error type message => exact h

/-- What sets a block off has the form that tells the kind of its slice. -/
theorem whenOf_yields (trigger : Option Expr) :
    Yields declared (whenOf declared trigger) (fun w g =>
      w.Fits (Known declared g) (shapeOf trigger) ∧
        ∀ x ∈ w.examples, ∃ k, Known declared g x.ref k) := by
  unfold whenOf
  split
  · exact .pure _ fun g => ⟨trivial, by simp [When.examples]⟩
  · next l es =>
    refine (examples_yield (some .event) es).map ?_
    intro xs g hall
    refine ⟨fun x hx => ?_, fun x hx => ?_⟩
    · obtain ⟨k, hk, hw⟩ := hall x hx
      exact hw .event rfl ▸ hk
    · obtain ⟨k, hk, -⟩ := hall x hx
      exact ⟨k, hk⟩
  · next e hne =>
    have hshape : shapeOf (some e) = .command := by
      cases e <;> first | rfl | exact (hne _ _ rfl).elim
    rw [hshape]
    refine (exampleOf_yields (some .command) e).map ?_
    rintro x g ⟨k, hk, hw⟩
    have hcommand : Known declared g x.ref .command := hw .command rfl ▸ hk
    refine ⟨hcommand, ?_⟩
    intro y hy
    rw [List.mem_singleton.1 hy]
    exact ⟨k, hk⟩

theorem specOf_yields (kind : SliceKind) (e : Expr) :
    Yields declared (specOf declared kind e) (fun s g => s.Fits (Known declared g) kind) := by
  intro f s g h
  unfold specOf at h
  obtain ⟨steps, u, hsteps, h⟩ := stateBind_eq_ok.1 h
  obtain ⟨-, rfl⟩ := stateLift_eq_ok.1 hsteps
  cases ho : steps.lookup .outcome with
  | none =>
    simp only [ho] at h
    cases h
  | some outcomes =>
    simp only [ho] at h
    split at h
    · cases h
    · next hshape =>
      obtain ⟨given, u, hgiven, h⟩ := stateBind_eq_ok.1 h
      obtain ⟨trigger, v, htrigger, h⟩ := stateBind_eq_ok.1 h
      obtain ⟨outs, w, houts, h⟩ := stateBind_eq_ok.1 h
      obtain ⟨rfl, rfl⟩ := statePure_eq_ok.1 h
      obtain ⟨hfu, hall⟩ := examples_yield none _ _ _ _ hgiven
      obtain ⟨huv, hfits, hrefs⟩ := whenOf_yields _ _ _ _ htrigger
      obtain ⟨hvw, houts⟩ := Yields.mapM (lasting_outcome kind) _ _
        (fun e _ => outcomeOf_yields kind e) _ _ _ houts
      rw [Decidable.not_not.1 hshape] at hfits
      refine ⟨(hfu.trans huv).trans hvw, ⟨?_, hfits.mono hvw.known, ?_⟩⟩
      · intro x hx
        simp only [Spec.examples, List.mem_append, List.mem_filterMap] at hx
        rcases hx with (hx | hx) | ⟨o, ho, hx⟩
        · obtain ⟨k, hk, -⟩ := hall x hx
          exact ⟨k, (huv.trans hvw).known _ _ hk⟩
        · obtain ⟨k, hk⟩ := hrefs x hx
          exact ⟨k, hvw.known _ _ hk⟩
        · have := houts o ho
          cases o with
          | message y =>
            simp only [Outcome.example?, Option.some.injEq] at hx
            exact hx ▸ this
          | error type message => simp [Outcome.example?] at hx
      · intro type message hm
        exact houts _ hm

/-! ## Pipelines -/

theorem systemsOf_yields (link : Link) :
    Yields declared (systemsOf link) (fun r g => Systems.Linked (· ∈ g.systems) r.1) := by
  intro f r g h
  unfold systemsOf at h
  generalize leadingNames link.arguments = split at h
  obtain ⟨names, others⟩ := split
  cases names with
  | nil => cases h
  | cons first more =>
    dsimp only at h
    obtain ⟨_, u, hu, h⟩ := stateBind_eq_ok.1 h
    obtain ⟨rfl, rfl⟩ := statePure_eq_ok.1 h
    cases hu
    refine ⟨⟨fun hs => ?_, fun _ _ h => h, fun x hx => ?_, rfl, rfl⟩, ?_, fun x hx => ?_⟩
    · exact ⟨hs.stubs, hs.apart, hs.fields, Text.nodup_foldl_mention _ _ hs.systems, hs.imported,
        hs.flowNames⟩
    · exact (Text.mem_foldl_mention _ _ _).2 (Or.inl hx)
    · simp
    · exact (Text.mem_foldl_mention _ _ _).2 (Or.inr hx)

theorem destinationOf_yields (link : Link) :
    Yields declared (destinationOf link) (fun d g => d.Linked (· ∈ g.systems)) := by
  unfold destinationOf
  split
  · exact .lift _ _ fun s _ => .pure _ fun _ => trivial
  · exact .lift _ _ fun s _ => .pure _ fun _ => trivial
  · exact .lift _ _ fun s _ => .pure _ fun _ => trivial
  · refine .bind _ _ (systemsOf_yields link) ?_
    rintro ⟨systems, others⟩ f d g hsys h
    obtain ⟨message, v, hm, h⟩ := stateBind_eq_ok.1 h
    obtain ⟨-, rfl⟩ := stateLift_eq_ok.1 hm
    obtain ⟨rfl, rfl⟩ := statePure_eq_ok.1 h
    exact ⟨.refl _ _, hsys⟩
  · exact .refuse _ _ _

theorem originOf_yields (link : Link) :
    Yields declared (originOf link) (fun o g => o.Linked (· ∈ g.systems)) := by
  unfold originOf
  split
  · split
    · exact .lift _ _ fun _ _ => .lift _ _ fun _ _ => .pure _ fun _ => trivial
    · exact .refuse _ _ _
  · exact .lift _ _ fun _ _ => .pure _ fun _ => trivial
  · split
    · exact .lift _ _ fun _ _ => .pure _ fun _ => trivial
    · exact .lift _ _ fun _ _ => .lift _ _ fun _ _ => .pure _ fun _ => trivial
    · exact .refuse _ _ _
  · split
    · exact .lift _ _ fun _ _ => .pure _ fun _ => trivial
    · exact .lift _ _ fun _ _ => .lift _ _ fun _ _ => .pure _ fun _ => trivial
    · exact .refuse _ _ _
  · refine .bind _ _ (systemsOf_yields link) ?_
    rintro ⟨systems, others⟩ f o g hsys h
    dsimp only at h
    split at h
    · obtain ⟨rfl, rfl⟩ := statePure_eq_ok.1 h
      exact ⟨.refl _ _, hsys⟩
    · cases h
  · exact .refuse _ _ _

/-! ## Entries -/

/-- What has been said of a sink so far is linked. -/
def SinkDraft.Linked (d : SinkDraft) (g : Findings) : Prop :=
  (∀ x, d.destination = some x → x.Linked (· ∈ g.systems)) ∧
    ∀ e, d.state = some e → e.Linked (· ∈ g.systems)

def SourceDraft.Linked (d : SourceDraft) (g : Findings) : Prop :=
  ∀ x, d.origin = some x → x.Linked (· ∈ g.systems)

theorem lasting_linked : Lasting declared fun (e : Entry) g => e.Linked (· ∈ g.systems) :=
  fun e _ _ hfg he => Entry.Linked.mono hfg.systems e he

theorem lasting_sinkDraft : Lasting declared SinkDraft.Linked :=
  fun _ _ _ hfg hd => ⟨fun x hx => (hd.1 x hx).mono hfg.systems,
    fun e he => lasting_linked e _ _ hfg (hd.2 e he)⟩

theorem lasting_sourceDraft : Lasting declared SourceDraft.Linked :=
  fun _ _ _ hfg hd x hx => (hd x hx).mono hfg.systems

theorem SinkDraft.add_yields {inner : Expr → Walk Entry}
    (hinner : ∀ e, Yields declared (inner e) (fun x g => x.Linked (· ∈ g.systems)))
    (d : SinkDraft) (link : Link) :
    Yields declared (d.add inner link) fun d' g => d.Linked g → d'.Linked g := by
  unfold SinkDraft.add
  split
  · exact .lift _ _ fun _ _ => .pure _ fun _ hd => hd
  · split
    · split
      · exact .refuse _ _ _
      · refine (destinationOf_yields link).map fun x g hx hd => ⟨?_, hd.2⟩
        rintro _ ⟨⟩
        exact hx
    · split
      · split
        · refine .bind _ _ (hinner _) ?_
          intro entry f d' g hentry h
          split at h
          · obtain ⟨rfl, rfl⟩ := statePure_eq_ok.1 h
            refine ⟨.refl _ _, fun hd => ⟨hd.1, ?_⟩⟩
            rintro _ ⟨⟩
            exact hentry
          · cases h
        · exact .refuse _ _ _
      · exact .refuse _ _ _

theorem SourceDraft.add_yields (d : SourceDraft) (link : Link) :
    Yields declared (d.add link) fun d' g => d.Linked g → d'.Linked g := by
  unfold SourceDraft.add
  split
  · exact .lift _ _ fun _ _ => .pure _ fun _ hd => hd
  · split
    · split
      · exact .refuse _ _ _
      · refine (originOf_yields link).map fun x g hx _ => ?_
        rintro _ ⟨⟩
        exact hx
    · exact .refuse _ _ _

/-- Entries are linked at every depth of states that are looked up. -/
theorem entryOf_yields (depth : Nat) (e : Expr) :
    Yields declared (entryOf depth e) (fun x g => x.Linked (· ∈ g.systems)) := by
  induction depth generalizing e with
  | zero =>
    intro f x g h
    cases h
  | succ depth ih =>
    unfold entryOf
    split
    · exact .refuse _ _ _
    · next root first rest _ =>
      split
      · refine .lift _ _ fun target _ => ?_
        intro f x g h
        obtain ⟨d, u, hd, h⟩ := stateBind_eq_ok.1 h
        obtain ⟨hext, hlinked⟩ := Yields.foldlM lasting_sinkDraft (SinkDraft.add_yields ih) hd
          ⟨by rintro _ ⟨⟩, by rintro _ ⟨⟩⟩
        cases hdest : d.destination with
        | none =>
          simp only [hdest] at h
          cases h
        | some destination =>
          simp only [hdest] at h
          obtain ⟨rfl, rfl⟩ := statePure_eq_ok.1 h
          refine ⟨hext, ?_⟩
          cases hs : d.state with
          | none => exact hlinked.1 _ hdest
          | some state => exact ⟨hlinked.1 _ hdest, hlinked.2 _ hs⟩
      · refine .lift _ _ fun target _ => ?_
        intro f x g h
        obtain ⟨d, u, hd, h⟩ := stateBind_eq_ok.1 h
        obtain ⟨hext, hlinked⟩ := Yields.foldlM lasting_sourceDraft SourceDraft.add_yields hd
          (by rintro _ ⟨⟩)
        cases horigin : d.origin with
        | none =>
          simp only [horigin] at h
          cases h
        | some origin =>
          simp only [horigin] at h
          obtain ⟨rfl, rfl⟩ := statePure_eq_ok.1 h
          exact ⟨hext, hlinked _ horigin⟩
      · exact .refuse _ _ _

/-! ## Slices -/

theorem lasting_spec (kind : SliceKind) :
    Lasting declared fun (s : Spec) g => s.Fits (Known declared g) kind :=
  fun _ _ _ hfg hs => hs.mono hfg.known

theorem specStatement_yields (kind : SliceKind) (s : Statement) :
    Yields declared (specStatement declared kind s) (fun b g =>
      b.Fits (Known declared g) kind) := by
  unfold specStatement
  split
  · exact specOf_yields kind _
  · exact .refuse _ _ _

theorem entriesOf_yields (depth : Nat) (e : Expr) :
    Yields declared (entriesOf depth e) (fun es g => ∀ x ∈ es, x.Linked (· ∈ g.systems)) := by
  unfold entriesOf
  split
  · exact Yields.mapM lasting_linked _ _ fun x _ => entryOf_yields depth x
  · exact .refuse _ _ _

/-- The blocks and the entries that a statement adds to a server. -/
def PartFits (declared : Declared) (kind : SliceKind) (p : List Spec × List Entry) (g : Findings) :
    Prop :=
  (∀ b ∈ p.1, b.Fits (Known declared g) kind) ∧ ∀ e ∈ p.2, e.Linked (· ∈ g.systems)

theorem lasting_part (kind : SliceKind) : Lasting declared (PartFits declared kind) :=
  fun _ _ _ hfg hp => ⟨fun b hb => (hp.1 b hb).mono hfg.known,
    fun e he => Entry.Linked.mono hfg.systems e (hp.2 e he)⟩

theorem serverPart_yields (depth : Nat) (kind : SliceKind) (s : Statement) :
    Yields declared (serverPart depth declared kind s) (PartFits declared kind) := by
  unfold serverPart
  split
  · next l callee args types _ =>
    dsimp only
    split
    · exact (entriesOf_yields depth _).map fun es g hes => ⟨by simp, hes⟩
    · refine .lift _ _ fun titled _ => ?_
      refine (Yields.mapM (lasting_spec kind) _ _
        fun s _ => specStatement_yields kind s).map fun bs g hbs => ?_
      exact ⟨hbs, by simp⟩
    · exact (specOf_yields kind _).map fun b g hb => ⟨by simpa using hb, by simp⟩
  · exact .refuse _ _ _

theorem serverOf_yields (depth : Nat) (kind : SliceKind) (link : Link) :
    Yields declared (serverOf depth declared kind link) (fun s g =>
      (∀ b ∈ s.specs, b.Fits (Known declared g) kind) ∧
      ∀ e ∈ s.data, e.Linked (· ∈ g.systems)) := by
  have hfrom : ∀ description callback,
      Yields declared (serverFrom declared kind depth description callback) (fun s g =>
      (∀ b ∈ s.specs, b.Fits (Known declared g) kind) ∧
        ∀ e ∈ s.data, e.Linked (· ∈ g.systems)) := by
    intro description callback
    refine .lift _ _ fun body _ => ?_
    refine (Yields.mapM (lasting_part kind) _ _
      fun s _ => serverPart_yields depth kind s).map fun parts g hparts => ⟨?_, ?_⟩
    · intro b hb
      obtain ⟨p, hp, hb⟩ := List.mem_flatMap.1 hb
      exact (hparts p hp).1 b hb
    · intro e he
      obtain ⟨p, hp, he⟩ := List.mem_flatMap.1 he
      exact (hparts p hp).2 e he
  unfold serverOf
  dsimp only
  split
  · exact hfrom _ _
  · exact .lift _ _ fun _ _ => hfrom _ _
  · exact .refuse _ _ _

/-- What has been said of a slice so far fits. -/
def SliceDraft.Fits (declared : Declared) (kind : SliceKind) (d : SliceDraft) (g : Findings) :
    Prop :=
  ∀ s, d.server = some s →
    (∀ b ∈ s.specs, b.Fits (Known declared g) kind) ∧ ∀ e ∈ s.data, e.Linked (· ∈ g.systems)

theorem lasting_sliceDraft (kind : SliceKind) : Lasting declared (SliceDraft.Fits declared kind) :=
  fun _ _ _ hfg hd s hs => ⟨fun b hb => ((hd s hs).1 b hb).mono hfg.known,
    fun e he => lasting_linked e _ _ hfg ((hd s hs).2 e he)⟩

theorem SliceDraft.add_yields (depth : Nat) (kind : SliceKind) (d : SliceDraft) (link : Link) :
    Yields declared (d.add depth declared kind link) fun d' g =>
      d.Fits declared kind g → d'.Fits declared kind g := by
  -- a method that says nothing of the server leaves it as it is
  have other : ∀ {α : Type} (x : Result α) (k : α → SliceDraft), (∀ a, (k a).server = d.server) →
      Yields declared (do return k (← x)) fun d' g =>
        d.Fits declared kind g → d'.Fits declared kind g :=
    fun x k hk => .lift _ _ fun a _ => .pure _ fun g hd s hs => hd s (hk a ▸ hs)
  unfold SliceDraft.add
  split
  · split
    · exact .refuse _ _ _
    · exact other _ _ fun _ => rfl
  · split
    · exact .refuse _ _ _
    · exact other _ _ fun _ => rfl
  · split
    · exact .refuse _ _ _
    · exact other _ _ fun _ => rfl
  · split
    · exact .refuse _ _ _
    · refine (serverOf_yields depth kind link).map ?_
      rintro s g hs - _ ⟨⟩
      exact hs
  · exact .refuse _ _ _

theorem inSlice_eq_ok (name : String) (w : Walk α) (f g : Findings) (a : α) :
    inSlice name w f = .ok (a, g) ↔ w f = .ok (a, g) := by
  unfold inSlice
  split
  · next r hr => rw [hr]
  · next c hc => simp [hc]

theorem sliceOf_yields (depth : Nat) (e : Expr) :
    Yields declared (sliceOf depth declared e)
      (fun s g => s.Fits (Known declared g) (· ∈ g.systems)) := by
  unfold sliceOf
  dsimp only
  split
  · exact .refuse _ _ _
  · next kind _ =>
    refine .lift _ _ fun names _ => ?_
    obtain ⟨name, id⟩ := names
    intro f s g h
    dsimp only at h
    obtain ⟨d, u, hd, h⟩ := stateBind_eq_ok.1 h
    rw [inSlice_eq_ok] at hd
    obtain ⟨rfl, rfl⟩ := statePure_eq_ok.1 h
    obtain ⟨hext, hfits⟩ := Yields.foldlM (lasting_sliceDraft kind)
      (SliceDraft.add_yields depth kind) hd (by rintro _ ⟨⟩)
    refine ⟨hext, ?_⟩
    cases hserver : d.server with
    | none => exact ⟨by simp [Server.empty], by simp [Server.empty]⟩
    | some server => exact ⟨(hfits server hserver).1, (hfits server hserver).2⟩

theorem lasting_slice :
    Lasting declared fun (s : Slice) g => s.Fits (Known declared g) (· ∈ g.systems) :=
  fun _ _ _ hfg hs => hs.mono hfg.known hfg.systems

theorem flowSlice_yields (depth : Nat) (flow : String) (s : Statement) :
    Yields declared (flowSlice depth declared flow s)
      (fun s g => s.Fits (Known declared g) (· ∈ g.systems)) := by
  unfold flowSlice
  split
  · exact sliceOf_yields depth _
  · exact .refuse _ _ _

/-! ## The top level -/

/-- What a statement at the top level does to the findings: it may import integrations, and the
flows that it describes have the given names. -/
structure Findings.Continues (declared : Declared) (f g : Findings) (names : List String) :
    Prop where
  sound : f.Sound declared → g.Sound declared
  known : ∀ ref kind, Known declared f ref kind → Known declared g ref kind
  systems : ∀ name ∈ f.systems, name ∈ g.systems
  flowNames : g.flowNames = f.flowNames ++ names

theorem Findings.Continues.trans {f g h : Findings} {ms ns : List String}
    (hfg : f.Continues declared g ms) (hgh : g.Continues declared h ns) :
    f.Continues declared h (ms ++ ns) where
  sound hf := hgh.sound (hfg.sound hf)
  known ref kind hk := hgh.known ref kind (hfg.known ref kind hk)
  systems name hn := hgh.systems name (hfg.systems name hn)
  flowNames := by rw [hgh.flowNames, hfg.flowNames, List.append_assoc]

theorem Findings.Extends.continues {f g : Findings} (h : f.Extends declared g) :
    f.Continues declared g [] :=
  ⟨h.sound, h.known, h.systems, by simp [h.flowNames]⟩

theorem flowName_continues (line : Nat) (args : List Expr) (f g : Findings) (name : String)
    (h : flowName line args f = .ok (name, g)) : f.Continues declared g [name] := by
  unfold flowName at h
  split at h
  · next l text rest =>
    obtain ⟨f', u, hget, h⟩ := stateBind_eq_ok.1 h
    cases hget
    dsimp only at h
    split at h
    · cases h
    · next hnew =>
      obtain ⟨_, v, hset, h⟩ := stateBind_eq_ok.1 h
      obtain ⟨rfl, rfl⟩ := statePure_eq_ok.1 h
      cases hset
      refine ⟨fun hs => ?_, fun _ _ h => h, fun _ h => h, rfl⟩
      exact ⟨hs.stubs, hs.apart, hs.fields, hs.systems, hs.imported,
        nodup_concat _ _ hs.flowNames (by simpa using hnew)⟩
  · cases h

theorem flowOf_continues (depth : Nat) (e : Expr) (doc : Option String) (f g : Findings)
    (flow : Flow) (h : flowOf depth declared e doc f = .ok (flow, g)) :
    f.Continues declared g [flow.name] ∧
      ∀ s ∈ flow.slices, s.Fits (Known declared g) (· ∈ g.systems) := by
  unfold flowOf at h
  obtain ⟨name, u, hname, h⟩ := stateBind_eq_ok.1 h
  obtain ⟨⟨id, callback⟩, v, hcall, h⟩ := stateBind_eq_ok.1 h
  obtain ⟨-, rfl⟩ := stateLift_eq_ok.1 hcall
  have hfu : f.Continues declared u [name] := flowName_continues _ _ _ _ _ hname
  cases callback with
  | block l body =>
    dsimp only at h
    obtain ⟨slices, w, hslices, h⟩ := stateBind_eq_ok.1 h
    obtain ⟨rfl, rfl⟩ := statePure_eq_ok.1 h
    obtain ⟨huw, hfits⟩ := Yields.mapM lasting_slice _ _
      (fun s _ => flowSlice_yields depth name s) u slices w hslices
    refine ⟨?_, hfits⟩
    simpa using hfu.trans huw.continues
  | _ => cases h

theorem importOne_continues (module : String) (texts : List (String × Option String))
    (s : Specifier) (f g : Findings) (u : Unit) (h : importOne module texts s f = .ok (u, g)) :
    f.Continues declared g [] := by
  unfold importOne at h
  obtain ⟨f', v, hget, h⟩ := stateBind_eq_ok.1 h
  cases hget
  dsimp only at h
  split at h
  · cases h
  · next hnew =>
    cases h
    refine ⟨fun hs => ?_, fun _ _ h => h, fun _ h => h, by simp⟩
    refine ⟨hs.stubs, hs.apart, hs.fields, hs.systems, ?_, hs.flowNames⟩
    rw [List.map_append]
    exact nodup_concat _ _ hs.imported (by simpa using hnew)

theorem importAll_continues (module : String) (texts : List (String × Option String))
    (specifiers : List Specifier) (f g : Findings) (u : PUnit)
    (h : specifiers.forM (importOne module texts) f = .ok (u, g)) : f.Continues declared g [] := by
  induction specifiers generalizing f with
  | nil =>
    cases h
    exact (Findings.Extends.refl _ _).continues
  | cons s rest ih =>
    change (importOne module texts s >>= fun _ => rest.forM (importOne module texts)) f = _ at h
    obtain ⟨_, v, hv, h⟩ := stateBind_eq_ok.1 h
    simpa using (importOne_continues module texts s f v _ hv).trans (ih v h)

theorem topLevel_continues (config : Config) (depth : Nat) (s : Statement) (f g : Findings)
    (r : Option Flow) (h : topLevel config depth declared s f = .ok (r, g)) :
    f.Continues declared g (r.toList.map (·.name)) ∧
      ∀ flow ∈ r.toList, ∀ s ∈ flow.slices, s.Fits (Known declared g) (· ∈ g.systems) := by
  cases s with
  | imports l content doc =>
    unfold topLevel at h
    obtain ⟨_, u, himports, h⟩ := stateBind_eq_ok.1 h
    obtain ⟨rfl, rfl⟩ := statePure_eq_ok.1 h
    exact ⟨importAll_continues _ _ _ _ _ _ himports, by simp⟩
  | binding l keyword names init doc =>
    unfold topLevel at h
    obtain ⟨rfl, rfl⟩ := statePure_eq_ok.1 h
    exact ⟨(Findings.Extends.refl _ _).continues, by simp⟩
  | expression l e doc =>
    unfold topLevel at h
    cases hname : e.calleeName? with
    | none =>
      simp only [hname] at h
      cases h
    | some name =>
      simp only [hname] at h
      split at h
      · obtain ⟨flow, u, hflow, h⟩ := stateBind_eq_ok.1 h
        obtain ⟨rfl, rfl⟩ := statePure_eq_ok.1 h
        obtain ⟨hcont, hfits⟩ := flowOf_continues depth e doc f u flow hflow
        exact ⟨hcont, by simpa using hfits⟩
      · cases h
  | result l value => cases h

/-- The flows of a program have the names that are found, in order, and their slices fit all that
is found. -/
theorem flowsOf_continues (config : Config) (depth : Nat) (program : List Statement)
    (f g : Findings) (flows : List Flow)
    (h : flowsOf config depth declared program f = .ok (flows, g)) :
    f.Continues declared g (flows.map (·.name)) ∧
      ∀ flow ∈ flows, ∀ s ∈ flow.slices, s.Fits (Known declared g) (· ∈ g.systems) := by
  unfold flowsOf at h
  rw [stateBind_eq_ok] at h
  obtain ⟨rs, u, hrs, h⟩ := h
  rw [statePure_eq_ok] at h
  obtain ⟨rfl, rfl⟩ := h
  induction program generalizing f rs with
  | nil =>
    rw [List.mapM_nil, statePure_eq_ok] at hrs
    obtain ⟨rfl, rfl⟩ := hrs
    exact ⟨(Findings.Extends.refl _ _).continues, by simp⟩
  | cons s rest ih =>
    rw [List.mapM_cons, stateBind_eq_ok] at hrs
    obtain ⟨r, v, hr, hrs⟩ := hrs
    obtain ⟨rs', w, hrest, hrs⟩ := stateBind_eq_ok.1 hrs
    obtain ⟨rfl, rfl⟩ := statePure_eq_ok.1 hrs
    obtain ⟨hfv, hfirst⟩ := topLevel_continues config depth s f v r hr
    obtain ⟨hvw, hmore⟩ := ih v rs' hrest
    have happend : (r :: rs').filterMap id = r.toList ++ rs'.filterMap id := by
      cases r <;> simp
    rw [happend, List.map_append]
    refine ⟨hfv.trans hvw, ?_⟩
    intro flow hflow slice hslice
    rcases List.mem_append.1 hflow with hflow | hflow
    · exact (hfirst flow hflow slice hslice).mono hvw.known hvw.systems
    · exact hmore flow hflow slice hslice

end EventFlow.Extraction
