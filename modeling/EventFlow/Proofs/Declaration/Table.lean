import EventFlow.Declaration.Table
import EventFlow.Proofs.Declaration.Behind

/-! Declared messages are told apart by their names, and so are the fields of each.

    table depth lines ds = ok d  →  names of d.messages distinct, fields of each distinct

Each message is written in one of the declarations, and the type of a field is what stands there,
but for blanks. -/

namespace EventFlow.Declaration

variable {depth : Nat} {source : List Char} {doc : Option String} {ts : Tokens} {m : Message}
  {lines types : List String} {ds : List Declaration} {d : Declaration} {p q : Progress}

/-! ## Fields -/

theorem field_ne_ok_nil (depth : Nat) (source : List Char) (seen : List String)
    (r : Field × Tokens) : field depth source seen [] ≠ .ok r := by
  simp [field, Tokens.failCiting, Tokens.fail]

/-- The source text of some tokens, as it is written. -/
def spelling (source : List Char) (ts : Tokens) : String :=
  match ts.head?, ts.getLast? with
  | some first, some last =>
    String.ofList ((source.drop first.start.offset).take (last.stop - first.start.offset))
  | _, _ => ""

/-- The types of the fields up to the closing brace, as they are written. -/
def writtenTypes (source : List Char) : (fuel : Nat) → Tokens → List String
  | 0, _ => []
  | fuel + 1, ts =>
    if ts.isPunct r"}" then []
    else
      match typeTokens 0 (afterMark ["?"] ts.next).next with
      | .ok (type, rest) =>
        spelling source type :: writtenTypes source fuel (afterMark [";", ","] rest)
      | .error _ => []

theorem typeText_eq_squeeze (source : List Char) (ts : Tokens) :
    typeText source ts = Text.squeeze (spelling source ts) := by
  unfold typeText spelling
  cases ts.head? <;> cases ts.getLast? <;> rfl

/-- Fields have distinct names, none of those seen, and their types are those that are written, but
for blanks. -/
theorem fields_cases {fuel : Nat} {seen : List String} {fs : List Field}
    (h : fields depth source fuel seen ts = .ok fs) :
    (fs.map (·.name)).Nodup ∧ (∀ f ∈ fs, f.name ∉ seen) ∧
      fs.map (·.type) = (writtenTypes source fuel ts).map Text.squeeze := by
  induction fuel generalizing seen ts fs with
  | zero => cases h
  | succ fuel ih =>
    unfold fields at h
    unfold writtenTypes
    split at h
    · next hend =>
      cases h
      simp [hend]
    · next hend =>
      obtain ⟨⟨first, rest⟩, hfirst, h⟩ := bind_eq_ok.1 h
      obtain ⟨more, hmore, h⟩ := bind_eq_ok.1 h
      cases h
      obtain ⟨hnodup, hnew, htypes⟩ := ih hmore
      cases ts with
      | nil => exact absurd hfirst (field_ne_ok_nil _ _ _ _)
      | cons t ts =>
        obtain ⟨name, -, hseen, -, type, behind, htype, -, _, _, -, rfl, rfl⟩ :=
          field_eq_ok_iff.1 hfirst
        refine ⟨?_, ?_, ?_⟩
        · rw [List.map_cons, List.nodup_cons]
          refine ⟨fun hm => ?_, hnodup⟩
          obtain ⟨f, hf, hname⟩ := List.mem_map.1 hm
          exact hnew f hf (by simp [hname])
        · intro f hf
          rcases List.mem_cons.1 hf with rfl | hf
          · simpa using hseen
          · exact fun hs => hnew f hf (List.mem_cons_of_mem _ hs)
        · rw [if_neg hend, show Tokens.next (t :: ts) = ts from rfl, htype, List.map_cons, htypes,
            typeText_eq_squeeze]
          rfl

/-! ## Messages -/

theorem fields_of_message {type : String} {kind : MessageKind}
    (h : message depth source doc type kind ts = .ok m) :
    fields depth source ts.length [] ts.next.next.next = .ok m.fields := by
  unfold message at h
  split at h
  · cases h
  · split at h
    · cases h
    · split at h
      · cases h
      · obtain ⟨all, hall, h⟩ := bind_eq_ok.1 h
        obtain ⟨⟨description, number⟩, -, h⟩ := bind_eq_ok.1 h
        cases h
        exact hall

theorem afterBrackets_suffix {rest : Tokens} (h : afterBrackets depth ts = .ok rest) :
    rest <:+ ts := by
  induction ts generalizing depth with
  | nil => cases h
  | cons t ts ih =>
    have hlater : ∀ {n}, afterBrackets n ts = .ok rest → rest <:+ t :: ts :=
      fun hn => (ih hn).trans (List.suffix_cons t ts)
    unfold afterBrackets at h
    split at h
    · cases h
    · split at h
      · exact hlater h
      · split at h
        · split at h
          · exact Except.ok.inj h ▸ List.suffix_cons t ts
          · exact hlater h
        · exact hlater h
    · exact hlater h

/-- The message of a declaration is read from some of its last tokens. -/
theorem message_of_meaning (h : meaning depth source doc ts = .ok (.message m)) :
    ∃ type kind us, us <:+ ts ∧ message depth source doc type kind us = .ok m := by
  have hnext : ∀ us : Tokens, us.next <:+ us := fun us => List.tail_suffix us
  -- wherever the brackets after the name end, what counts stands after the equals sign
  have after : ∀ (type : String) (us : Tokens), us <:+ ts →
      (if us.isPunct "=" then meaningOf depth source doc type us.next
        else us.fail (.expectedEquals type)) = .ok (.message m) →
      ∃ type kind us, us <:+ ts ∧ message depth source doc type kind us = .ok m := by
    intro type us hus h
    split at h
    · unfold meaningOf at h
      split at h
      · cases h
      · dsimp only at h
        split at h
        · obtain ⟨n, hn, h⟩ := bind_eq_ok.1 h
          cases h
          exact ⟨_, _, _, (((hnext _).trans (hnext _)).trans (hnext _)).trans hus, hn⟩
        · split at h <;> cases h
    · cases h
  unfold meaning at h
  dsimp only at h
  have hexport : (if ts.isName "export" = true then ts.next else ts) <:+ ts := by
    split
    · exact hnext ts
    · exact List.suffix_refl ts
  generalize (if ts.isName "export" = true then ts.next else ts) = us at h hexport
  have hname := ((hnext _).trans (hnext us)).trans hexport
  split at h
  · obtain ⟨vs, hvs, h⟩ := bind_eq_ok.1 h
    exact after _ _ ((afterBrackets_suffix hvs).trans hname) h
  · exact after _ _ hname h

/-- The declaration is of that message, and writes the types of its fields so. -/
def Writes (depth : Nat) (lines : List String) (d : Declaration) (m : Message)
    (types : List String) : Prop :=
  ∃ (tokens ts : Tokens) (doc : Option String) (type : String) (kind : MessageKind),
    Token.tokenizeFrom (d.start + 1) (sourceOf lines d) = .ok tokens ∧
    ts <:+ tokens ∧ message depth (sourceOf lines d) doc type kind ts = .ok m ∧
    types = writtenTypes (sourceOf lines d) ts.length ts.next.next.next

theorem Writes.fields (h : Writes depth lines d m types) :
    (m.fields.map (·.name)).Nodup ∧ m.fields.map (·.type) = types.map Text.squeeze := by
  obtain ⟨tokens, ts, doc, type, kind, -, -, hm, rfl⟩ := h
  obtain ⟨hnodup, -, htypes⟩ := fields_cases (fields_of_message hm)
  exact ⟨hnodup, htypes⟩

/-- Messages, and the fields of each, have distinct names. -/
def DistinctNames (ms : List Message) : Prop :=
  (ms.map (·.name)).Nodup ∧ ∀ m ∈ ms, (m.fields.map (·.name)).Nodup

/-- What a declaration that is read adds: nothing of interest, an alias, or a message that is new,
under a name that no declaration before it has. -/
theorem readOne_cases (h : readOne depth lines p d = .ok q) :
    d.name ∉ p.seen ∧ q.seen = d.name :: p.seen ∧
      ((q.messages = p.messages ∧ q.types = p.types ∧ q.aliases = p.aliases) ∨
        (∃ target, q.messages = p.messages ∧ q.types = p.types ∧
          q.aliases = p.aliases ++ [(d.name, target)]) ∨
        ∃ m : Message, m.name ∉ p.messages.map (·.name) ∧ (∃ types, Writes depth lines d m types) ∧
          q.messages = p.messages ++ [m] ∧ q.types = p.types ++ [(d.name, m.name)] ∧
          q.aliases = p.aliases) := by
  unfold readOne at h
  dsimp only at h
  split at h
  · cases h
  · split at h
    · cases h
    · next hseen =>
      split at h
      · cases h
      · next tokens htokens =>
        obtain ⟨m, hm, h⟩ := bind_eq_ok.1 h
        refine ⟨by simpa using hseen, ?_⟩
        unfold Progress.add at h
        dsimp only at h
        split at h
        · cases h
          exact ⟨rfl, Or.inl ⟨rfl, rfl, rfl⟩⟩
        · cases h
          exact ⟨rfl, Or.inr (Or.inl ⟨_, rfl, rfl, rfl⟩)⟩
        · split at h
          · cases h
          · next hnew =>
            cases h
            obtain ⟨type, kind, ts, hts, hmessage⟩ := message_of_meaning hm
            exact ⟨rfl, Or.inr (Or.inr ⟨_, by simpa using hnew,
              ⟨_, tokens, ts, _, type, kind, htokens, hts, hmessage, rfl⟩, rfl, rfl, rfl⟩)⟩

/-- Messages have distinct names, and each is written in one of the declarations. -/
def Written (depth : Nat) (lines : List String) (ds : List Declaration) (ms : List Message) :
    Prop :=
  (ms.map (·.name)).Nodup ∧ ∀ m ∈ ms, ∃ d ∈ ds, ∃ types, Writes depth lines d m types

theorem Written.readOne (h : readOne depth lines p d = .ok q)
    (hp : Written depth lines ds p.messages) : Written depth lines (ds ++ [d]) q.messages := by
  have hold : ∀ m ∈ p.messages, ∃ e ∈ ds ++ [d], ∃ types, Writes depth lines e m types := by
    intro m hm
    obtain ⟨e, he, hwrites⟩ := hp.2 m hm
    exact ⟨e, List.mem_append_left _ he, hwrites⟩
  obtain ⟨-, -, ⟨hmessages, -⟩ | ⟨-, hmessages, -⟩ | ⟨m, hname, hwrites, hmessages, -⟩⟩ :=
    readOne_cases h
  · exact hmessages ▸ ⟨hp.1, hold⟩
  · exact hmessages ▸ ⟨hp.1, hold⟩
  · rw [hmessages]
    refine ⟨?_, fun n hn => ?_⟩
    · rw [List.map_append]
      exact nodup_concat _ _ hp.1 hname
    · rcases List.mem_append.1 hn with hn | hn
      · exact hold n hn
      · rw [List.mem_singleton.1 hn]
        exact ⟨d, List.mem_append_right _ List.mem_cons_self, hwrites⟩

theorem table_written {d : Declared} (h : table depth lines ds = .ok d) :
    Written depth lines ds d.messages := by
  unfold table at h
  obtain ⟨p, hp, h⟩ := bind_eq_ok.1 h
  obtain ⟨aliases, -, h⟩ := bind_eq_ok.1 h
  cases h
  exact foldlM_induction (P := fun done p => Written depth lines done p.messages)
    (fun _ _ _ _ => Written.readOne) hp ⟨by simp, by simp⟩

theorem table_distinct (depth : Nat) (lines : List String) (ds : List Declaration) (d : Declared)
    (h : table depth lines ds = .ok d) : DistinctNames d.messages := by
  obtain ⟨hnames, hwritten⟩ := table_written h
  refine ⟨hnames, fun m hm => ?_⟩
  obtain ⟨e, -, types, hwrites⟩ := hwritten m hm
  exact hwrites.fields.1

end EventFlow.Declaration
