import EventFlow.Proofs.Model.Equality
import EventFlow.Proofs.Project.Accounting
import EventFlow.Proofs.Text.Squeeze

/-! Types of fields are compared by their words.

The type of a declared field is what is written, with single spaces between its words. So two
files may write it with other blanks, and there is no conflict between them:

    squeeze a = squeeze b  ↔  words a = words b
    k.same n               ↔  k and n agree but for types, and the words of their types do

A conflict over a message is recorded only if the two files have messages of that name that are not
the same (`Explained`); a step keeps to that, and so does a run over all files. -/

namespace EventFlow

open Text (squeeze words squeeze_eq_intercalate words_squeeze squeeze_eq_squeeze_iff)

/-! ## Messages apart from the types of their fields -/

def Field.untyped (f : Field) : Field := { f with type := "" }

def Message.untyped (n : Message) : Message := { n with fields := n.fields.map Field.untyped }

theorem Field.sameAll_iff_untyped (fs gs : List Field) :
    sameAll Field.same fs gs = true ↔
      sameAll Field.same (fs.map untyped) (gs.map untyped) = true ∧
        fs.map (·.type) = gs.map (·.type) := by
  induction fs generalizing gs with
  | nil => cases gs <;> simp [sameAll]
  | cons f fs ih =>
    cases gs with
    | nil => simp [sameAll]
    | cons g gs =>
      simp only [sameAll, List.map_cons, Bool.and_eq_true, ih, List.cons.injEq, Field.same, untyped,
        Leaf.same_text_iff]
      tauto

/-- Messages are the same if they are so apart from types, and the types are the same. -/
theorem Message.same_iff_untyped (k n : Message) :
    k.same n = true ↔ k.untyped.same n.untyped = true ∧
      k.fields.map (·.type) = n.fields.map (·.type) := by
  simp only [Message.same, untyped, Bool.and_eq_true, Field.sameAll_iff_untyped k.fields]
  tauto

/-! ## Types as they are written -/

namespace Extraction

/-- All that the type declarations of a file say. -/
def declaredIn (depth : Nat) (text : String) : Declaration.Result Declared :=
  Declaration.table depth (linesOf text) (Declaration.scan (linesOf text))

/-- The file declares the message, and writes the types of its fields so. -/
def Declares (depth : Nat) (text : String) (n : Message) (types : List String) : Prop :=
  ∃ declared, declaredIn depth text = .ok declared ∧ n ∈ declared.messages ∧
    ∃ d ∈ Declaration.scan (linesOf text), Declaration.Writes depth (linesOf text) d n types

variable {depth : Nat} {config : Config} {a b text : String} {k n : Message}
    {types types' : List String}

theorem exists_declares {declared : Declared} (h : declaredIn depth text = .ok declared)
    (hn : n ∈ declared.messages) : ∃ types, Declares depth text n types := by
  obtain ⟨d, hd, types, hwrites⟩ := (Declaration.table_written h).2 n hn
  exact ⟨types, declared, h, hn, d, hd, hwrites⟩

theorem Declares.types_eq (h : Declares depth text n types) :
    n.fields.map (·.type) = types.map squeeze := by
  obtain ⟨-, -, -, d, -, hwrites⟩ := h
  exact hwrites.fields.2

theorem Declares.mem {model : Model} (h : Declares config.nestingLimit text n types)
    (hx : extract config text = .ok model) : n ∈ model.messages := by
  obtain ⟨declared, htable, hn, -⟩ := h
  obtain ⟨_, program, htable', -, hx⟩ := exists_of_extract hx
  obtain rfl := Except.ok.inj (htable.symm.trans htable')
  obtain ⟨flows, f, -, rfl⟩ := exists_of_modelOf hx
  exact List.mem_append_left _ hn

/-- Declared messages are the same if they are so apart from types, and the words of their types
are the same. -/
theorem Declares.same_iff (hk : Declares depth a k types) (hn : Declares depth b n types') :
    k.same n = true ↔
      k.untyped.same n.untyped = true ∧ types.map words = types'.map words := by
  have hwords : types.map squeeze = types'.map squeeze ↔ types.map words = types'.map words := by
    constructor <;> intro h
    · simpa [Function.comp_def, words_squeeze] using congrArg (List.map words) h
    · simpa [Function.comp_def, ← squeeze_eq_intercalate] using
        congrArg (List.map (String.intercalate " ")) h
  rw [Message.same_iff_untyped, hk.types_eq, hn.types_eq, hwords]

end Extraction

/-! ## Conflicts over messages -/

namespace Project

open Extraction (extract declaredIn Declares exists_declares)

variable {σ : Type} [Store σ] {config : Config} {store : σ} {o o' : Outcome}

/-- The file has that message. -/
def Describes (config : Config) (store : σ) (path : String) (n : Message) : Prop :=
  ∃ text model, Store.read store path = .ok text ∧ extract config text = .ok model ∧
    n ∈ model.messages

theorem eq_of_describes {path text : String} {k n : Message} {types : List String}
    (h : Declares config.nestingLimit text k types) (hread : Store.read store path = .ok text)
    (hn : Describes config store path n) (hname : k.name = n.name) : k = n := by
  obtain ⟨text', model, hread', hx, hmem⟩ := hn
  obtain rfl : text = text' := Except.ok.inj (hread.symm.trans hread')
  have hw := Extraction.extract_model_wellFormed config text model hx
  exact List.inj_on_of_nodup_map hw.messageNames (h.mem hx) hmem hname

theorem exists_of_message_conflict {merge : Merge} {model : Model} {name path : String}
    (h : merge.conflict? model = some (.message name path)) :
    ∃ k n, (k, path) ∈ merge.messages ∧ n ∈ model.messages ∧ k.name = name ∧ n.name = name ∧
      k.same n = false := by
  rcases Option.or_eq_some_iff.1 h with h | ⟨-, h⟩
  · rcases Option.or_eq_some_iff.1 h with h | ⟨-, h⟩
    · obtain ⟨f, -, hf⟩ := List.exists_of_findSome?_eq_some h
      obtain ⟨_, -, ⟨⟩⟩ := Option.map_eq_some_iff.1 hf
    · obtain ⟨n, hn, hc⟩ := List.exists_of_findSome?_eq_some h
      rw [Merge.messageConflict?_eq] at hc
      obtain ⟨⟨k, _⟩, hfind, hc⟩ := Option.bind_eq_some_iff.1 hc
      split at hc
      · cases hc
      · next hdiffers =>
        cases hc
        exact ⟨k, n, List.mem_of_find?_eq_some hfind, hn, by simpa using List.find?_some hfind,
          rfl, by simpa using hdiffers⟩
  · obtain ⟨i, -, hi⟩ := List.exists_of_findSome?_eq_some h
    rw [Merge.integrationConflict?_eq] at hi
    obtain ⟨_, -, hi⟩ := Option.bind_eq_some_iff.1 hi
    split at hi <;> cases hi

/-- Messages are merged from the files that are noted with them, and conflicts over messages are
recorded only where two files have different ones. -/
structure Explained (config : Config) (store : σ) (o : Outcome) : Prop where
  messages : ∀ k path, (k, path) ∈ o.merge.messages → Describes config store path k
  conflicts : ∀ f ∈ o.failures, ∀ name path, f.cause = .conflict (.message name path) →
    ∃ k n, Describes config store path k ∧ Describes config store f.path n ∧ k.name = name ∧
      n.name = name ∧ k.same n = false

theorem Explained.step {path : String} (h : Explained config store o)
    (hs : compileFile config store o path = .ok o') : Explained config store o' := by
  cases hread : Store.read store path with
  | error fault =>
    rw [compileFile, hread] at hs
    cases fault <;> cases hs
    refine ⟨h.messages, fun f hf name p hcause => ?_⟩
    rcases List.mem_append.1 hf with hf | hf
    · exact h.conflicts f hf name p hcause
    · rw [List.mem_singleton.1 hf] at hcause
      cases hcause
  | ok text =>
    obtain ⟨-, ⟨model, hx, -, hmerge, -, hfailures⟩ | ⟨f, hrecorded, hmerge, -, hfailures⟩⟩ :=
      compileFile_cases hread hs
    · refine ⟨fun k p hk => ?_, hfailures ▸ h.conflicts⟩
      rw [hmerge, Merge.add, List.mem_append, List.mem_map] at hk
      rcases hk with hk | ⟨n, hn, heq⟩
      · exact h.messages k p hk
      · cases heq
        exact ⟨text, model, hread, hx, (List.mem_filter.1 hn).1⟩
    · refine ⟨hmerge ▸ h.messages, fun g hg name p hcause => ?_⟩
      rw [hfailures, List.mem_append, List.mem_singleton] at hg
      rcases hg with hg | rfl
      · exact h.conflicts g hg name p hcause
      · cases hrecorded with
        | refused => cases hcause
        | conflict model hx c hc =>
          cases hcause
          obtain ⟨k, n, hk, hn, hrest⟩ := exists_of_message_conflict hc
          exact ⟨k, n, h.messages k p hk, ⟨text, model, hread, hx, hn⟩, hrest⟩

theorem Explained.run {files : List String} (h : Explained config store o)
    (hr : compileFiles config store o files = .ok o') : Explained config store o' := by
  induction files generalizing o with
  | nil =>
    cases hr
    exact h
  | cons path files ih =>
    unfold compileFiles at hr
    split at hr
    · cases hr
      exact ⟨h.messages, h.conflicts⟩
    · obtain ⟨o₁, hfile, hr⟩ := bind_eq_ok.1 hr
      exact ih (h.step hfile) hr

/-- **The normal form of types.**  A text is squeezed to its words with single spaces between them,
so squeezed texts are the same just if the words are, and squeezing one again changes nothing. The
type of every declared field is squeezed from what is written. Of two declared messages, one merged
before the other, there is no conflict just if they are the same apart from types, and the words of
their types are the same; so two files of a project that declare a message alike but for the blanks
in its types do not conflict over it. -/
theorem squeeze_normalizes_types :
    (∀ a, squeeze a = " ".intercalate (words a)) ∧
    (∀ a b, squeeze a = squeeze b ↔ words a = words b) ∧
    (∀ a, squeeze (squeeze a) = squeeze a) ∧
    (∀ depth text declared, declaredIn depth text = .ok declared → ∀ n ∈ declared.messages,
      ∃ types, Declares depth text n types) ∧
    (∀ depth text n types, Declares depth text n types →
      n.fields.map (·.type) = types.map squeeze) ∧
    (∀ depth a b k n types types', Declares depth a k types → Declares depth b n types' →
      ∀ (merge : Merge) path, merge.message? n.name = some (k, path) →
        (merge.messageConflict? n = none ↔
          k.untyped.same n.untyped = true ∧ types.map words = types'.map words)) ∧
    ∀ (config : Config) a b k n types types', Declares config.nestingLimit a k types →
      Declares config.nestingLimit b n types' → k.name = n.name →
      k.untyped.same n.untyped = true → types.map words = types'.map words →
      ∀ (store : σ) root o, compile config store root = .ok o →
        ∀ p q, Store.read store p = .ok a → Store.read store q = .ok b →
          ∀ f ∈ o.failures, f.path = q → f.cause ≠ .conflict (.message n.name p) := by
  refine ⟨squeeze_eq_intercalate, fun _ _ => squeeze_eq_squeeze_iff,
    fun a => squeeze_eq_squeeze_iff.2 (words_squeeze a),
    fun _ _ _ h _ => exists_declares h, fun _ _ _ _ h => h.types_eq, ?_, ?_⟩
  · intro depth a b k n types types' hk hn merge path hfound
    rw [← hk.same_iff hn, Merge.messageConflict?, hfound]
    cases hsame : k.same n <;> simp [hsame]
  · rintro config a b k n types types' hk hn hname huntyped hwords store root o ho p _ hp hq f hf
      rfl hcause
    have hexplained : Explained config store o := Explained.run ⟨by simp, by simp⟩ ho
    obtain ⟨k', n', hk', hn', hkname, hnname, hdiffers⟩ := hexplained.conflicts f hf _ _ hcause
    obtain rfl := eq_of_describes hk hp hk' (hname.trans hkname.symm)
    obtain rfl := eq_of_describes hn hq hn' hnname.symm
    rw [(hk.same_iff hn).2 ⟨huntyped, hwords⟩] at hdiffers
    cases hdiffers

/-- A file that declares one message, with one field of the type. -/
def declaring (type : String) : String := r"type A=Event<'A',{f:" ++ type ++ r"}>;"

/-- Two files that write a type with other blanks. -/
def respelled : Memory where
  files := [("a.flow.ts", declaring "A | B"), ("b.flow.ts", declaring "A\u2003|\n\t B")]

theorem squeeze_normalizes_types_respelled :
    ∃ o k, compile {} respelled "" = .ok o ∧
      Declares ({} : Config).nestingLimit (declaring "A | B") k ["A | B"] ∧
      Declares ({} : Config).nestingLimit (declaring "A\u2003|\n\t B") k ["A\u2003|\n\t B"] ∧
      ∀ f ∈ o.failures, f.path = "b.flow.ts" →
        f.cause ≠ .conflict (.message k.name "a.flow.ts") := by
  let k : Message := ⟨"A", .event, [⟨"f", "A | B", true, none, .null⟩], none, 1⟩
  have hfiles : flowFiles {} respelled "" = ["a.flow.ts", "b.flow.ts"] :=
    flowFiles_eq_of_perm _ _ _ _ (by decide) (by decide)
  have ho : (compile {} respelled "").toOption.isSome = true := by
    rw [compile, hfiles]
    decide +kernel
  obtain ⟨o, ho⟩ := Option.isSome_iff_exists.1 ho
  have hok := toOption_eq_some ho
  have hdeclares (depth : Nat) (type : String) (d : Declaration)
      (hd : d ∈ Declaration.scan (Extraction.linesOf (declaring type)))
      (hk : (declaredIn depth (declaring type)).toOption.any (k ∈ ·.messages) = true)
      (h : let source := Declaration.sourceOf (Extraction.linesOf (declaring type)) d
        (Token.tokenizeFrom (d.start + 1) source).toOption.any (fun ts =>
          (Declaration.message depth source none "A" .event (ts.drop 5)).toOption = some k ∧
          [type] = Declaration.writtenTypes source (ts.drop 5).length
            (Declaration.Tokens.next (ts.drop 5)).next.next) = true) :
      Declares depth (declaring type) k [type] := by
    simp only [Option.any_eq_true, decide_eq_true_eq] at hk h
    obtain ⟨declared, hdeclared, hk⟩ := hk
    obtain ⟨ts, hts, hmessage, htypes⟩ := h
    exact ⟨declared, toOption_eq_some hdeclared, hk, d, hd, ts, ts.drop 5, none, "A", .event,
      toOption_eq_some hts, List.drop_suffix 5 ts, toOption_eq_some hmessage, htypes⟩
  have ha := hdeclares ({} : Config).nestingLimit "A | B" ⟨"A", 0, 0, .closed⟩ (by decide +kernel)
    (by decide +kernel) (by decide +kernel)
  have hb := hdeclares ({} : Config).nestingLimit "A\u2003|\n\t B" ⟨"A", 0, 1, .closed⟩
    (by decide +kernel) (by decide +kernel) (by decide +kernel)
  refine ⟨o, k, hok, ha, hb, ?_⟩
  exact squeeze_normalizes_types.2.2.2.2.2.2 {} _ _ k k _ _ ha hb rfl (by decide +kernel)
    (by decide +kernel) respelled "" o hok _ _ (read_of_text? rfl) (read_of_text? rfl)

end Project

end EventFlow
