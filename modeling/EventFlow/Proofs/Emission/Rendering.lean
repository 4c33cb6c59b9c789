import EventFlow.Emission.Flow
import EventFlow.Emission.Imports
import EventFlow.Proofs.Text.Order
import EventFlow.Proofs.Token.Spelling

/-! Rendering steps that succeed.

`Renders x P` says that the step `x` never fails, that what it gives has the property `P`, and that
it notes only functions of the language and messages whose names can stand in code. -/

namespace EventFlow.Emission

open Token

/-- What is used can be imported and declared. -/
structure Usage.Sound (u : Usage) : Prop where
  functions : ∀ f ∈ u.functions, f ∈ dslFunctions
  commands : ∀ n ∈ u.commands, isFullName n = true
  events : ∀ n ∈ u.events, isFullName n = true
  states : ∀ n ∈ u.states, isFullName n = true

theorem Usage.Sound.function {u : Usage} (h : u.Sound) {name : String}
    (hname : name ∈ dslFunctions) :
    (u.function name).Sound := by
  refine ⟨fun f hf => ?_, h.commands, h.events, h.states⟩
  rcases (Text.mem_mention _ _ _).1 hf with hf | rfl
  · exact h.functions f hf
  · exact hname

theorem Usage.Sound.message {u : Usage} (h : u.Sound) (kind : MessageKind) {name : String}
    (hname : isFullName name = true) : (u.message kind name).Sound := by
  have hmention : ∀ known : List String, (∀ n ∈ known, isFullName n = true) →
      ∀ n ∈ Text.mention known name, isFullName n = true := by
    intro known hknown n hn
    rcases (Text.mem_mention _ _ _).1 hn with hn | rfl
    · exact hknown n hn
    · exact hname
  cases kind with
  | command => exact ⟨h.functions, hmention _ h.commands, h.events, h.states⟩
  | event => exact ⟨h.functions, h.commands, hmention _ h.events, h.states⟩
  | state => exact ⟨h.functions, h.commands, h.events, hmention _ h.states⟩

theorem isIdentifier_of_isFullName {s : String} (h : isFullName s = true) :
    isIdentifier s = true := by
  obtain ⟨c, rest, hs, hc, hrest⟩ := exists_of_isFullName h
  have hdrop : rest.dropWhile isNamePart = [] := by
    rw [← List.append_nil rest, List.dropWhile_append_of_pos (List.all_eq_true.1 hrest)]
    rfl
  simp [isIdentifier, isIdentifierChars, hs, hc, hdrop]

theorem identifier_of_isFullName (fault : String → Fault) {s : String}
    (h : isFullName s = true) : identifier fault s = .ok s := by
  rw [identifier, nameText_text]
  show (if isIdentifier s = true then _ else _) = _
  rw [if_pos (isIdentifier_of_isFullName h)]
  rfl

theorem mapM_ok {α β ε : Type} {f : α → Except ε β} {xs : List α} {ys : List β}
    (h : List.Forall₂ (fun x y => f x = .ok y) xs ys) : xs.mapM f = .ok ys := by
  induction h with
  | nil => rfl
  | cons hx _ ih =>
    rw [List.mapM_cons, hx, ih]
    rfl

theorem exists_mapM {α β ε : Type} {f : α → Except ε β} {P : β → α → Prop} {xs : List α}
    (h : ∀ x ∈ xs, ∃ y, f x = .ok y ∧ P y x) : ∃ ys, xs.mapM f = .ok ys ∧ List.Forall₂ P ys xs := by
  induction xs with
  | nil => exact ⟨[], rfl, .nil⟩
  | cons x xs ih =>
    obtain ⟨y, hy, hP⟩ := h x List.mem_cons_self
    obtain ⟨ys, hys, hall⟩ := ih fun x hx => h x (List.mem_cons_of_mem _ hx)
    exact ⟨y :: ys, by rw [List.mapM_cons, hy, hys]; rfl, .cons hP hall⟩

variable {α β : Type} {x : Emit α} {k : α → Emit β} {a : α} {P : α → Prop} {Q : β → Prop}
  {name : String}

/-- A step that succeeds is followed by the next one. -/
theorem run_bind {u v : Usage} (h : x.run u = (.ok a, v)) : (x >>= k).run u = (k a).run v := by
  show (match x.run u with | (r, s) => ExceptT.bindCont k r s) = _
  rw [h]
  rfl

/-- The step succeeds wherever it starts, with a result of the given property. -/
def Renders (x : Emit α) (P : α → Prop) : Prop :=
  ∀ u : Usage, ∃ a u', x.run u = (.ok a, u') ∧ (u.Sound → u'.Sound) ∧ P a

namespace Renders

theorem mono {P Q : α → Prop} (h : Renders x P) (hPQ : ∀ a, P a → Q a) : Renders x Q := by
  intro u
  obtain ⟨a, u', hrun, hu', ha⟩ := h u
  exact ⟨a, u', hrun, hu', hPQ a ha⟩

theorem pure (h : P a) : Renders (pure a : Emit α) P :=
  fun u => ⟨a, u, rfl, id, h⟩

theorem lift {x : Except Fault α} (hx : x = .ok a) (h : P a) : Renders (liftM x : Emit α) P := by
  subst hx
  exact fun u => ⟨a, u, rfl, id, h⟩

theorem bind (hx : Renders x P) (hk : ∀ a, P a → Renders (k a) Q) : Renders (x >>= k) Q := by
  intro u
  obtain ⟨a, u', hrun, hu', ha⟩ := hx u
  obtain ⟨b, u'', hrun', hu'', hb⟩ := hk a ha u'
  exact ⟨b, u'', (run_bind hrun).trans hrun', hu'' ∘ hu', hb⟩

/-- A step with a known result. -/
theorem lift_bind {x : Except Fault α} (hx : x = .ok a) (hk : Renders (k a) Q) :
    Renders (liftM x >>= k) Q :=
  bind (lift hx rfl) fun _ ha => ha ▸ hk

/-- A function of the language is noted before a step. -/
theorem useFunction {k : Unit → Emit β} (h : name ∈ dslFunctions) (hk : Renders (k ()) Q) :
    Renders (useFunction name >>= k) Q := by
  have huse : Renders (Emission.useFunction name) fun _ => True :=
    fun u => ⟨(), u.function name, rfl, fun hu => hu.function h, trivial⟩
  exact bind huse fun _ _ => hk

theorem useMessage (kind : MessageKind) (h : isFullName name = true) :
    Renders (useMessage kind name) fun _ => True :=
  fun u => ⟨(), u.message kind name, rfl, fun hu => hu.message kind h, trivial⟩

/-- Each item of a list is rendered with a property of its own. -/
theorem mapM {x : α → Emit β} {as : List α} {P : α → β → Prop}
    (h : ∀ a ∈ as, Renders (x a) (P a)) :
    Renders (as.mapM x) fun bs => List.Forall₂ (fun b a => P a b) bs as := by
  induction as with
  | nil => exact pure .nil
  | cons a as ih =>
    rw [List.mapM_cons]
    refine bind (h a List.mem_cons_self) fun b hb => ?_
    refine bind (ih fun c hc => h c (List.mem_cons_of_mem _ hc)) fun bs hbs => ?_
    exact pure (.cons hb hbs)

/-- What is rendered has all properties that it is known to have one by one. -/
theorem all {ι : Type} [Nonempty ι] {P : ι → α → Prop} (h : ∀ i, Renders x (P i)) :
    Renders x fun a => ∀ i, P i a := by
  intro u
  obtain ⟨i⟩ := ‹Nonempty ι›
  obtain ⟨a, u', hrun, hu', -⟩ := h i u
  refine ⟨a, u', hrun, hu', fun j => ?_⟩
  obtain ⟨b, v, hrun', -, hb⟩ := h j u
  rw [hrun] at hrun'
  cases hrun'
  exact hb

end Renders

/-! ## How steps end -/

section Ends

variable {τ ω ν : Type} [Leaf τ] (m : Model τ ω ν)

/-- The call that builds an example of the message. -/
def builderCall (n : Message τ ω ν) (e : Example τ) : Emit String := do
  let name ← identifier .messageName n.name
  useMessage n.kind name
  let data ← literal e.data
  return n.kind.builder ++ "." ++ name ++ "(" ++ data ++ ")"

/-- The chain of a block from its outcomes on. -/
def specEnd (kind : SliceKind) (s : Spec τ) (steps : List String) : Emit String := do
  let outcomes ← s.outcomes.mapM (outcomeText m kind)
  return Text.joinWith "." steps ++ ".then(" ++ bracketed outcomes ++ ")"

/-- The lines of a server behind those of its entries. -/
def serverEnd (kind : SliceKind) (indent : String) (s : Server τ) (data : List String) :
    Emit (List String) := do
  let specs ← s.specs.mapM (specLines m kind (indent ++ "  "))
  let footer ← serverFooter s.description
  return block indent ".server(" footer (data ++ specs.flatten)

variable {m} {e : Example τ} {expected : Option MessageKind}

theorem exampleCall_of_message {n : Message τ ω ν} (hn : m.message? e.ref = some n)
    (hkind : ∀ wanted ∈ expected, n.kind = wanted) :
    exampleCall m expected e = builderCall n e := by
  simp only [exampleCall, hn]
  cases expected with
  | none => rfl
  | some wanted =>
    have hsame : ¬ n.kind ≠ wanted := not_not_intro (hkind wanted rfl)
    simp only [if_neg hsame]
    rfl

variable (m e expected) in
/-- An example is built, unless it has no message, or one of another kind. -/
theorem exampleCall_cases :
    (m.message? e.ref = none ∧ exampleCall m expected e =
        throw (.undeclaredMessage (Leaf.value e.ref).display)) ∨
      ∃ n, m.message? e.ref = some n ∧
        ((∃ wanted ∈ expected, n.kind ≠ wanted ∧ exampleCall m expected e =
            throw (.wrongKind (Leaf.value e.ref).display n.kind wanted)) ∨
          (∀ wanted ∈ expected, n.kind = wanted) ∧ exampleCall m expected e = builderCall n e) := by
  cases hn : m.message? e.ref with
  | none =>
    refine Or.inl ⟨rfl, ?_⟩
    simp only [exampleCall, hn]
  | some n =>
    refine Or.inr ⟨n, rfl, ?_⟩
    by_cases hkind : ∀ wanted ∈ expected, n.kind = wanted
    · exact Or.inr ⟨hkind, exampleCall_of_message hn hkind⟩
    · push Not at hkind
      obtain ⟨wanted, rfl, hne⟩ := hkind
      refine Or.inl ⟨wanted, rfl, hne, ?_⟩
      simp only [exampleCall, hn, if_pos hne]
      rfl

end Ends

end EventFlow.Emission
