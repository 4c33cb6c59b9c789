import EventFlow.Extraction.Flow
import EventFlow.Proofs.Bind
import Mathlib.Data.List.Forall2

/-! Walks that give an answer wherever they start.

`Answers names w a` says that the step `w` through a program never fails and gives `a`, and that
the only new findings are references to the integrations `names`. Steps that answer are put
together to steps that answer. -/

namespace EventFlow.Extraction

/-- Nothing is found but references to the given integrations. -/
structure Findings.Grows (names : List String) (f g : Findings) : Prop where
  imported : g.imported = f.imported
  stubs : g.stubs = f.stubs
  flowNames : g.flowNames = f.flowNames
  systems : ∀ n ∈ g.systems, n ∈ f.systems ∨ n ∈ names

theorem Findings.Grows.refl (names : List String) (f : Findings) : f.Grows names f :=
  ⟨rfl, rfl, rfl, fun _ h => Or.inl h⟩

theorem Findings.Grows.trans {names : List String} {f g h : Findings} (hfg : f.Grows names g)
    (hgh : g.Grows names h) : f.Grows names h where
  imported := hgh.imported.trans hfg.imported
  stubs := hgh.stubs.trans hfg.stubs
  flowNames := hgh.flowNames.trans hfg.flowNames
  systems n hn := by
    rcases hgh.systems n hn with hn | hn
    · exact hfg.systems n hn
    · exact Or.inr hn

variable {α β γ : Type} {names : List String}

/-- The step gives that answer wherever it starts. -/
def Answers (names : List String) (w : Walk α) (a : α) : Prop :=
  ∀ f, ∃ g, w f = .ok (a, g) ∧ f.Grows names g

namespace Answers

theorem pure (a : α) : Answers names (pure a : Walk α) a :=
  fun f => ⟨f, rfl, .refl names f⟩

theorem lift {x : Result α} {a : α} (h : x = .ok a) : Answers names (liftM x : Walk α) a := by
  subst h
  exact fun f => ⟨f, rfl, .refl names f⟩

theorem bind {w : Walk α} {k : α → Walk β} {a : α} {b : β} (hw : Answers names w a)
    (hk : Answers names (k a) b) : Answers names (w >>= k) b := by
  intro f
  obtain ⟨g, hg, hfg⟩ := hw f
  obtain ⟨h, hh, hgh⟩ := hk g
  exact ⟨h, stateBind_eq_ok.2 ⟨a, g, hg, hh⟩, hfg.trans hgh⟩

theorem mapM {w : α → Walk β} {xs : List α} {ys : List β}
    (h : List.Forall₂ (fun x y => Answers names (w x) y) xs ys) :
    Answers names (xs.mapM w) ys := by
  induction h with
  | nil => exact pure []
  | cons hx _ ih =>
    rw [List.mapM_cons]
    exact bind hx (bind ih (pure _))

end Answers

/-! ## How walks end -/

section Ends

variable (declared : Declared) (kind : SliceKind) (expected : Option MessageKind)

/-- An example of a message of the kind. -/
def exampleFrom (l : Nat) (kind : MessageKind) (name : String) (args : List Expr) :
    Walk Example := do
  let data ← exampleData l kind name args
  let ref := declared.resolve name
  noteMessage declared l ref kind data
  return ⟨ref, .object data⟩

/-- The server that the body of a callback describes. -/
def serverFrom (depth : Nat) (description : String) (callback : Expr) : Walk Server := do
  let body ← callbackBody "'.server()'" callback
  let parts ← body.mapM (serverPart depth declared kind)
  return ⟨description, parts.flatMap (·.1), parts.flatMap (·.2)⟩

variable {expected} in
theorem exampleOf_of_builder {builder : String} {kind : MessageKind}
    (hbuilder : MessageKind.ofBuilder? builder = some kind)
    (hkind : ∀ wanted ∈ expected, kind = wanted) (l l' l'' : Nat) (name : String)
    (args : List Expr) (doc : Option String) :
    exampleOf declared expected (.call l (.member l' (.identifier l'' builder) name) args doc) =
      exampleFrom declared l kind name args := by
  simp only [exampleOf, hbuilder]
  cases expected with
  | none => rfl
  | some wanted =>
    have hsame : ¬ kind ≠ wanted := not_not_intro (hkind wanted rfl)
    simp only [if_neg hsame]
    rfl

/-- A call is refused, or an example of a message of the expected kind. -/
theorem exampleOf_cases (e : Expr) :
    (∃ line fault, exampleOf declared expected e = refuse line fault) ∨
      ∃ l kind name args, (∀ wanted ∈ expected, kind = wanted) ∧
        exampleOf declared expected e = exampleFrom declared l kind name args := by
  unfold exampleOf
  split
  · next l l' l'' builder name args doc =>
    cases hbuilder : MessageKind.ofBuilder? builder with
    | none => exact Or.inl ⟨l, _, rfl⟩
    | some kind =>
      cases expected with
      | none => exact Or.inr ⟨l, kind, name, args, by simp, rfl⟩
      | some wanted =>
        dsimp only
        split
        · exact Or.inl ⟨l, _, rfl⟩
        · next hne => exact Or.inr ⟨l, kind, name, args, by simpa using hne, rfl⟩
  · exact Or.inl ⟨_, _, rfl⟩

end Ends

end EventFlow.Extraction
