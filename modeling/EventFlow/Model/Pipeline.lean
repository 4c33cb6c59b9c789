import EventFlow.Message.Basic

/-!
Data pipelines: where the messages of a slice go to and come from.

A sink sends a message to a destination, and may look up a state on the way; a source takes one
from an origin.
-/

namespace EventFlow

/-- The message that a pipeline entry is about. -/
structure Target (τ : Type := String) where
  kind : MessageKind
  name : τ
  deriving DecidableEq, Repr

/-- The message that an integration is sent, and its kind there. -/
structure IntegrationMessage (τ : Type := String) where
  name : τ
  type : τ
  deriving DecidableEq, Repr

inductive Destination (τ : Type := String) where
  | stream (pattern : τ)
  | integration (systems : List τ) (message : Option (IntegrationMessage τ))
  | database (collection : τ)
  | topic (name : τ)
  deriving DecidableEq, Repr

/-- Where a message comes from; a null query stands for none. -/
inductive Origin (τ : Type := String) where
  | projection (name idField : τ)
  | readModel (name : τ)
  | database (collection : τ) (query : Json)
  | api (endpoint : τ) (method : Option τ)
  | integration (systems : List τ)
  deriving DecidableEq, Repr

inductive Entry (τ : Type := String) where
  | source (target : Target τ) (origin : Origin τ) (instructions : Option τ)
  | sink (target : Target τ) (destination : Destination τ) (state : Option (Entry τ))
      (instructions : Option τ)
  deriving Repr

namespace Entry

variable {τ : Type}

def target : Entry τ → Target τ
  | .source t _ _ => t
  | .sink t _ _ _ => t

def instructions : Entry τ → Option τ
  | .source _ _ i => i
  | .sink _ _ _ i => i

def isSource : Entry τ → Bool
  | .source .. => true
  | .sink .. => false

def decEq [DecidableEq τ] : (a b : Entry τ) → Decidable (a = b)
  | .source t o i, .source u p j =>
    decidable_of_iff (t = u ∧ o = p ∧ i = j) (by simp)
  | .sink t d none i, .sink u e none j =>
    decidable_of_iff (t = u ∧ d = e ∧ i = j) (by simp)
  | .sink t d (some a) i, .sink u e (some b) j =>
    match decEq a b with
    | .isTrue h => decidable_of_iff (t = u ∧ d = e ∧ i = j) (by simp [h])
    | .isFalse h => .isFalse (by simp [h])
  | .source .., .sink .. => .isFalse (by simp)
  | .sink .., .source .. => .isFalse (by simp)
  | .sink _ _ none _, .sink _ _ (some _) _ => .isFalse (by simp)
  | .sink _ _ (some _) _, .sink _ _ none _ => .isFalse (by simp)

instance [DecidableEq τ] : DecidableEq (Entry τ) := decEq

/-- The integrations that an entry names, in order. -/
def systems : Entry τ → List τ
  | .source _ (.integration names) _ => names
  | .source .. => []
  | .sink _ destination state _ =>
    let own := match destination with
      | .integration names _ => names
      | _ => []
    match state with
    | some entry => own ++ entry.systems
    | none => own

end Entry

/-! ## Equality by meaning -/

variable {τ σ : Type} [Leaf τ] [Leaf σ]

def Target.same (a : Target τ) (b : Target σ) : Bool :=
  a.kind == b.kind && Leaf.same a.name b.name

def IntegrationMessage.same (a : IntegrationMessage τ) (b : IntegrationMessage σ) : Bool :=
  Leaf.same a.name b.name && Leaf.same a.type b.type

def Destination.same : Destination τ → Destination σ → Bool
  | .stream a, .stream b => Leaf.same a b
  | .integration as none, .integration bs none => sameAll Leaf.same as bs
  | .integration as (some m), .integration bs (some n) => sameAll Leaf.same as bs && m.same n
  | .database a, .database b => Leaf.same a b
  | .topic a, .topic b => Leaf.same a b
  | _, _ => false

def Origin.same : Origin τ → Origin σ → Bool
  | .projection a i, .projection b j => Leaf.same a b && Leaf.same i j
  | .readModel a, .readModel b => Leaf.same a b
  | .database a q, .database b r => Leaf.same a b && q.same r
  | .api a m, .api b n => Leaf.same a b && Leaf.sameOption m n
  | .integration as, .integration bs => sameAll Leaf.same as bs
  | _, _ => false

def Entry.same : Entry τ → Entry σ → Bool
  | .source t o i, .source u p j => t.same u && o.same p && Leaf.sameOption i j
  | .sink t d none i, .sink u e none j => t.same u && d.same e && Leaf.sameOption i j
  | .sink t d (some a) i, .sink u e (some b) j =>
    t.same u && d.same e && a.same b && Leaf.sameOption i j
  | _, _ => false

end EventFlow
