import EventFlow.Proofs.Emission.Rendering

/-! Rendering steps that are accepted or refused.

A step of rendering is judged by a condition on what it renders: it succeeds exactly if the
condition holds, and otherwise the model is refused for what it says,

    Verdict x P   :   P → x succeeds,   ¬ P → x fails, and the fault is a refusal.

`Accepts` says the same of steps that note what they use, wherever they start. A chain of steps is
judged by the conjunction of their conditions, a list of steps by the condition of each item.
`Needs` is the half of it that holds without any assumption on the values: a step that has
succeeded tells what it needed. -/

namespace EventFlow.Emission

/-- The fault lies in what a model of texts, truth values and integers says; other faults are
values that have no place in such a model, or numbers that cannot be written. -/
def Fault.isRefusal : Fault → Bool
  | .stateNotSource | .longNumber | .notCharacters _ | .nameNotText _ | .namesNotListed
  | .descriptionNotText _ | .requestNotText _ => false
  | _ => true

variable {α β : Type} {P Q : Prop}

/-! ## Steps on their own -/

/-- The step succeeds exactly if `P` holds, and is refused otherwise. -/
structure Verdict (x : Except Fault α) (P : Prop) : Prop where
  accepted : P → ∃ a, x = .ok a
  refused : ¬P → ∃ fault, x = .error fault ∧ fault.isRefusal = true

namespace Verdict

variable {x : Except Fault α}

theorem congr (h : Verdict x P) (hPQ : P ↔ Q) : Verdict x Q :=
  ⟨fun hQ => h.accepted (hPQ.2 hQ), fun hQ => h.refused (mt hPQ.1 hQ)⟩

theorem of_ok (h : ∃ a, x = .ok a) : Verdict x True :=
  ⟨fun _ => h, fun hfalse => absurd trivial hfalse⟩

theorem pure (a : α) : Verdict (pure a) True := of_ok ⟨a, rfl⟩

theorem throw {fault : Fault} (h : fault.isRefusal = true) :
    Verdict (throw fault : Except Fault α) False :=
  ⟨False.elim, fun _ => ⟨fault, rfl, h⟩⟩

theorem bind {k : α → Except Fault β} (hx : Verdict x P) (hk : ∀ a, Verdict (k a) Q) :
    Verdict (x >>= k) (P ∧ Q) := by
  constructor
  · rintro ⟨hP, hQ⟩
    obtain ⟨a, rfl⟩ := hx.accepted hP
    exact (hk a).accepted hQ
  · intro hPQ
    by_cases hP : P
    · obtain ⟨a, rfl⟩ := hx.accepted hP
      exact (hk a).refused fun hQ => hPQ ⟨hP, hQ⟩
    · obtain ⟨fault, rfl, hfault⟩ := hx.refused hP
      exact ⟨fault, rfl, hfault⟩

/-- What follows a step and cannot fail does not change its verdict. -/
theorem andThen {k : α → Except Fault β} (hx : Verdict x P) (hk : ∀ a, ∃ b, k a = .ok b) :
    Verdict (x >>= k) P :=
  (hx.bind fun a => of_ok (hk a)).congr (and_iff_left trivial)

theorem mapM {f : α → Except Fault β} {P : α → Prop} (as : List α)
    (h : ∀ a ∈ as, Verdict (f a) (P a)) : Verdict (as.mapM f) (∀ a ∈ as, P a) := by
  induction as with
  | nil => exact (pure []).congr (by simp)
  | cons a as ih =>
    rw [List.mapM_cons]
    have hrest := ih fun b hb => h b (List.mem_cons_of_mem _ hb)
    refine ((h a List.mem_cons_self).bind fun b => hrest.andThen fun bs => ⟨b :: bs, rfl⟩).congr ?_
    rw [List.forall_mem_cons]

end Verdict

/-! ## Steps that note what they use -/

/-- All functions that are used can be imported. -/
def Usage.Importable (u : Usage) : Prop := ∀ f ∈ u.functions, f ∈ dslFunctions

theorem Usage.Importable.function {u : Usage} (h : u.Importable) {name : String}
    (hname : name ∈ dslFunctions) : (u.function name).Importable := by
  intro f hf
  rcases (Text.mem_mention _ _ _).1 hf with hf | rfl
  · exact h f hf
  · exact hname

theorem Usage.Importable.message {u : Usage} (h : u.Importable) (kind : MessageKind)
    (name : String) : (u.message kind name).Importable := by
  cases kind <;> exact h

/-- Wherever the step starts, it succeeds exactly if `P` holds, and is refused otherwise; it uses
functions of the language only. -/
def Accepts (x : Emit α) (P : Prop) : Prop :=
  ∀ u : Usage, u.Importable →
    (P → ∃ a u', x.run u = (.ok a, u') ∧ u'.Importable) ∧
      (¬P → ∃ fault u', x.run u = (.error fault, u') ∧ fault.isRefusal = true)

namespace Accepts

variable {x : Emit α}

theorem congr (h : Accepts x P) (hPQ : P ↔ Q) : Accepts x Q :=
  fun u hu => ⟨fun hQ => (h u hu).1 (hPQ.2 hQ), fun hQ => (h u hu).2 (mt hPQ.1 hQ)⟩

theorem lift {y : Except Fault α} (h : Verdict y P) : Accepts (liftM y : Emit α) P := by
  intro u hu
  constructor
  · intro hP
    obtain ⟨a, rfl⟩ := h.accepted hP
    exact ⟨a, u, rfl, hu⟩
  · intro hP
    obtain ⟨fault, rfl, hfault⟩ := h.refused hP
    exact ⟨fault, u, rfl, hfault⟩

theorem pure (a : α) : Accepts (pure a : Emit α) True := lift (.pure a)

theorem throw {fault : Fault} (h : fault.isRefusal = true) :
    Accepts (throw fault : Emit α) False := lift (.throw h)

theorem useFunction {name : String} (h : name ∈ dslFunctions) :
    Accepts (useFunction name) True :=
  fun u hu => ⟨fun _ => ⟨(), u.function name, rfl, hu.function h⟩, fun hfalse =>
    absurd trivial hfalse⟩

theorem useMessage (kind : MessageKind) (name : String) : Accepts (useMessage kind name) True :=
  fun u hu =>
    ⟨fun _ => ⟨(), u.message kind name, rfl, hu.message kind name⟩, fun hfalse =>
      absurd trivial hfalse⟩

theorem run_bind (x : Emit α) (k : α → Emit β) (u : Usage) :
    (x >>= k).run u =
      match x.run u with
      | (.ok a, u') => (k a).run u'
      | (.error fault, u') => (.error fault, u') := by
  show (match x.run u with | (r, s) => ExceptT.bindCont k r s) = _
  rcases x.run u with ⟨fault | a, u'⟩ <;> rfl

theorem bind {k : α → Emit β} (hx : Accepts x P) (hk : ∀ a, Accepts (k a) Q) :
    Accepts (x >>= k) (P ∧ Q) := by
  intro u hu
  rw [run_bind]
  constructor
  · rintro ⟨hP, hQ⟩
    obtain ⟨a, u', hrun, hu'⟩ := (hx u hu).1 hP
    rw [hrun]
    exact (hk a u' hu').1 hQ
  · intro hPQ
    by_cases hP : P
    · obtain ⟨a, u', hrun, hu'⟩ := (hx u hu).1 hP
      rw [hrun]
      exact (hk a u' hu').2 fun hQ => hPQ ⟨hP, hQ⟩
    · obtain ⟨fault, u', hrun, hfault⟩ := (hx u hu).2 hP
      rw [hrun]
      exact ⟨fault, u', rfl, hfault⟩

/-- What follows a step and cannot fail does not change its verdict. -/
theorem andThen {k : α → Emit β} (hx : Accepts x P) (hk : ∀ a, Accepts (k a) True) :
    Accepts (x >>= k) P :=
  (hx.bind hk).congr (and_iff_left trivial)

/-- Neither does what comes before. -/
theorem after {k : α → Emit β} (hx : Accepts x True) (hk : ∀ a, Accepts (k a) Q) :
    Accepts (x >>= k) Q :=
  (hx.bind hk).congr (and_iff_right trivial)

theorem mapM {f : α → Emit β} {P : α → Prop} (as : List α) (h : ∀ a ∈ as, Accepts (f a) (P a)) :
    Accepts (as.mapM f) (∀ a ∈ as, P a) := by
  induction as with
  | nil => exact (pure []).congr (by simp)
  | cons a as ih =>
    rw [List.mapM_cons]
    have hrest := ih fun b hb => h b (List.mem_cons_of_mem _ hb)
    refine ((h a List.mem_cons_self).bind fun b => hrest.andThen fun bs => pure (b :: bs)).congr ?_
    rw [List.forall_mem_cons]

end Accepts

/-! ## Steps that have succeeded -/

theorem run_eq_ok {x : Emit α} {u : Usage} {a : α} (h : (x.run u).1.toOption = some a) :
    ∃ u', x.run u = (.ok a, u') := by
  cases hrun : x.run u with
  | mk r u' =>
    rw [hrun] at h
    have hr : r = .ok a := toOption_eq_some h
    exact ⟨u', by rw [hr]⟩

/-- The step succeeds only if `P` holds. -/
def Needs (x : Emit α) (P : Prop) : Prop := ∀ u a u', x.run u = (.ok a, u') → P

namespace Needs

variable {x : Emit α} {k : α → Emit β}

theorem mono (h : Needs x P) (hPQ : P → Q) : Needs x Q := fun u a u' hrun => hPQ (h u a u' hrun)

theorem lift {y : Except Fault α} (h : ∀ a, y = .ok a → P) : Needs (liftM y : Emit α) P := by
  intro u a u' hrun
  cases y with
  | ok b => exact h b rfl
  | error fault => cases hrun

theorem throw (fault : Fault) : Needs (throw fault : Emit α) P := by
  intro u a u' hrun
  cases hrun

/-- A chain of steps needs what its first step needs and what the others need. -/
theorem bind (hx : Needs x P) (hk : ∀ a, Needs (k a) Q) : Needs (x >>= k) (P ∧ Q) := by
  intro u b u'' hrun
  rw [Accepts.run_bind] at hrun
  cases hfirst : x.run u with
  | mk r u' =>
    rw [hfirst] at hrun
    cases r with
    | error fault => cases hrun
    | ok a => exact ⟨hx u a u' hfirst, hk a u' b u'' hrun⟩

theorem nothing (x : Emit α) : Needs x True := fun _ _ _ _ => trivial

theorem before (hx : Needs x P) : Needs (x >>= k) P :=
  (hx.bind fun a => nothing (k a)).mono And.left

theorem after (hk : ∀ a, Needs (k a) Q) : Needs (x >>= k) Q :=
  ((nothing x).bind hk).mono And.right

theorem mapM {f : α → Emit β} {P : α → Prop} (as : List α) (h : ∀ a ∈ as, Needs (f a) (P a)) :
    Needs (as.mapM f) (∀ a ∈ as, P a) := by
  induction as with
  | nil => exact (nothing _).mono fun _ => by simp
  | cons a as ih =>
    rw [List.mapM_cons]
    have hrest := ih fun b hb => h b (List.mem_cons_of_mem _ hb)
    refine ((h a List.mem_cons_self).bind fun b => hrest.before).mono ?_
    rw [List.forall_mem_cons]
    exact id

end Needs

end EventFlow.Emission
