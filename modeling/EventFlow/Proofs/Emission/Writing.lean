import EventFlow.Emission.Entry
import EventFlow.Emission.Spec
import EventFlow.Proofs.Program.Reading

/-! Texts that write expressions.

`Writes d t P` says that the text `t` stands on one line and is read, by the grammar of depth `d`,
as an expression with the property `P`. Emitted texts are put together with the same few forms, and
each form writes what its parts write:

    Writes d a P → Writes d b Q → Writes (d + 1) ("[" ++ a ++ ", " ++ b ++ "]") (array of P and Q)

So the rendering of a model is followed part by part, without looking at lexemes again. -/

namespace EventFlow.Emission

open Token
open Program (ReadsExpr ReadsLinks ReadsProperty isCallable)

variable {d : Nat} {ts : List String}

/-- The text is one line of code that is read as an expression with the given property. -/
def Writes (d : Nat) (t : String) (P : Expr → Prop) : Prop :=
  ∃ ls, Inline t ls ∧ ReadsExpr d ls P

theorem Writes.mono {t : String} {P Q : Expr → Prop} (h : Writes d t P) (hPQ : ∀ e, P e → Q e) :
    Writes d t Q := by
  obtain ⟨ls, ht, hP⟩ := h
  exact ⟨ls, ht, hP.mono hPQ⟩

/-! ## Operands -/

theorem Writes.text (d : Nat) (s : String) :
    Writes d (quote s) fun e => ∃ line, e = .text line s :=
  ⟨_, Inline.quote s, ReadsExpr.text d s⟩

theorem Writes.boolean (d : Nat) (b : Bool) :
    Writes d (if b then "true" else "false") fun e => ∃ line, e = .boolean line b := by
  refine ⟨_, ?_, ReadsExpr.boolean d b⟩
  cases b <;> exact Inline.of_check

theorem Writes.null (d : Nat) : Writes d "null" fun e => ∃ line, e = .null line :=
  ⟨_, Inline.of_check, ReadsExpr.null d⟩

theorem Writes.int (d : Nat) {i : Int} (h : i.natAbs < Number.digitLimit) :
    Writes d (Number.writeInt i) fun e => ∃ line, e = .number line (.int i) := by
  refine ⟨_, Inline.int h, ?_⟩
  unfold Inline.intLexemes
  by_cases hi : i < 0
  · rw [if_pos hi]
    refine (ReadsExpr.minus d _).mono ?_
    rintro e ⟨line, rfl⟩
    have hneg : -(i.natAbs : Int) = i := by omega
    exact ⟨line, by rw [Number.neg, hneg]⟩
  · rw [if_neg hi]
    have hpos : (i.natAbs : Int) = i := by omega
    rw [hpos]
    exact ReadsExpr.nat d _

theorem Writes.name (d : Nat) {s : String} (hs : isFullName s = true)
    (hname : s ∉ Program.literalNames) : Writes d s fun e => ∃ line, e = .identifier line s :=
  ⟨_, Inline.name hs, ReadsExpr.name d hname⟩

/-! ## Lists -/

variable {α : Type} {P : α → Expr → Prop} {xs : List α}

/-- Two relations one after the other relate two lists by way of a third. -/
theorem exists_between {β γ : Type} {R : α → γ → Prop} {S : γ → β → Prop} {as : List α}
    {bs : List β} (h : List.Forall₂ (fun a b => ∃ c, R a c ∧ S c b) as bs) :
    ∃ cs, List.Forall₂ R as cs ∧ List.Forall₂ S cs bs := by
  induction h with
  | nil => exact ⟨[], .nil, .nil⟩
  | cons hab _ ih =>
    obtain ⟨c, hR, hS⟩ := hab
    obtain ⟨cs, hRs, hSs⟩ := ih
    exact ⟨c :: cs, .cons hR hRs, .cons hS hSs⟩

theorem Writes.array (h : List.Forall₂ (fun t x => Writes d t (P x)) ts xs) :
    Writes (d + 1) (bracketed ts) fun e =>
      ∃ line es, e = .array line es ∧ List.Forall₂ (fun e x => P x e) es xs := by
  obtain ⟨lss, hts, hlss⟩ := exists_between h
  refine ⟨_, ?_, ReadsExpr.array hlss (Or.inl rfl)⟩
  have hopen : Inline "[" [.punct "["] := Inline.of_mem_marks (by decide)
  have hclose : Inline "]" [.punct "]"] := Inline.of_mem_marks (by decide)
  rw [List.append_nil]
  exact (hopen.append (Inline.joinWith hts) (Or.inl (by decide))).append hclose
    (Or.inr (by decide))

/-- The text is read as an entry of an object with the given property. -/
def WritesMember (d : Nat) (t : String) (P : Property → Prop) : Prop :=
  ∃ ls, Inline t ls ∧ ReadsProperty d ls P

/-- A key as it is written, and its value. -/
theorem WritesMember.keyed {k s : String} {P : Expr → Prop} (hk : Inline.isCleanKey k = true)
    (h : Writes d s P) :
    WritesMember (d + 1) (propertyKey k ++ ": " ++ s) fun p =>
      ∃ line e, p = .keyed line k e ∧ P e := by
  obtain ⟨ls, hs, hP⟩ := h
  have hrest : Inline (": " ++ s) (.punct ":" :: ls) := Inline.colon.append hs (Or.inl (by decide))
  obtain ⟨l, hl, hmember⟩ := Inline.key_append hk hrest (by simp; decide)
  rw [← String.append_assoc] at hmember
  exact ⟨_, hmember, ReadsProperty.keyed hl hP⟩

/-- A name as a key. -/
theorem WritesMember.named {k s : String} {P : Expr → Prop} (hk : isFullName k = true)
    (h : Writes d s P) :
    WritesMember (d + 1) (k ++ ": " ++ s) fun p => ∃ line e, p = .keyed line k e ∧ P e := by
  obtain ⟨ls, hs, hP⟩ := h
  have hrest : Inline (": " ++ s) (.punct ":" :: ls) := Inline.colon.append hs (Or.inl (by decide))
  have hmember := Inline.name_append hk hrest (by simp; decide)
  rw [← String.append_assoc] at hmember
  exact ⟨_, hmember, ReadsProperty.keyed (Or.inl rfl) hP⟩

theorem Writes.object {P : α → Property → Prop}
    (h : List.Forall₂ (fun t x => WritesMember d t (P x)) ts xs) :
    Writes d (r"{ " ++ Text.joinWith ", " ts ++ r" }") fun e =>
      ∃ line ps, e = .object line ps ∧ List.Forall₂ (fun p x => P x p) ps xs := by
  obtain ⟨lss, hts, hlss⟩ := exists_between h
  refine ⟨_, ?_, ReadsExpr.object hlss⟩
  exact (Inline.openBrace.append (Inline.joinWith hts) (Or.inl (by decide))).append
    Inline.closeBrace (Or.inr (by decide))

theorem Writes.emptyObject (d : Nat) :
    Writes d "{}" fun e => ∃ line, e = .object line [] := by
  have hread := ReadsExpr.object (d := d) (P := fun (_ : Unit) _ => True) .nil
  refine ⟨_, Inline.of_check, hread.mono ?_⟩
  rintro e ⟨line, ps, rfl, hps⟩
  cases hps
  exact ⟨line, rfl⟩

/-! ## Calls and chains -/

/-- Arguments between parentheses. -/
theorem inline_arguments {lss : List (List Lexeme)} (h : List.Forall₂ Inline ts lss) {head : String}
    {ls : List Lexeme} (hhead : Inline head ls) (hclosed : closed head = true) :
    Inline (head ++ Text.joinWith ", " ts ++ ")") (ls ++ listed lss ++ [.punct ")"]) :=
  (hhead.append (Inline.joinWith h) (Or.inl hclosed)).append Inline.closeParen (Or.inr (by decide))

/-- The text is some method calls with the given property. -/
def WritesLinks (d : Nat) (t : String) (Q : List Link → Prop) : Prop :=
  (t = "" ∨ closed t = true) ∧ ∃ ls, Inline t ls ∧ ReadsLinks d ls Q

theorem WritesLinks.mono {t : String} {P Q : List Link → Prop} (h : WritesLinks d t P)
    (hPQ : ∀ links, P links → Q links) : WritesLinks d t Q := by
  obtain ⟨hends, ls, ht, hP⟩ := h
  exact ⟨hends, ls, ht, hP.mono hPQ⟩

theorem WritesLinks.empty (d : Nat) : WritesLinks d "" (· = []) :=
  ⟨Or.inl rfl, [], Inline.empty, ReadsLinks.nil d⟩

theorem WritesLinks.append {a b : String} {P Q : List Link → Prop} (ha : WritesLinks d a P)
    (hb : WritesLinks d b Q) :
    WritesLinks d (a ++ b) fun links => ∃ xs ys, links = xs ++ ys ∧ P xs ∧ Q ys := by
  obtain ⟨hea, la, hia, hPa⟩ := ha
  obtain ⟨heb, lb, hib, hPb⟩ := hb
  refine ⟨?_, la ++ lb, ?_, hPa.append hPb⟩
  · rcases heb with rfl | heb
    · simpa using hea
    · exact Or.inr (closed_append heb)
  · rcases hea with rfl | hea
    · -- nothing is read from nothing
      have : la = [] := by
        have h := hia.code.codeIn_eq
        have hnil := Code.nil.codeIn_eq
        exact (Option.some.inj (hnil.symm.trans h)).symm
      rw [this, List.nil_append, String.empty_append]
      exact hib
    · exact hia.append hib (Or.inl hea)

theorem WritesLinks.method (h : List.Forall₂ (fun t x => Writes d t (P x)) ts xs) {method : String}
    (hmethod : isFullName method = true) :
    WritesLinks (d + 1) (methodCall method ts) fun links =>
      ∃ line es, links = [⟨line, method, es, none⟩] ∧ List.Forall₂ (fun e x => P x e) es xs := by
  obtain ⟨lss, hts, hlss⟩ := exists_between h
  have hhead := (Inline.point hmethod).append Inline.openParen (Or.inr (by decide))
  refine ⟨Or.inr (closed_append (by decide)), _,
    inline_arguments hts hhead (closed_append (by decide)), ?_⟩
  have := ReadsLinks.method hlss (Or.inl rfl) method
  rw [List.append_nil] at this
  exact this

/-- A call, and method calls on its result. -/
theorem Writes.chain (h : List.Forall₂ (fun t x => Writes d t (P x)) ts xs) {f : String}
    (hf : isFullName f = true) (hcallable : isCallable f = true) {links : String}
    {Q : List Link → Prop} (hlinks : WritesLinks (d + 1) links Q) :
    Writes (d + 1) (f ++ "(" ++ Text.joinWith ", " ts ++ ")" ++ links) fun e =>
      ∃ line line' es chain, e.chain = (.call line (.identifier line' f) es none, chain) ∧
        List.Forall₂ (fun e x => P x e) es xs ∧ Q chain := by
  obtain ⟨lss, hts, hlss⟩ := exists_between h
  obtain ⟨-, ls, hlinks, hQ⟩ := hlinks
  have hhead := (Inline.name hf).append Inline.openParen (Or.inr (by decide))
  have hcall := inline_arguments hts hhead (closed_append (by decide))
  refine ⟨_, hcall.append hlinks (Or.inl (closed_append (by decide))), ?_⟩
  have := ReadsExpr.chain hlss hcallable hQ
  simpa using this

theorem Writes.call (h : List.Forall₂ (fun t x => Writes d t (P x)) ts xs) {f : String}
    (hf : isFullName f = true) (hcallable : isCallable f = true) :
    Writes (d + 1) (f ++ "(" ++ Text.joinWith ", " ts ++ ")") fun e =>
      ∃ line line' es, e = .call line (.identifier line' f) es none ∧
        List.Forall₂ (fun e x => P x e) es xs := by
  obtain ⟨lss, hts, hlss⟩ := exists_between h
  have hhead := (Inline.name hf).append Inline.openParen (Or.inr (by decide))
  exact ⟨_, inline_arguments hts hhead (closed_append (by decide)), ReadsExpr.call hlss hcallable⟩

/-- A call of a member of a variable. -/
theorem Writes.memberCall (h : List.Forall₂ (fun t x => Writes d t (P x)) ts xs) {a m : String}
    (ha : isFullName a = true) (hcallable : isCallable a = true)
    (hm : isFullName m = true) :
    Writes (d + 1) (a ++ "." ++ m ++ "(" ++ Text.joinWith ", " ts ++ ")") fun e =>
      ∃ line line' line'' es, e = .call line (.member line' (.identifier line'' a) m) es none ∧
        List.Forall₂ (fun e x => P x e) es xs := by
  obtain ⟨lss, hts, hlss⟩ := exists_between h
  have hhead := (Inline.member ha hm).append Inline.openParen (Or.inr (by decide))
  exact ⟨_, inline_arguments hts hhead (closed_append (by decide)),
    ReadsExpr.memberCall hlss hcallable m⟩

end EventFlow.Emission
