import EventFlow.Program.Statement
import EventFlow.Proofs.Token.Inline

/-! How the grammar reads code.

`ReadsExpr d ls P` says that the lexemes `ls`, followed by what ends an expression, are read by the
grammar of depth `d` as an expression with the property `P`; what stands behind is left as it is.
The readers for sequences, calls and functions are described by what they make of parts that are
read in this way:

    ReadsExpr d a P → ReadsExpr d b Q → ReadsExpr (d + 1) ("[" a "," b "]") (an array of P and Q)

Lines and places of tokens play no part, since no property depends on them. -/

namespace EventFlow.Program

open Token

variable {us ts rest : Stream} {l : Lexeme} {ls : List Lexeme} {t : Lexed} {g : Grammar} {e : Expr}
  {d fuel : Nat} {P : Expr → Prop} {lss : List (List Lexeme)} {close f : String} {u : Lexed}

/-! ## Lexemes of a stream -/

def Stream.lexemes (ts : Stream) : List Lexeme := ts.map (·.token.lexeme)

theorem lexemes_eq_cons (h : us.lexemes = l :: ls) :
    ∃ t vs, us = t :: vs ∧ t.token.lexeme = l ∧ Stream.lexemes vs = ls :=
  List.map_eq_cons_iff.1 h

theorem lexemes_eq_append {la lb : List Lexeme} (h : us.lexemes = la ++ lb) :
    ∃ va vb, us = va ++ vb ∧ Stream.lexemes va = la ∧ Stream.lexemes vb = lb :=
  List.map_eq_append_iff.1 h

theorem lexemes_eq_one (h : us.lexemes = [l]) : ∃ t, us = [t] ∧ t.token.lexeme = l := by
  obtain ⟨t, vs, rfl, ht, hvs⟩ := lexemes_eq_cons h
  obtain rfl : vs = [] := List.map_eq_nil_iff.1 hvs
  exact ⟨t, rfl, ht⟩

theorem lexemes_eq_snoc (h : us.lexemes = ls ++ [l]) :
    ∃ vs t, us = vs ++ [t] ∧ Stream.lexemes vs = ls ∧ t.token.lexeme = l := by
  obtain ⟨vs, last, rfl, hvs, hlast⟩ := lexemes_eq_append h
  obtain ⟨t, rfl, ht⟩ := lexemes_eq_one hlast
  exact ⟨vs, t, rfl, hvs, ht⟩

theorem length_lexemes (us : Stream) : us.lexemes.length = us.length := List.length_map _

section Head

variable (t : Lexed) (us : Stream)

theorem isPunct_cons (mark : String) :
    Stream.isPunct (t :: us) mark = (t.token.lexeme == .punct mark) := rfl

theorem isName_cons (name : String) :
    Stream.isName (t :: us) name = (t.token.lexeme == .identifier name) := rfl

theorem isEof_cons : Stream.isEof (t :: us) = (t.token.lexeme == .eof) := rfl

theorem next_cons : Stream.next (t :: us) = us := rfl

end Head

/-! ## The end of an expression -/

/-- Marks after which an expression does not go on. -/
def endMarks : List String := [",", ")", "]", r"}", ";"]

/-- The lexeme ends an expression: one of the marks, or the end of the text. -/
def IsEnd (l : Lexeme) : Prop := l = .eof ∨ ∃ mark ∈ endMarks, l = .punct mark

/-- The stream begins with what ends an expression. -/
def Ends (ts : Stream) : Prop := ∃ t us, ts = t :: us ∧ IsEnd t.token.lexeme

theorem Ends.of_mark {mark : String} (h : t.token.lexeme = .punct mark) (hmark : mark ∈ endMarks) :
    Ends (t :: us) :=
  ⟨t, us, rfl, Or.inr ⟨mark, hmark, h⟩⟩

theorem Ends.of_eof (h : t.token.lexeme = .eof) : Ends (t :: us) :=
  ⟨t, us, rfl, Or.inl h⟩

/-- An expression ends where no suffix can begin. -/
theorem suffixes_of_ends (h : Ends ts) (g : Grammar) (e : Expr) (fuel : Nat) :
    suffixes g e fuel ts = .ok (e, ts) := by
  obtain ⟨t, us, rfl, ht⟩ := h
  cases fuel with
  | zero => rfl
  | succ fuel =>
    rcases ht with ht | ⟨mark, hmark, ht⟩
    · simp only [suffixes, List.head?_cons, ht]
    · simp only [suffixes, List.head?_cons, ht]
      simp only [endMarks, List.mem_cons, List.not_mem_nil, or_false] at hmark
      rcases hmark with rfl | rfl | rfl | rfl | rfl <;> rfl

theorem assertions_of_ends (h : Ends ts) (fuel : Nat) : assertions fuel ts = .ok ts := by
  obtain ⟨t, us, rfl, ht⟩ := h
  cases fuel with
  | zero => rfl
  | succ fuel => rcases ht with ht | ⟨mark, -, ht⟩ <;> simp [assertions, isName_cons, ht]

/-- An expression is an operand and its suffixes, up to a mark that ends it. -/
theorem expression_of_suffixes {first : Expr} (hparameters : parameters? ts = .ok none)
    (hoperand : operand g ts = .ok (first, us))
    (hsuffixes : suffixes g first us.length us = .ok (e, rest)) (hrest : Ends rest) :
    expression g ts = .ok (e, rest) := by
  unfold expression
  rw [hparameters]
  show (operand g ts >>= _) = _
  rw [hoperand]
  show (suffixes g first us.length us >>= _) = _
  rw [hsuffixes]
  show (assertions rest.length rest >>= _) = _
  rw [assertions_of_ends hrest]
  rfl

theorem expression_of_operand (hparameters : parameters? ts = .ok none)
    (hoperand : operand g ts = .ok (e, rest)) (hrest : Ends rest) :
    expression g ts = .ok (e, rest) :=
  expression_of_suffixes hparameters hoperand (suffixes_of_ends hrest g e _) hrest

/-! ## Expressions -/

/-- A lexeme that can begin an expression. -/
def isStart : Lexeme → Bool
  | .punct mark => ["(", "[", r"{", "-"].contains mark
  | .eof => false
  | _ => true

/-- The lexemes are read as an expression with the given property, whatever follows its end. -/
structure ReadsExpr (d : Nat) (ls : List Lexeme) (P : Expr → Prop) : Prop where
  starts : ∃ l ∈ ls.head?, isStart l = true
  reads : ∀ (source : List Char) (us rest : Stream), us.lexemes = ls → Ends rest →
    ∃ e, expression (grammar source d) (us ++ rest) = .ok (e, rest) ∧ P e

theorem ReadsExpr.mono {Q : Expr → Prop} (h : ReadsExpr d ls P) (hPQ : ∀ e, P e → Q e) :
    ReadsExpr d ls Q where
  starts := h.starts
  reads source us rest hus hrest := by
    obtain ⟨e, he, hP⟩ := h.reads source us rest hus hrest
    exact ⟨e, he, hPQ e hP⟩

/-- A stream that does not begin with a name or a parenthesis does not begin a function. -/
theorem parameters?_of_not (hname : t.token.name? = none) (hopen : t.token.lexeme ≠ .punct "(") :
    parameters? (t :: us) = .ok none := by
  unfold parameters?
  rw [if_neg (by simp [Stream.name?, hname]), if_neg, if_neg]
  · simp [isPunct_cons, hopen]
  · intro h
    simp only [Bool.and_eq_true, isName_cons, beq_iff_eq] at h
    simp [name?, h.1] at hname

/-- A name that is followed by the end of an expression does not begin a function. -/
theorem parameters?_of_ends {name : String} (ht : t.token.lexeme = .identifier name) (h : Ends us) :
    parameters? (t :: us) = .ok none := by
  obtain ⟨u, vs, rfl, hu | ⟨mark, hmark, hu⟩⟩ := h
  · simp [parameters?, next_cons, isPunct_cons, isName_cons, ht, hu]
  · unfold parameters?
    simp only [next_cons, isPunct_cons, ht, hu]
    simp only [endMarks, List.mem_cons, List.not_mem_nil, or_false] at hmark
    rcases hmark with rfl | rfl | rfl | rfl | rfl <;> simp

/-! ## Single lexemes -/

/-- One lexeme that is an operand by itself. -/
theorem ReadsExpr.single (hstart : isStart l = true) (hpunct : ∀ mark, l ≠ .punct mark)

    (h : ∀ g (t : Lexed) rest, t.token.lexeme = l →
      ∃ e, operand g (t :: rest) = .ok (e, rest) ∧ P e) :
    ReadsExpr d [l] P where
  starts := ⟨l, rfl, hstart⟩
  reads source us rest hus hrest := by
    obtain ⟨t, rfl, ht⟩ := lexemes_eq_one hus
    obtain ⟨e, he, hP⟩ := h (grammar source d) t rest ht
    refine ⟨e, expression_of_operand ?_ he hrest, hP⟩
    cases hname : t.token.name? with
    | none => exact parameters?_of_not hname (by rw [ht]; exact hpunct _)
    | some name =>
      have hlexeme : t.token.lexeme = .identifier name := by
        unfold name? at hname
        split at hname
        · next hn => cases hname; exact hn
        · cases hname
      exact parameters?_of_ends hlexeme hrest

theorem ReadsExpr.text (d : Nat) (s : String) :
    ReadsExpr d [.text s] fun e => ∃ line, e = .text line s :=
  ReadsExpr.single rfl (by simp) fun g t rest ht =>
    ⟨.text t.token.line s, by simp [operand, ht, next_cons], _, rfl⟩

theorem ReadsExpr.nat (d : Nat) (n : Number) :
    ReadsExpr d [.number n] fun e => ∃ line, e = .number line n :=
  ReadsExpr.single rfl (by simp) fun g t rest ht =>
    ⟨.number t.token.line n, by simp [operand, ht, next_cons], _, rfl⟩

theorem ReadsExpr.boolean (d : Nat) (b : Bool) :
    ReadsExpr d [.identifier (if b then "true" else "false")] fun e =>
      ∃ line, e = .boolean line b :=
  ReadsExpr.single rfl (by simp) fun g t rest ht =>
    ⟨.boolean t.token.line b, by cases b <;> simp_all [operand, next_cons], _, rfl⟩

theorem ReadsExpr.null (d : Nat) :
    ReadsExpr d [.identifier "null"] fun e => ∃ line, e = .null line :=
  ReadsExpr.single rfl (by simp) fun g t rest ht =>
    ⟨.null t.token.line, by simp [operand, ht, next_cons], _, rfl⟩

/-- The names that stand for something else than a variable. -/
def literalNames : List String := ["true", "false", "null", "new"]

theorem operand_name {name : String} (ht : t.token.lexeme = .identifier name)
    (hname : name ∉ literalNames) :
    operand g (t :: rest) = .ok (.identifier t.token.line name, rest) := by
  simp only [literalNames, List.mem_cons, List.not_mem_nil, or_false, not_or] at hname
  obtain ⟨h1, h2, h3, h4⟩ := hname
  unfold operand
  simp only [List.head?_cons, ht, next_cons]

theorem ReadsExpr.name (d : Nat) {name : String} (hname : name ∉ literalNames) :
    ReadsExpr d [.identifier name] fun e => ∃ line, e = .identifier line name :=
  ReadsExpr.single rfl (by simp) fun g t rest ht =>
    ⟨.identifier t.token.line name, operand_name ht hname, _, rfl⟩

/-- A number with a minus sign before it. -/
theorem ReadsExpr.minus (d : Nat) (n : Number) :
    ReadsExpr d [.punct "-", .number n] fun e => ∃ line, e = .number line n.neg where
  starts := ⟨_, rfl, rfl⟩
  reads source us rest hus hrest := by
    obtain ⟨t, vs, rfl, ht, hvs⟩ := lexemes_eq_cons hus
    obtain ⟨u, rfl, hu⟩ := lexemes_eq_one hvs
    refine ⟨.number t.token.line n.neg, expression_of_operand ?_ ?_ hrest, _, rfl⟩
    · exact parameters?_of_not (by simp [name?, ht]) (by simp [ht])
    · simp [operand, ht, next_cons, Stream.number?, number?, hu]

/-! ## Sequences -/

theorem isPunct_of_starts (h : ∃ l ∈ ls.head?, isStart l = true) (hus : us.lexemes = ls)
    (rest : Stream) {mark : String} (hmark : isStart (.punct mark) = false) :
    Stream.isPunct (us ++ rest) mark = false := by
  obtain ⟨l, hl, hstart⟩ := h
  have hcons : us.lexemes = l :: ls.tail := hus.trans (List.cons_head?_tail hl).symm
  obtain ⟨t, vs, rfl, ht, -⟩ := lexemes_eq_cons hcons
  rw [List.cons_append, isPunct_cons, ht, beq_eq_false_iff_ne]
  rintro rfl
  rw [hmark] at hstart
  cases hstart

theorem isEof_of_starts (h : ∃ l ∈ ls.head?, isStart l = true) (hus : us.lexemes = ls)
    (rest : Stream) : Stream.isEof (us ++ rest) = false := by
  obtain ⟨l, hl, hstart⟩ := h
  have hcons : us.lexemes = l :: ls.tail := hus.trans (List.cons_head?_tail hl).symm
  obtain ⟨t, vs, rfl, ht, -⟩ := lexemes_eq_cons hcons
  rw [List.cons_append, isEof_cons, ht, beq_eq_false_iff_ne]
  rintro rfl
  cases hstart

variable {α β : Type} {xs : List α}

/-- Items with commas between them, up to the closing mark; `fuel` bounds their number. -/
def separated (item : Reader α) (close : String) (fault : Fault) : (fuel : Nat) → Reader (List α)
  | 0, ts => ts.fail fault
  | fuel + 1, ts =>
    if ts.isPunct close then .ok ([], ts.next)
    else item ts >>= fun p =>
      if p.2.isPunct "," then
        separated item close fault fuel p.2.next >>= fun q => .ok (p.1 :: q.1, q.2)
      else if p.2.isPunct close then .ok ([p.1], p.2.next)
      else p.2.fail fault

/-- An expression of a list, or the list that three points stand before. -/
def element (g : Grammar) : Reader Expr := fun ts =>
  if ts.isPunct "..." then g.expression ts.next >>= fun p => .ok (.spread ts.line p.1, p.2)
  else g.expression ts

/-- The name that one entry of a pattern binds. -/
def patternName : Reader String := fun ts =>
  expectName ts >>= fun p => if p.2.isPunct ":" then expectName p.2.next else .ok p

theorem separated_succ (item : Reader α) (close : String) (fault : Fault) (fuel : Nat)
    (ts : Stream) :
    separated item close fault (fuel + 1) ts = if ts.isPunct close then .ok ([], ts.next)
      else item ts >>= fun p =>
        if p.2.isPunct "," then
          separated item close fault fuel p.2.next >>= fun q => .ok (p.1 :: q.1, q.2)
        else if p.2.isPunct close then .ok ([p.1], p.2.next)
        else p.2.fail fault := rfl

theorem elements_eq (g : Grammar) (close : String) (fault : Fault) (fuel : Nat) :
    elements g close fault fuel = separated (element g) close fault fuel := by
  induction fuel with
  | zero => rfl
  | succ fuel ih =>
    funext ts
    rw [elements, separated_succ, ih, element]
    split
    · rfl
    split
    · cases g.expression ts.next <;> rfl
    · rfl

theorem properties_eq (g : Grammar) (fuel : Nat) :
    properties g fuel = separated (property g) r"}" .objectLiteral fuel := by
  induction fuel with
  | zero => rfl
  | succ fuel ih =>
    funext ts
    rw [properties, separated_succ, ih]
    rfl

theorem specifiers_eq (typeOnly : Bool) (fuel : Nat) :
    specifiers typeOnly fuel = separated (specifier typeOnly) r"}" .importList fuel := by
  induction fuel with
  | zero => rfl
  | succ fuel ih =>
    funext ts
    rw [specifiers, separated_succ, ih]
    rfl

theorem patternNames_eq (fuel : Nat) :
    patternNames fuel = separated patternName r"}" .bindingPattern fuel := by
  induction fuel with
  | zero => rfl
  | succ fuel ih =>
    funext ts
    rw [patternNames, separated_succ, ih, patternName]
    split
    · rfl
    cases expectName ts with
    | error c => rfl
    | ok p =>
      show (if p.2.isPunct ":" then _ else _) = (if p.2.isPunct ":" then _ else _) >>= _
      split <;> rfl

/-- The lexemes are read as an item of a list, before a comma or the mark that closes the list. -/
def IsItem (item : Reader β) (close : String) (ls : List Lexeme) (P : β → Prop) : Prop :=
  ∀ (us : Stream) (t : Lexed) (rest : Stream), us.lexemes = ls →
    t.token.lexeme = .punct "," ∨ t.token.lexeme = .punct close →
      Stream.isPunct (us ++ t :: rest) close = false ∧
        ∃ b, item (us ++ t :: rest) = .ok (b, t :: rest) ∧ P b

theorem separated_comma {item : Reader β} {fault : Fault} {b : β} {bs : List β}
    (hclose : ts.isPunct close = false) (hb : item ts = .ok (b, t :: us))
    (ht : t.token.lexeme = .punct ",") (hbs : separated item close fault fuel us = .ok (bs, rest)) :
    separated item close fault (fuel + 1) ts = .ok (b :: bs, rest) := by
  rw [separated_succ, if_neg (by simp [hclose]), hb]
  show (if Stream.isPunct (t :: us) "," then _ else _) = _
  rw [if_pos (by simp [isPunct_cons, ht]), next_cons, hbs]
  rfl

/-- Items with commas between them are read one by one up to the closing mark; `last` is a comma
that may stand before it. -/
theorem separated_reads {item : Reader β} (hcomma : close ≠ ",") (fault : Fault) {P : α → β → Prop}
    (h : List.Forall₂ (fun ls x => IsItem item close ls (P x)) lss xs) {last : List Lexeme}
    (hlast : last = [] ∨ last = [.punct ","] ∧ lss ≠ []) (rest : Stream)
    (hus : us.lexemes = listed lss ++ last) (ht : t.token.lexeme = .punct close)
    (hfuel : lss.length < fuel) :
    ∃ bs, separated item close fault fuel (us ++ t :: rest) = .ok (bs, rest) ∧
      List.Forall₂ (fun b x => P x b) bs xs := by
  have hdone : ∀ fuel, separated item close fault (fuel + 1) (t :: rest) = .ok ([], rest) := by
    intro fuel
    rw [separated_succ, if_pos (by simp [isPunct_cons, ht]), next_cons]
  induction h generalizing us fuel with
  | nil =>
    have hnil : last = [] := by simpa using hlast
    obtain rfl : us = [] := List.map_eq_nil_iff.1 (hus.trans (by simp [listed, hnil]))
    obtain ⟨fuel, rfl⟩ := Nat.exists_eq_succ_of_ne_zero (by omega : fuel ≠ 0)
    exact ⟨[], hdone fuel, .nil⟩
  | @cons ls x lss xs hls hlss ih =>
    obtain ⟨fuel, rfl⟩ := Nat.exists_eq_succ_of_ne_zero (by omega : fuel ≠ 0)
    -- a comma follows unless this is the last item and no comma stands at the end
    rcases hlss with - | ⟨hms, hlss⟩
    · rcases hlast with rfl | ⟨rfl, -⟩
      · obtain ⟨hclose, b, hb, hP⟩ := hls us t rest (by simpa [listed] using hus) (Or.inr ht)
        refine ⟨[b], ?_, .cons hP .nil⟩
        rw [separated_succ, if_neg (by simp [hclose]), hb]
        show (if Stream.isPunct (t :: rest) "," then _ else _) = _
        rw [if_neg (by simp [isPunct_cons, ht, hcomma]), if_pos (by simp [isPunct_cons, ht])]
        rfl
      · obtain ⟨va, c, rfl, hva, hc⟩ := lexemes_eq_snoc hus
        obtain ⟨fuel, rfl⟩ := Nat.exists_eq_succ_of_ne_zero (by simp at hfuel; omega : fuel ≠ 0)
        obtain ⟨hclose, b, hb, hP⟩ := hls va c (t :: rest) hva (Or.inl hc)
        rw [List.append_assoc]
        exact ⟨[b], separated_comma hclose hb hc (hdone fuel), .cons hP .nil⟩
    · rw [listed_cons_cons, List.append_assoc, List.cons_append] at hus
      obtain ⟨va, vb, rfl, hva, hvb⟩ := lexemes_eq_append hus
      obtain ⟨c, vs, rfl, hc, hvs⟩ := lexemes_eq_cons hvb
      rw [List.append_assoc, List.cons_append]
      obtain ⟨hclose, b, hb, hP⟩ := hls va c (vs ++ t :: rest) hva (Or.inl hc)
      obtain ⟨bs, hbs, hPs⟩ :=
        ih (hlast.imp id fun h => ⟨h.1, by simp⟩) hvs (Nat.lt_of_succ_lt_succ hfuel)
      exact ⟨b :: bs, separated_comma hclose hb hc hbs, .cons hP hPs⟩

theorem forall_left {R : α → β → Prop} {p : α → Prop} {as : List α} {bs : List β}
    (h : List.Forall₂ R as bs) (hp : ∀ a b, R a b → p a) : ∀ a ∈ as, p a := by
  induction h with
  | nil => simp
  | cons hab _ ih => simpa using ⟨hp _ _ hab, ih⟩

theorem ne_nil_of_starts (h : ∃ l ∈ ls.head?, isStart l = true) : ls ≠ [] := by
  rintro rfl
  simp at h

theorem length_le_flatten {lss : List (List β)} (h : ∀ ls ∈ lss, ls ≠ []) :
    lss.length ≤ lss.flatten.length := by
  induction lss with
  | nil => simp
  | cons ls lss ih =>
    have hpos : 0 < ls.length := List.length_pos_iff.2 (h ls List.mem_cons_self)
    have hrest := ih fun ms hms => h ms (List.mem_cons_of_mem _ hms)
    simp only [List.length_cons, List.flatten_cons, List.length_append]
    omega

theorem length_flatten_le_listed (lss : List (List Lexeme)) :
    lss.flatten.length ≤ (listed lss).length := by
  fun_induction listed lss with
  | case1 => simp
  | case2 => simp
  | case3 ls lss _ ih =>
    simp only [List.flatten_cons, List.length_append, List.length_cons] at ih ⊢
    omega

/-- There are at least as many lexemes as items. -/
theorem length_le_of_listed (h : ∀ ls ∈ lss, ls ≠ []) {last : List Lexeme}
    (hus : us.lexemes = listed lss ++ last) : lss.length ≤ us.length := by
  have hflat := length_le_flatten h
  have hlisted := length_flatten_le_listed lss
  rw [← length_lexemes, hus, List.length_append]
  omega

/-- A closing mark of a list of expressions. -/
def isClose (close : String) : Bool := close = ")" || close = "]"

section Calls

variable {d : Nat} {P : α → Expr → Prop} {lss : List (List Lexeme)}
  (h : List.Forall₂ (fun ls x => ReadsExpr d ls (P x)) lss xs) (source : List Char)
  {last : List Lexeme} (hlast : last = [] ∨ last = [.punct ","] ∧ lss ≠ [])

include h hlast

theorem elements_reads (hclose : isClose close = true) (fault : Fault) (rest : Stream)
    (hus : us.lexemes = listed lss ++ last) (ht : t.token.lexeme = .punct close)
    (hfuel : us.length < fuel) :
    ∃ es, elements (grammar source (d + 1)) close fault fuel (us ++ t :: rest) = .ok (es, rest) ∧
      List.Forall₂ (fun e x => P x e) es xs := by
  have hmark : isStart (.punct close) = false ∧ close ∈ endMarks ∧ close ≠ "," := by
    simp only [isClose, Bool.or_eq_true, decide_eq_true_eq] at hclose
    rcases hclose with rfl | rfl <;> decide
  have hlen := length_le_of_listed (forall_left h fun _ _ hr => ne_nil_of_starts hr.starts) hus
  rw [elements_eq]
  refine separated_reads hmark.2.2 fault (h.imp fun ls x hls va u vb hva hu => ?_) hlast rest hus ht
    (by omega)
  have hends : Ends (u :: vb) := by
    rcases hu with hu | hu
    · exact Ends.of_mark hu (by decide)
    · exact Ends.of_mark hu hmark.2.1
  obtain ⟨e, he, hP⟩ := hls.reads source va (u :: vb) hva hends
  have hspread : Stream.isPunct (va ++ u :: vb) "..." = false :=
    isPunct_of_starts hls.starts hva _ rfl
  refine ⟨isPunct_of_starts hls.starts hva _ hmark.1, e, ?_, hP⟩
  rw [element, hspread, if_neg (by decide)]
  exact he

theorem arguments_reads (rest : Stream) (ht : t.token.lexeme = .punct "(")
    (hu : u.token.lexeme = .punct ")") (hus : us.lexemes = listed lss ++ last) :
    ∃ es, arguments (grammar source (d + 1)) (t :: (us ++ u :: rest)) = .ok (es, rest) ∧
      List.Forall₂ (fun e x => P x e) es xs := by
  have hlen : us.length < (us ++ u :: rest).length + 1 := by
    simp only [List.length_append]
    omega
  obtain ⟨es, hes, hP⟩ := elements_reads h source hlast rfl .argumentList rest hus hu hlen
  refine ⟨es, ?_, hP⟩
  have hopen : expectPunct "(" (t :: (us ++ u :: rest)) = .ok ((), us ++ u :: rest) := by
    simp [expectPunct, isPunct_cons, ht, next_cons]
  unfold arguments
  rw [hopen]
  exact hes

omit h hlast in
theorem operand_array {es : List Expr} (ht : t.token.lexeme = .punct "[")
    (hes : elements g "]" .arrayLiteral (t :: us).length us = .ok (es, rest)) :
    operand g (t :: us) = .ok (.array t.token.line es, rest) := by
  simp only [operand, List.head?_cons, ht, next_cons]
  rw [if_neg (by decide), if_pos trivial, hes]
  rfl

/-- An array of expressions. -/
theorem ReadsExpr.array :
    ReadsExpr (d + 1) (.punct "[" :: (listed lss ++ last) ++ [.punct "]"]) fun e =>
      ∃ line es, e = .array line es ∧ List.Forall₂ (fun e x => P x e) es xs where
  starts := ⟨_, rfl, rfl⟩
  reads source us rest hus hrest := by
    obtain ⟨t, vs, rfl, ht, hvs⟩ := lexemes_eq_cons hus
    obtain ⟨va, u, rfl, hva, hu⟩ := lexemes_eq_snoc hvs
    have hlen : va.length < (t :: (va ++ u :: rest)).length := by
      simp only [List.length_append, List.length_cons]
      omega
    obtain ⟨es, hes, hP⟩ := elements_reads h source hlast rfl .arrayLiteral rest hva hu hlen
    refine ⟨.array t.token.line es, expression_of_operand ?_ ?_ hrest, _, es, rfl, hP⟩
    · exact parameters?_of_not (by simp [name?, ht]) (by simp [ht])
    · rw [List.cons_append, List.append_assoc]
      exact operand_array ht hes

end Calls

/-! ## Objects -/

/-- The lexemes are read as an entry of an object. -/
structure ReadsProperty (d : Nat) (ls : List Lexeme) (P : Property → Prop) : Prop where
  starts : ∃ l ∈ ls.head?, isStart l = true
  reads : ∀ (source : List Char) (us rest : Stream), us.lexemes = ls → Ends rest →
    ∃ p, property (grammar source d) (us ++ rest) = .ok (p, rest) ∧ P p

theorem ReadsProperty.keyed {k : String} (hkey : Inline.IsKey k l) (h : ReadsExpr d ls P) :
    ReadsProperty (d + 1) (l :: .punct ":" :: ls) fun p => ∃ line e, p = .keyed line k e ∧ P e where
  starts := ⟨l, rfl, by rcases hkey with rfl | rfl <;> rfl⟩
  reads source us rest hus hrest := by
    obtain ⟨t, vs, rfl, ht, hvs⟩ := lexemes_eq_cons hus
    obtain ⟨u, ws, rfl, hu, hws⟩ := lexemes_eq_cons hvs
    obtain ⟨e, he, hP⟩ := h.reads source ws rest hws hrest
    refine ⟨.keyed t.token.line k e, ?_, _, e, rfl, hP⟩
    have he' : (grammar source (d + 1)).expression (ws ++ rest) = .ok (e, rest) := he
    rcases hkey with rfl | rfl <;>
      simp [property, isPunct_cons, next_cons, Stream.number?, number?, ht, hu, key?, he',
        Stream.line]

theorem operand_object {ps : List Property} (ht : t.token.lexeme = .punct r"{")
    (hps : properties g (t :: us).length us = .ok (ps, rest)) :
    operand g (t :: us) = .ok (.object t.token.line ps, rest) := by
  simp only [operand, List.head?_cons, ht, next_cons]
  rw [if_neg (by decide), if_neg (by decide), if_pos trivial, hps]
  rfl

/-- An object literal. -/
theorem ReadsExpr.object {P : α → Property → Prop}
    (h : List.Forall₂ (fun ls x => ReadsProperty d ls (P x)) lss xs) :
    ReadsExpr d (.punct r"{" :: listed lss ++ [.punct r"}"]) fun e =>
      ∃ line ps, e = .object line ps ∧ List.Forall₂ (fun p x => P x p) ps xs where
  starts := ⟨_, rfl, rfl⟩
  reads source us rest hus hrest := by
    obtain ⟨t, vs, rfl, ht, hvs⟩ := lexemes_eq_cons hus
    obtain ⟨va, u, rfl, hva, hu⟩ := lexemes_eq_snoc hvs
    rw [← List.append_nil (listed lss)] at hva
    have hlen : lss.length < (t :: (va ++ u :: rest)).length := by
      have := length_le_of_listed (forall_left h fun _ _ hr => ne_nil_of_starts hr.starts) hva
      simp only [List.length_append, List.length_cons]
      omega
    have hitems : List.Forall₂
        (fun ls x => IsItem (property (grammar source d)) r"}" ls (P x)) lss xs := by
      refine h.imp fun ls x hls va u vb hva hu => ⟨isPunct_of_starts hls.starts hva _ rfl, ?_⟩
      refine hls.reads source va (u :: vb) hva ?_
      rcases hu with hu | hu <;> exact Ends.of_mark hu (by decide)
    obtain ⟨ps, hps, hP⟩ :=
      separated_reads (by decide) .objectLiteral hitems (Or.inl rfl) rest hva hu hlen
    refine ⟨.object t.token.line ps, expression_of_operand ?_ ?_ hrest, _, ps, rfl, hP⟩
    · exact parameters?_of_not (by simp [name?, ht]) (by simp [ht])
    · rw [List.cons_append, List.append_assoc]
      exact operand_object ht ((congrFun (properties_eq _ _) _).trans hps)

/-! ## Calls and chains -/

theorem suffixes_call {es : List Expr} (ht : t.token.lexeme = .punct "(")
    (hes : arguments g (t :: us) = .ok (es, rest)) :
    suffixes g e (fuel + 1) (t :: us) = suffixes g (.call t.token.line e es none) fuel rest := by
  simp only [suffixes, List.head?_cons, ht]
  rw [if_neg (by decide), if_pos trivial, hes]
  rfl

theorem suffixes_member {name : String} (ht : t.token.lexeme = .punct ".")
    (hu : u.token.lexeme = .identifier name) :
    suffixes g e (fuel + 1) (t :: u :: us) =
      suffixes g (.member u.token.line e name) fuel us := by
  simp [suffixes, ht, hu, next_cons, Stream.name?, name?, Stream.line]

/-- The lexemes are method calls with the given property, on whatever stands before them. -/
def ReadsLinks (d : Nat) (ls : List Lexeme) (Q : List Link → Prop) : Prop :=
  ∀ (source : List Char) (e : Expr) (us rest : Stream) (fuel : Nat), us.lexemes = ls →
    ∃ k e' links, suffixes (grammar source d) e (fuel + us.length) (us ++ rest) =
        suffixes (grammar source d) e' (fuel + k) rest ∧
      e'.chain = (e.chain.1, e.chain.2 ++ links) ∧ Q links

theorem ReadsLinks.mono {P Q : List Link → Prop} (h : ReadsLinks d ls P)
    (hPQ : ∀ links, P links → Q links) : ReadsLinks d ls Q := by
  intro source e us rest fuel hus
  obtain ⟨k, e', links, hs, hc, hP⟩ := h source e us rest fuel hus
  exact ⟨k, e', links, hs, hc, hPQ links hP⟩

theorem ReadsLinks.nil (d : Nat) : ReadsLinks d [] (· = []) := by
  intro source e us rest fuel hus
  obtain rfl : us = [] := List.map_eq_nil_iff.1 hus
  exact ⟨0, e, [], rfl, by simp, rfl⟩

theorem ReadsLinks.append {la lb : List Lexeme} {P Q : List Link → Prop} (ha : ReadsLinks d la P)
    (hb : ReadsLinks d lb Q) :
    ReadsLinks d (la ++ lb) fun links => ∃ xs ys, links = xs ++ ys ∧ P xs ∧ Q ys := by
  intro source e us rest fuel hus
  obtain ⟨va, vb, rfl, hva, hvb⟩ := lexemes_eq_append hus
  obtain ⟨k, e', xs, hs, hc, hP⟩ := ha source e va (vb ++ rest) (fuel + vb.length) hva
  obtain ⟨k', e'', ys, hs', hc', hQ⟩ := hb source e' vb rest (fuel + k) hvb
  refine ⟨k + k', e'', xs ++ ys, ?_, by rw [hc', hc, List.append_assoc], xs, ys, rfl, hP, hQ⟩
  rw [List.append_assoc, List.length_append, Nat.add_comm va.length, ← Nat.add_assoc, hs,
    Nat.add_right_comm, hs', Nat.add_assoc]

/-- One method call. -/
theorem ReadsLinks.method {P : α → Expr → Prop}
    (h : List.Forall₂ (fun ls x => ReadsExpr d ls (P x)) lss xs) {last : List Lexeme}
    (hlast : last = [] ∨ last = [.punct ","] ∧ lss ≠ []) (method : String) :
    ReadsLinks (d + 1)
      (.punct "." :: .identifier method :: .punct "(" :: (listed lss ++ last) ++ [.punct ")"])
      fun links => ∃ line es, links = [⟨line, method, es, none⟩] ∧
        List.Forall₂ (fun e x => P x e) es xs := by
  intro source e us rest fuel hus
  obtain ⟨t, us, rfl, ht, hus⟩ := lexemes_eq_cons hus
  obtain ⟨u, us, rfl, hu, hus⟩ := lexemes_eq_cons hus
  obtain ⟨p, us, rfl, hp, hus⟩ := lexemes_eq_cons hus
  obtain ⟨va, q, rfl, hva, hq⟩ := lexemes_eq_snoc hus
  obtain ⟨es, hes, hP⟩ := arguments_reads h source hlast rest hp hq hva
  have hlist : t :: u :: p :: (va ++ [q]) ++ rest = t :: u :: p :: (va ++ q :: rest) := by simp
  have hfuel : fuel + (t :: u :: p :: (va ++ [q])).length = fuel + (va.length + 2) + 1 + 1 := by
    simp only [List.length_cons, List.length_append, List.length_nil]
    omega
  refine ⟨va.length + 2, .call p.token.line (.member u.token.line e method) es none,
    [⟨p.token.line, method, es, none⟩], ?_, rfl, _, es, rfl, hP⟩
  rw [hlist, hfuel, suffixes_member ht hu, suffixes_call hp hes]

/-- A name that can be called: no literal, and not the beginning of a function. -/
def isCallable (name : String) : Bool := !(literalNames.contains name) && name ≠ "async"

theorem parameters?_of_call {name : String} (ht : t.token.lexeme = .identifier name)
    (hname : name ≠ "async") {mark : String} (hu : u.token.lexeme = .punct mark)
    (hmark : mark ≠ "=>") : parameters? (t :: u :: us) = .ok none := by
  simp [parameters?, next_cons, isPunct_cons, isName_cons, ht, hu, hname, hmark]

theorem chain_root (line line' : Nat) (f : String) (es : List Expr) (types : Option String) :
    (Expr.call line (.identifier line' f) es types).chain =
      (.call line (.identifier line' f) es types, []) := rfl

/-- A call, and method calls on its result. -/
theorem ReadsExpr.chain {P : α → Expr → Prop}
    (h : List.Forall₂ (fun ls x => ReadsExpr d ls (P x)) lss xs) (hf : isCallable f = true)
    {links : List Lexeme} {Q : List Link → Prop} (hlinks : ReadsLinks (d + 1) links Q) :
    ReadsExpr (d + 1) (.identifier f :: .punct "(" :: listed lss ++ .punct ")" :: links) fun e =>
      ∃ line line' es chain, e.chain = (.call line (.identifier line' f) es none, chain) ∧
        List.Forall₂ (fun e x => P x e) es xs ∧ Q chain where
  starts := ⟨_, rfl, rfl⟩
  reads source us rest hus hrest := by
    obtain ⟨t, us, rfl, ht, hus⟩ := lexemes_eq_cons hus
    obtain ⟨p, us, rfl, hp, hus⟩ := lexemes_eq_cons hus
    obtain ⟨va, vb, rfl, hva, hvb⟩ := lexemes_eq_append hus
    obtain ⟨q, vs, rfl, hq, hvs⟩ := lexemes_eq_cons hvb
    simp only [isCallable, Bool.and_eq_true, Bool.not_eq_true', decide_eq_true_eq] at hf
    have hname : f ∉ literalNames := by simpa using hf.1
    obtain ⟨es, hes, hP⟩ := arguments_reads h source (Or.inl rfl) (vs ++ rest) hp hq
      (by simpa using hva)
    obtain ⟨k, e, chain, hs, hc, hQ⟩ := hlinks source
      (.call p.token.line (.identifier t.token.line f) es none) vs rest
      (va.length + 1 + rest.length) hvs
    rw [chain_root, List.nil_append] at hc
    have hlist : t :: p :: (va ++ q :: vs) ++ rest = t :: p :: (va ++ q :: (vs ++ rest)) := by simp
    have hfuel : (p :: (va ++ q :: (vs ++ rest))).length =
        va.length + 1 + rest.length + vs.length + 1 := by
      simp only [List.length_cons, List.length_append]
      omega
    refine ⟨e, ?_, _, _, es, chain, hc, hP, hQ⟩
    rw [hlist]
    refine expression_of_suffixes (parameters?_of_call ht hf.2 hp (by decide))
      (operand_name ht hname) ?_ hrest
    rw [hfuel, suffixes_call hp hes, hs, suffixes_of_ends hrest]

theorem eq_of_chain_nil {root : Expr} (h : e.chain = (root, [])) : e = root := by
  unfold Expr.chain at h
  split at h
  · simp at h
  · exact (Prod.mk.inj h).1

/-- A call. -/
theorem ReadsExpr.call {P : α → Expr → Prop}
    (h : List.Forall₂ (fun ls x => ReadsExpr d ls (P x)) lss xs) (hf : isCallable f = true) :
    ReadsExpr (d + 1) (.identifier f :: .punct "(" :: listed lss ++ [.punct ")"]) fun e =>
      ∃ line line' es, e = .call line (.identifier line' f) es none ∧
        List.Forall₂ (fun e x => P x e) es xs := by
  refine (ReadsExpr.chain h hf (ReadsLinks.nil (d + 1))).mono ?_
  rintro e ⟨line, line', es, chain, hc, hP, rfl⟩
  exact ⟨line, line', es, eq_of_chain_nil hc, hP⟩

/-- A template with a name before it. -/
theorem ReadsExpr.tagged (d : Nat) {tag : String} (htag : tag ∉ literalNames)
    (hasync : tag ≠ "async") (s : String) :
    ReadsExpr d [.identifier tag, .template s false] fun e =>
      ∃ line line', e = .tagged line (.identifier line' tag) s false where
  starts := ⟨_, rfl, rfl⟩
  reads source us rest hus hrest := by
    obtain ⟨t, us, rfl, ht, hus⟩ := lexemes_eq_cons hus
    obtain ⟨u, rfl, hu⟩ := lexemes_eq_one hus
    have hparameters : parameters? (t :: u :: rest) = .ok none := by
      simp [parameters?, next_cons, isPunct_cons, isName_cons, ht, hu, hasync]
    refine ⟨.tagged u.token.line (.identifier t.token.line tag) s false, ?_, _, _, rfl⟩
    refine expression_of_suffixes hparameters (operand_name ht htag) ?_ hrest
    show suffixes _ _ (rest.length + 1) (u :: rest) = _
    simp only [suffixes, List.head?_cons, hu, next_cons]
    exact suffixes_of_ends hrest _ _ _

/-- A call of a member of a variable. -/
theorem ReadsExpr.memberCall {P : α → Expr → Prop}
    (h : List.Forall₂ (fun ls x => ReadsExpr d ls (P x)) lss xs) {a : String}
    (ha : isCallable a = true) (m : String) :
    ReadsExpr (d + 1)
      (.identifier a :: .punct "." :: .identifier m :: .punct "(" :: listed lss ++ [.punct ")"])
      fun e => ∃ line line' line'' es,
        e = .call line (.member line' (.identifier line'' a) m) es none ∧
          List.Forall₂ (fun e x => P x e) es xs where
  starts := ⟨_, rfl, rfl⟩
  reads source us rest hus hrest := by
    obtain ⟨t, us, rfl, ht, hus⟩ := lexemes_eq_cons hus
    obtain ⟨o, us, rfl, ho, hus⟩ := lexemes_eq_cons hus
    obtain ⟨u, us, rfl, hu, hus⟩ := lexemes_eq_cons hus
    obtain ⟨p, us, rfl, hp, hus⟩ := lexemes_eq_cons hus
    obtain ⟨va, q, rfl, hva, hq⟩ := lexemes_eq_snoc hus
    simp only [isCallable, Bool.and_eq_true, Bool.not_eq_true', decide_eq_true_eq] at ha
    have hname : a ∉ literalNames := by simpa using ha.1
    obtain ⟨es, hes, hP⟩ := arguments_reads h source (Or.inl rfl) rest hp hq (by simpa using hva)
    have hlist : t :: o :: u :: p :: (va ++ [q]) ++ rest =
        t :: o :: u :: p :: (va ++ q :: rest) := by simp
    refine ⟨_, ?_, p.token.line, u.token.line, t.token.line, es, rfl, hP⟩
    rw [hlist]
    refine expression_of_suffixes (parameters?_of_call ht ha.2 ho (by decide))
      (operand_name ht hname) ?_ hrest
    rw [List.length_cons, List.length_cons, suffixes_member ho hu, List.length_cons,
      suffixes_call hp hes, suffixes_of_ends hrest]

/-! ## Statements and functions -/

/-- The lexemes are read as a statement with the given property, which may depend on the comment
above it. -/
structure ReadsStatement (d : Nat) (ls : List Lexeme) (P : Option String → Statement → Prop) :
    Prop where
  starts : ∃ l ∈ ls.head?, isStart l = true
  reads : ∀ (source : List Char) (us rest : Stream), us.lexemes = ls →
    ∃ s, statement (grammar source d) (us ++ rest) = .ok (some s, rest) ∧ P (docOf us) s

theorem ReadsStatement.mono {P Q : Option String → Statement → Prop} (h : ReadsStatement d ls P)
    (hPQ : ∀ doc s, P doc s → Q doc s) : ReadsStatement d ls Q where
  starts := h.starts
  reads source us rest hus := by
    obtain ⟨s, hs, hP⟩ := h.reads source us rest hus
    exact ⟨s, hs, hPQ _ s hP⟩

theorem endStatement_cons (ht : t.token.lexeme = .punct ";") (us : Stream) :
    endStatement (t :: us) = .ok ((), us) := by
  simp [endStatement, isPunct_cons, ht, next_cons]

/-- The names that begin a statement of another form. -/
def statementNames : List String := ["import", "export", "const", "let", "var", "return"]

/-- An expression is a statement of its own, unless its first name begins one of another form. -/
theorem statement_of_expression (he : Program.expression g ts = .ok (e, us))
    (hend : endStatement us = .ok ((), rest)) (hmark : ts.isPunct ";" = false)
    (hnames : ∀ name ∈ statementNames, ts.isName name = false) :
    statement g ts = .ok (some (.expression ts.line e (docOf ts)), rest) := by
  simp only [statementNames, List.forall_mem_cons] at hnames
  obtain ⟨h1, h2, h3, h4, h5, h6, -⟩ := hnames
  have hbinding : isBinding ts = false := by
    simp [isBinding, bindingKeywords, h3, h4, h5]
  unfold statement
  rw [if_neg (by simp [hmark]), if_neg (by simp [h1]), if_neg (by simp [h2]),
    if_neg (by simp [hbinding]), if_neg (by simp [h6]), he]
  show (endStatement us >>= _) = _
  rw [hend]
  rfl

theorem ReadsStatement.expression (h : ReadsExpr d ls P) (hhead : ls.head? = some (.identifier f))
    (hf : f ∉ statementNames) :
    ReadsStatement d (ls ++ [.punct ";"]) fun doc s =>
      ∃ line e, s = .expression line e doc ∧ P e where
  starts := ⟨.identifier f, by simp [List.head?_append, hhead], rfl⟩
  reads source us rest hus := by
    obtain ⟨va, q, rfl, hva, hq⟩ := lexemes_eq_snoc hus
    obtain ⟨e, he, hP⟩ := h.reads source va (q :: rest) hva (Ends.of_mark hq (by decide))
    have hcons : va.lexemes = .identifier f :: ls.tail :=
      hva.trans (List.cons_head?_tail hhead).symm
    obtain ⟨t, va, rfl, ht, -⟩ := lexemes_eq_cons hcons
    refine ⟨.expression t.token.line e t.token.doc, ?_, t.token.line, e, rfl, hP⟩
    rw [List.append_assoc]
    refine statement_of_expression he (endStatement_cons hq rest) (by simp [isPunct_cons, ht]) ?_
    rintro name hname
    rw [List.cons_append, isName_cons, ht, beq_eq_false_iff_ne]
    rintro ⟨⟩
    exact hf hname

/-- Statements are read one after the other, up to the end of the block. -/
theorem body_reads {P : α → Statement → Prop}
    (h : List.Forall₂ (fun ls x => ReadsStatement d ls fun _ s => P x s) lss xs)
    (source : List Char) (rest : Stream) (hus : us.lexemes = lss.flatten)
    (ht : t.token.lexeme = .punct r"}") (hfuel : lss.length < fuel) :
    ∃ ss, body (grammar source (d + 1)) fuel (us ++ t :: rest) = .ok (ss, rest) ∧
      List.Forall₂ (fun s x => P x s) ss xs := by
  induction h generalizing us fuel with
  | nil =>
    obtain rfl : us = [] := List.map_eq_nil_iff.1 hus
    obtain ⟨fuel, rfl⟩ := Nat.exists_eq_succ_of_ne_zero (by omega : fuel ≠ 0)
    refine ⟨[], ?_, .nil⟩
    rw [List.nil_append, body, if_pos (by simp [isPunct_cons, ht]), next_cons]
  | @cons ls x lss xs hls hlss ih =>
    obtain ⟨fuel, rfl⟩ := Nat.exists_eq_succ_of_ne_zero (by omega : fuel ≠ 0)
    rw [List.flatten_cons] at hus
    obtain ⟨va, vb, rfl, hva, hvb⟩ := lexemes_eq_append hus
    rw [List.append_assoc]
    obtain ⟨s, hs, hP⟩ := hls.reads source va (vb ++ t :: rest) hva
    obtain ⟨ss, hss, hPs⟩ := ih hvb (Nat.lt_of_succ_lt_succ hfuel)
    refine ⟨s :: ss, ?_, .cons hP hPs⟩
    have hstatement : (grammar source (d + 1)).statement (va ++ (vb ++ t :: rest)) =
        .ok (some s, vb ++ t :: rest) := hs
    have hclose : Stream.isPunct (va ++ (vb ++ t :: rest)) r"}" = false :=
      isPunct_of_starts hls.starts hva _ rfl
    rw [body, if_neg (by simp [hclose]), if_neg (by simp [isEof_of_starts hls.starts hva]),
      hstatement]
    show (body _ fuel (vb ++ t :: rest) >>= _) = _
    rw [hss]
    rfl

/-- A function without parameters whose body is made of statements. -/
theorem ReadsExpr.function {P : α → Statement → Prop}
    (h : List.Forall₂ (fun ls x => ReadsStatement d ls fun _ s => P x s) lss xs) :
    ReadsExpr (d + 1)
      (.punct "(" :: .punct ")" :: .punct "=>" :: .punct r"{" :: lss.flatten ++ [.punct r"}"])
      fun e => ∃ line ss, e = .block line ss ∧ List.Forall₂ (fun s x => P x s) ss xs where
  starts := ⟨_, rfl, rfl⟩
  reads source us rest hus hrest := by
    obtain ⟨p, us, rfl, hp, hus⟩ := lexemes_eq_cons hus
    obtain ⟨q, us, rfl, hq, hus⟩ := lexemes_eq_cons hus
    obtain ⟨a, us, rfl, ha, hus⟩ := lexemes_eq_cons hus
    obtain ⟨o, us, rfl, ho, hus⟩ := lexemes_eq_cons hus
    obtain ⟨va, c, rfl, hva, hc⟩ := lexemes_eq_snoc hus
    have hlist : p :: q :: a :: o :: (va ++ [c]) ++ rest =
        p :: q :: a :: o :: (va ++ c :: rest) := by simp
    have hlen : lss.length < (o :: (va ++ c :: rest)).length := by
      have hlexemes := length_lexemes va
      rw [hva] at hlexemes
      have hflat : lss.length ≤ lss.flatten.length :=
        length_le_flatten (forall_left h fun _ _ hr => ne_nil_of_starts hr.starts)
      simp only [List.length_append, List.length_cons]
      omega
    obtain ⟨ss, hss, hP⟩ := body_reads h source rest hva hc hlen
    refine ⟨.block p.token.line ss, ?_, _, ss, rfl, hP⟩
    have hparameters : parameters? (p :: q :: a :: o :: (va ++ c :: rest)) =
        .ok (some (o :: (va ++ c :: rest))) := by
      have hclosing : closingOf? "(" (q :: a :: o :: (va ++ c :: rest)) = some 0 := by
        simp [closingOf?, closer?, closing?, hq]
      unfold parameters?
      rw [if_neg (by simp [Stream.name?, name?, hp]), if_neg (by simp [isName_cons, hp]),
        if_pos (by simp [isPunct_cons, hp]), next_cons, hclosing]
      simp [Stream.skip, isPunct_cons, ha, next_cons]
      rfl
    rw [hlist]
    unfold expression
    rw [hparameters]
    show arrowBody _ p.token.line (o :: (va ++ c :: rest)) = _
    unfold arrowBody
    rw [if_pos (by simp [isPunct_cons, ho]), next_cons, hss]
    rfl

end EventFlow.Program
