import EventFlow.Proofs.Program.Lockstep
import EventFlow.Proofs.Program.Reading

/-! The grammar reads two streams in step.

Each reader keeps two streams in step, given that the readers for nested parts do, so the grammar of
every depth does; and a program is read alike from both:

    S.Related ts us  →  S.Follows (· = ·) (statements g fuel ts) (statements h fuel' us) -/

namespace EventFlow.Program

open Token

variable {α : Type} {g h : Grammar} {ts us : Stream} (typeOnly : Bool)

/-! ## Assertions -/

theorem isName_of_skipType (h : skipType ts = .ok us) (name : String) : us.isName name = false := by
  rw [skipType_eq] at h
  obtain ⟨t, rest, mark, rfl, hmark, -⟩ := stops_skipUntil h
  simp [Stream.isName, isName, hmark]

/-- A type ends before a mark, so that at most one assertion is read. -/
theorem assertions_eq (ts : Stream) :
    assertions ts.length ts =
      if ts.isName "as" || ts.isName "satisfies" then skipType ts.next else .ok ts := by
  cases ts with
  | nil => rfl
  | cons t rest =>
    rw [List.length_cons, assertions]
    split
    · cases hskip : skipType (Stream.next (t :: rest)) with
      | error e => rfl
      | ok us =>
        show assertions rest.length us = .ok us
        cases rest.length with
        | zero => rfl
        | succ fuel =>
          rw [assertions, isName_of_skipType hskip, isName_of_skipType hskip]
          rfl
    · rfl

theorem and_congr_of_true {a b c : Bool} (h : a = true → b = c) : (a && b) = (a && c) := by
  cases a with
  | false => rfl
  | true => exact h rfl

/-! ## Nested parts -/

/-- The second grammar reads nested parts of fewer than `n` tokens as the first does; a semicolon
that stands alone is no statement. -/
structure Grammar.InStep (S : Lockstep) (n : Nat) (g h : Grammar) : Prop where
  source : g.source = S.source
  source' : h.source = S.source'
  expression : ∀ {ts us}, S.Related ts us → ts.length < n →
    S.Reads false 1 ts us (g.expression ts) (h.expression us)
  statement : ∀ {ts us}, S.Related ts us → ¬ S.AtCut ts → ts.length < n →
    S.Reads false 1 ts us (g.statement ts) (h.statement us)
  semicolon : ∀ {ts s rest}, S.AtCut ts → g.statement ts = .ok (s, rest) → s = none ∧ rest = ts.next

namespace Lockstep

variable {S : Lockstep} {n fuel fuel' : Nat}

/-! ## Items of lists -/

/-- As `Reads`, for a reader that may stop at the semicolon by mistake. -/
structure ReadsItem (S : Lockstep) (ts us : Stream) (x y : Except (Complaint Fault) (α × Stream)) :
    Prop where
  ok : ∀ a rest, x = .ok (a, rest) → ¬ S.AtCut rest →
    ∃ rest', y = .ok (a, rest') ∧ S.Past false 1 ts us rest rest'
  error : S.strict → ∀ c, x = .error c → y = .error c ∧ S.blame c

theorem Reads.item {e : Bool} {x y : Except (Complaint Fault) (α × Stream)}
    (h : S.Reads e 1 ts us x y) : S.ReadsItem ts us x y := by
  refine ⟨fun a rest hx _ => ?_, h.error⟩
  obtain ⟨⟨_, rest'⟩, hy, rfl, hpast⟩ := h.ok _ hx
  exact ⟨rest', hy, hpast.any⟩

/-- No item of a list is followed by the semicolon. -/
theorem reads_separated {item item' : Reader α} {m : Nat}
    (hitem : ∀ {ts us}, S.Related ts us → ts.length ≤ m → S.ReadsItem ts us (item ts) (item' us))
    {close : String} (hclose : closesOperand (.punct close) = true) {fault : Fault}
    (hplain : fault.isPlain = true) (h : S.Related ts us) (hm : ts.length ≤ m)
    (hfuel : ts.length < fuel) (hfuel' : us.length < fuel' + S.spare) :
    S.Reads true 1 ts us (separated item close fault fuel ts)
      (separated item' close fault fuel' us) := by
  have hne : close ≠ ";" := by
    rintro rfl
    cases hclose
  induction fuel generalizing ts us fuel' with
  | zero => omega
  | succ fuel ih =>
    obtain ⟨fuel', rfl⟩ := h.exists_succ hfuel'
    rw [separated_succ, separated_succ, h.isPunct hne]
    split
    next hpunct => exact reads_ok (hclose ▸ h.past_isPunct hpunct hne)
    next =>
      obtain ⟨hok, herror⟩ := hitem h hm
      cases hx : item ts with
      | error c =>
        constructor
        · rintro _ ⟨⟩
        · rintro hstrict _ ⟨⟩
          obtain ⟨hy, hblame⟩ := herror hstrict c hx
          rw [hy]
          exact ⟨rfl, hblame⟩
      | ok p =>
        by_cases hcut : S.AtCut p.2
        · refine .of_cut hcut fun _ hb => ?_
          change (if p.2.isPunct "," then _ else _) = _ at hb
          rw [hcut.isPunct (by decide), hcut.isPunct hne] at hb
          cases hb
        obtain ⟨rest', hy, hpast⟩ := hok p.1 p.2 hx hcut
        rw [hy]
        refine hpast.reads (k := 1) ?_
        show S.Reads true 1 p.2 rest' (if p.2.isPunct "," then _ else _)
          (if rest'.isPunct "," then _ else _)
        rw [hpast.related.isPunct (by decide), hpast.related.isPunct hne]
        split
        next hcomma =>
          have hnext := hpast.related.past_isPunct hcomma (by decide)
          have := hpast.shorter
          have := hpast.shorter'
          have := hnext.shorter
          have := hnext.shorter'
          exact hnext.reads ((ih hnext.related (by omega) (by omega) (by omega)).bind
            fun _ _ _ hrest => hrest.done)
        next =>
          split
          next hpunct => exact reads_ok (hclose ▸ hpast.related.past_isPunct hpunct hne)
          next => exact .fail hpast.related hplain

/-! ## Expressions -/

section Readers

variable (hg : g.InStep S n h)

include hg

theorem reads_element (hr : S.Related ts us) (hlen : ts.length < n) :
    S.Reads false 1 ts us (element g ts) (element h us) := by
  unfold element
  rw [hr.isPunct (by decide)]
  split
  next hspread =>
    have hpast := hr.past_isPunct hspread (by decide)
    have := hpast.shorter
    rw [hr.line_eq (not_atCut_of_isPunct hspread (by decide))]
    exact hpast.reads ((hg.expression hpast.related (by omega)).bind
      fun _ _ _ hrest => hrest.done)
  next => exact hg.expression hr hlen

theorem reads_elements {close : String} (hclose : closesOperand (.punct close) = true)
    {fault : Fault} (hplain : fault.isPlain = true) (hr : S.Related ts us) (hlen : ts.length < n)
    (hfuel : ts.length < fuel) (hfuel' : us.length < fuel' + S.spare) :
    S.Reads true 1 ts us (elements g close fault fuel ts) (elements h close fault fuel' us) := by
  rw [elements_eq, elements_eq]
  refine reads_separated (m := n - 1) (fun hr hm => (reads_element hg hr ?_).item) hclose hplain hr
    (by omega) hfuel hfuel'
  omega

theorem reads_arguments (hr : S.Related ts us) (hlen : ts.length ≤ n) :
    S.Reads true 1 ts us (arguments g ts) (arguments h us) := by
  refine (reads_expectPunct hr (by decide)).bind (k := 1) fun _ ts' us' hpast => ?_
  have := hpast.shorter
  exact reads_elements hg rfl rfl hpast.related (by omega) (by omega) (by omega)

theorem reads_property (hr : S.Related ts us) (hlen : ts.length < n) :
    S.Reads false 1 ts us (property g ts) (property h us) := by
  unfold property
  by_cases hcut : S.AtCut ts
  · obtain ⟨t, ts, rfl, ht⟩ := hcut.exists_head
    refine .of_cut hcut fun _ hb => ?_
    simp [Stream.isPunct, isPunct, Stream.number?, number?, ht, key?, Stream.fail] at hb
  rw [hr.isPunct (by decide), hr.number?, hr.line_eq hcut, hr.key?_eq hcut, hr.cited_eq hcut,
    hr.name?_eq hcut]
  split
  next hspread =>
    have hpast := hr.past_isPunct hspread (by decide)
    have := hpast.shorter
    exact hpast.reads ((hg.expression hpast.related (by omega)).bind
      fun _ _ _ hrest => hrest.done)
  next =>
    split
    next hlong => exact .fail_long hr hlong
    next =>
      split
      next => exact .fail hr rfl
      next key hkey =>
        obtain ⟨t, ht, hlexeme⟩ := Option.bind_eq_some_iff.1 hkey
        have hpast := (hr.past_next ht (fun h => by simp [h, key?] at hlexeme)
          fun h => by simp [h, key?] at hlexeme).any
        have := hpast.shorter
        refine hpast.reads (k := 0) ?_
        rw [hpast.related.isPunct (by decide)]
        split
        next hcolon =>
          have hvalue := hpast.related.past_isPunct hcolon (by decide)
          have := hvalue.shorter
          exact hvalue.onward.reads ((hg.expression hvalue.related (by omega)).bind
            fun _ _ _ hrest => hrest.done)
        next =>
          split
          · exact hpast.done
          · exact .fail hpast.related rfl

theorem reads_properties (hr : S.Related ts us) (hlen : ts.length < n) (hfuel : ts.length < fuel)
    (hfuel' : us.length < fuel' + S.spare) :
    S.Reads true 1 ts us (properties g fuel ts) (properties h fuel' us) := by
  rw [properties_eq, properties_eq]
  refine reads_separated (m := n - 1) (fun hr hm => (reads_property hg hr ?_).item) rfl rfl hr
    (by omega) hfuel hfuel'
  omega

/-- The semicolon in a body is passed over in the first stream only. -/
theorem reads_body (hr : S.Related ts us) (hlen : ts.length < n) (hfuel : ts.length < fuel)
    (hfuel' : us.length < fuel' + S.spare) :
    S.Reads true 1 ts us (body g fuel ts) (body h fuel' us) := by
  induction fuel generalizing ts us fuel' with
  | zero => omega
  | succ fuel ih =>
    by_cases hcut : S.AtCut ts
    · obtain ⟨t, ts', -, -, rfl, -, ht, -, hrest⟩ := hr.exists_cut hcut
      have hclose : Stream.isPunct (t :: ts') r"}" = false := hcut.isPunct (by decide)
      have heof : Stream.isEof (t :: ts') = false := by simp [Stream.isEof, isEof, ht]
      rw [List.length_cons] at hfuel hlen
      refine ⟨fun b hb => ?_, fun hstrict => absurd hstrict hcut.not_strict⟩
      rw [body, if_neg (by simp [hclose]), if_neg (by simp [heof])] at hb
      obtain ⟨⟨first, ts''⟩, hfirst, hbody⟩ := bind_eq_ok.1 hb
      obtain ⟨rfl, rfl⟩ := hg.semicolon hcut hfirst
      obtain ⟨⟨more, rest⟩, hmore, hend⟩ := bind_eq_ok.1 hbody
      cases hend
      obtain ⟨c, hc, heq, hpast⟩ := (ih hrest (by omega) (by omega) hfuel').ok _ hmore
      have := hpast.shorter
      exact ⟨c, hc, heq, hpast.related, by dsimp only at this ⊢; simp; omega, hpast.shorter',
        hpast.behind⟩
    obtain ⟨fuel', rfl⟩ := hr.exists_succ hfuel'
    rw [body, body, hr.isPunct (by decide), hr.isEof]
    split
    next hpunct => exact reads_ok (hr.past_isPunct hpunct (by decide))
    next =>
      split
      next => exact .fail hr rfl
      next =>
        refine (hg.statement hr hcut hlen).bind (k := 1) fun first ts' us' hpast => ?_
        have := hpast.shorter
        have := hpast.shorter'
        exact (ih hpast.related (by omega) (by omega) (by omega)).bind
          fun _ _ _ hrest => hrest.done

theorem reads_arrowBody (line : Nat) (hr : S.Related ts us) (hlen : ts.length < n) :
    S.Reads false 1 ts us (arrowBody g line ts) (arrowBody h line us) := by
  unfold arrowBody
  rw [hr.isPunct (by decide)]
  split
  next hopen =>
    have hpast := hr.past_isPunct hopen (by decide)
    have := hpast.shorter
    have := hpast.shorter'
    exact hpast.reads ((reads_body hg hpast.related (by omega) (by omega) (by omega)).bind
      fun _ _ _ hrest => hrest.doneAny)
  next => exact (hg.expression hr hlen).bind fun _ _ _ hrest => hrest.done

omit hg in
theorem constructed_of_not {line : Nat} {callee : Expr} (fuel : Nat)
    (h : ts.isPunct "." = false) : constructed line callee fuel ts = .ok (callee, ts) := by
  cases fuel with
  | zero => rfl
  | succ fuel => rw [constructed, if_neg (by simp [h])]

omit hg in
theorem reads_constructed (line : Nat) (callee : Expr) (hr : S.Related ts us)
    (hbehind : S.Behind ts) (hfuel : ts.length ≤ fuel) (hfuel' : us.length ≤ fuel' + S.spare) :
    S.Reads true 0 ts us (constructed line callee fuel ts) (constructed line callee fuel' us) := by
  induction fuel generalizing callee ts us fuel' with
  | zero =>
    obtain rfl := List.eq_nil_of_length_eq_zero (Nat.le_zero.1 hfuel)
    obtain rfl := hr.eq_nil
    rw [constructed_of_not _ rfl, constructed_of_not _ rfl]
    exact reads_ok ⟨hr, Nat.le_refl _, Nat.le_refl _, fun _ => hbehind⟩
  | succ fuel ih =>
    have hpoint : us.isPunct "." = ts.isPunct "." := hr.isPunct (by decide)
    cases h : ts.isPunct "." with
    | false =>
      rw [constructed_of_not _ h, constructed_of_not _ (hpoint.trans h)]
      exact reads_ok ⟨hr, Nat.le_refl _, Nat.le_refl _, fun _ => hbehind⟩
    | true =>
      obtain ⟨fuel', rfl⟩ := hr.exists_succ_of_ne_nil (by rintro rfl; cases hpoint.trans h) hfuel'
      rw [constructed, constructed, hpoint, if_pos h, if_pos h]
      have hpast := hr.past_isPunct h (by decide)
      refine hpast.onward.reads (k := 1) ((reads_expectName hpast.related).bind (k := 0)
        fun name _ _ hname => ?_)
      have := hpast.shorter
      have := hpast.shorter'
      have := hname.shorter
      have := hname.shorter'
      exact ih _ hname.related (hname.behind rfl) (by omega) (by omega)

theorem reads_construction (hr : S.Related ts us) (hname : ts.isName "new" = true)
    (hlen : ts.length ≤ n) : S.Reads true 1 ts us (construction g ts) (construction h us) := by
  have hpast := hr.past_isName hname
  unfold construction
  rw [hr.line_eq (not_atCut_of_isName hname)]
  refine hpast.reads ((reads_expectName hpast.related).bind (k := 0) fun name _ _ hnamed => ?_)
  refine (reads_constructed ts.line _ hnamed.related (hnamed.behind rfl) (Nat.le_refl _)
    (Nat.le_add_right _ _)).bind (k := 0) fun callee ts' us' hcallee => ?_
  have := hpast.shorter
  have := hnamed.shorter
  have := hcallee.shorter
  dsimp only
  rw [hcallee.related.isPunct (by decide)]
  split
  · exact (reads_arguments hg hcallee.related (by omega)).onward.bind
      fun _ _ _ hrest => hrest.done
  · exact hcallee.done

/-- No operand begins with the semicolon. -/
theorem reads_operand (hr : S.Related ts us) (hlen : ts.length ≤ n) :
    S.Reads true 1 ts us (operand g ts) (operand h us) := by
  by_cases hcut : S.AtCut ts
  · obtain ⟨t, ts, rfl, ht⟩ := hcut.exists_head
    refine .of_cut hcut fun _ hb => ?_
    simp only [operand, List.head?_cons, ht] at hb
    cases hb
  rcases S.step hr hcut with ⟨rfl, rfl⟩ | ⟨t, ts, u, us, rfl, rfl, hsame, hrest⟩
  · exact .fail hr rfl
  have hall := S.within hr
  obtain ⟨hlexeme, hline, -, -⟩ := S.alike hsame
  rw [List.length_cons] at hlen
  -- behind the first token
  have hnext : t.token.lexeme ≠ .eof → S.Past false 1 (t :: ts) (u :: us) ts us :=
    fun heof => ⟨hrest heof, Nat.le_refl _, Nat.le_refl _, nofun⟩
  have hends : ∀ {e : Expr}, t.token.lexeme ≠ .eof → closesOperand t.token.lexeme = true →
      S.Reads true 1 (t :: ts) (u :: us) (.ok (e, ts)) (.ok (e, us)) :=
    fun heof hcloses => reads_ok ⟨hrest heof, Nat.le_refl _, Nat.le_refl _, fun _ =>
      ⟨t, hall, hcloses⟩⟩
  unfold operand
  dsimp only [List.head?_cons, Stream.next, List.tail_cons]
  rw [hlexeme, hline]
  split
  next => exact .fail hr rfl
  next ht => exact hends (by simp [ht]) (ht ▸ rfl)
  next ht => exact hends (by simp [ht]) (ht ▸ rfl)
  next ht => exact hends (by simp [ht]) (ht ▸ rfl)
  next ht => exact hends (by simp [ht]) (ht ▸ rfl)
  next ht => exact hends (by simp [ht]) (ht ▸ rfl)
  next ht => exact hends (by simp [ht]) (ht ▸ rfl)
  next ht =>
    exact reads_construction hg hr (by simp [Stream.isName, isName, ht]) (by simp; omega)
  next ht => exact hends (by simp [ht]) (ht ▸ rfl)
  next mark ht =>
    have hpast := hnext (by simp [ht])
    have hrest := hpast.related
    split
    next =>
      rw [hrest.number?]
      split
      next value hvalue => exact hpast.reads (reads_ok (hrest.past_number? hvalue))
      next => exact .fail hr rfl
    next =>
      split
      next =>
        exact hpast.reads ((reads_elements hg rfl rfl hrest (by omega) (by simp)
          (by simp; omega)).bind fun _ _ _ hmore => hmore.done)
      next =>
        split
        next =>
          exact hpast.reads ((reads_properties hg hrest (by omega) (by simp)
            (by simp; omega)).bind fun _ _ _ hmore => hmore.done)
        next =>
          split
          next =>
            exact hpast.reads ((hg.expression hrest (by omega)).bind fun inner _ _ hinner =>
              (reads_expectPunct hinner.related (by decide)).bind fun _ _ _ hmore => hmore.done)
          next => exact .fail hr rfl

omit hg in
theorem suffixes_nil (g : Grammar) (e : Expr) (fuel : Nat) :
    suffixes g e fuel [] = .ok (e, []) := by
  cases fuel <;> rfl

theorem reads_suffixes (e : Expr) (hr : S.Related ts us) (hbehind : S.Behind ts)
    (hlen : ts.length ≤ n) (hfuel : ts.length ≤ fuel) (hfuel' : us.length ≤ fuel' + S.spare) :
    S.Reads true 0 ts us (suffixes g e fuel ts) (suffixes h e fuel' us) := by
  induction fuel generalizing e ts us fuel' with
  | zero =>
    obtain rfl := List.eq_nil_of_length_eq_zero (Nat.le_zero.1 hfuel)
    obtain rfl := hr.eq_nil
    rw [suffixes_nil, suffixes_nil]
    exact reads_ok ⟨hr, Nat.le_refl _, Nat.le_refl _, fun _ => hbehind⟩
  | succ fuel ih =>
    have hhere : S.Reads true 0 ts us (.ok (e, ts)) (.ok (e, us)) :=
      reads_ok ⟨hr, Nat.le_refl _, Nat.le_refl _, fun _ => hbehind⟩
    by_cases hcut : S.AtCut ts
    · obtain ⟨t, ts', u, us', rfl, rfl, ht, ⟨⟨name, hname, -⟩, -⟩, -⟩ := hr.exists_cut hcut
      obtain ⟨fuel', rfl⟩ := hr.exists_succ_of_ne_nil (by simp) hfuel'
      simp only [suffixes, List.head?_cons, ht, hname]
      exact hhere
    have hall := S.within hr
    rcases S.step hr hcut with ⟨rfl, rfl⟩ | ⟨t, ts', u, us', rfl, rfl, hsame, hrest⟩
    · rw [suffixes_nil, suffixes_nil]
      exact hhere
    obtain ⟨fuel', rfl⟩ := hr.exists_succ_of_ne_nil (by simp) hfuel'
    obtain ⟨hlexeme, hline, -, -⟩ := S.alike hsame
    rw [List.length_cons] at hlen hfuel hfuel'
    -- further suffixes behind some of the tokens
    have hgoes : ∀ {ts'' us'' : Stream} (e : Expr),
        S.Past true 1 (t :: ts') (u :: us') ts'' us'' →
        S.Reads true 0 (t :: ts') (u :: us') (suffixes g e fuel ts'')
          (suffixes h e fuel' us'') := by
      intro ts'' us'' e hpast
      have := hpast.shorter
      have := hpast.shorter'
      rw [List.length_cons] at *
      exact hpast.onward.reads (ih e hpast.related (hpast.behind rfl) (by omega) (by omega)
        (by omega))
    -- the arguments of a call, and the further suffixes
    have hcall : ∀ {ts'' us'' : Stream} (f : List Expr → Expr),
        S.Past false 0 (t :: ts') (u :: us') ts'' us'' →
        S.Reads true 0 (t :: ts') (u :: us')
          (arguments g ts'' >>= fun p => suffixes g (f p.1) fuel p.2)
          (arguments h us'' >>= fun p => suffixes h (f p.1) fuel' p.2) := by
      intro ts'' us'' f hpast
      have hle := hpast.shorter
      have hle' := hpast.shorter'
      rw [List.length_cons] at hle hle'
      refine hpast.reads ((reads_arguments hg hpast.related (by omega)).bind (k := 0)
        fun args _ _ hargs => ?_)
      have := hargs.shorter
      have := hargs.shorter'
      exact ih _ hargs.related (hargs.behind rfl) (by omega) (by omega) (by omega)
    rw [suffixes, suffixes]
    dsimp only [List.head?_cons, Stream.next, List.tail_cons]
    rw [hlexeme, hline]
    split
    next ht =>
      exact hgoes _ ⟨hrest (by simp [ht]), Nat.le_refl _, Nat.le_refl _, fun _ =>
        ⟨t, hall, ht ▸ rfl⟩⟩
    next mark ht =>
      have hpast : S.Past (closesOperand (.punct mark)) 1 (t :: ts') (u :: us') ts' us' :=
        ⟨hrest (by simp [ht]), Nat.le_refl _, Nat.le_refl _, fun hcloses => ⟨t, hall, ht ▸ hcloses⟩⟩
      have hrest := hpast.related
      split
      next =>
        by_cases hcut' : S.AtCut ts'
        · rw [hcut'.name?]
          exact .of_cut hcut' fun _ hb => by cases hb
        rw [hrest.name?_eq hcut', hrest.line_eq hcut']
        split
        next name hname => exact hgoes _ (hpast.trans (hrest.past_name? hname))
        next => exact .fail hrest rfl
      next =>
        split
        next => exact hcall (fun args => .call t.token.line e args none) (.refl hr)
        next =>
          split
          next hless =>
            subst hless
            rcases hrest.closingOf? "<" with ⟨i, j, hi, hj, hmeets⟩ | ⟨hi, hj⟩
            · have hclosed := past_of_meets hmeets
              simp only [hi, hj]
              rw [hclosed.related.isPunct (by decide)]
              split
              next hparen =>
                have hopen : Stream.isPunct (t :: ts') "<" = true := by
                  simp [Stream.isPunct, isPunct, ht]
                have htypes := S.types hg.source hg.source' hr hopen hi hparen hmeets
                simp only [Stream.next, List.tail_cons] at htypes
                rw [htypes]
                exact hcall (fun args => .call t.token.line e args (some (textUpTo g ts' i)))
                  (hpast.trans hclosed).onward
              next => exact .fail hr rfl
            · simp only [hi, hj]
              exact .fail hr rfl
          next =>
            rw [hrest.isPunct (by decide)]
            split
            next hbang =>
              obtain ⟨hmark, -⟩ := Bool.and_eq_true_iff.1 hbang
              obtain rfl := of_decide_eq_true hmark
              exact hgoes _ hpast
            next => exact hhere
    next => exact hhere

omit hg in
theorem follows_assertions (hr : S.Related ts us) (hbehind : S.Behind ts) :
    S.Follows (S.Past false 0 ts us) (assertions ts.length ts) (assertions us.length us) := by
  rw [assertions_eq, assertions_eq, hr.isName (Or.inl rfl), hr.isName (Or.inr rfl)]
  split
  next hname =>
    have hpast : S.Past true 1 ts us ts.next us.next := by
      rcases Bool.or_eq_true_iff.1 hname with hname | hname
      · exact hr.past_isName hname
      · exact hr.past_isName hname
    obtain ⟨t, hall, ht⟩ := hbehind
    have hskip := follows_skipType hpast.related fun _ hskip => S.asserted hall ht hname hskip
    exact hpast.onward.follows hskip
  next => exact .pure (.refl hr)

omit hg in
/-- What follows an arrow. -/
theorem rel_arrow {e : Bool} {ts' us' : Stream} (hpast : S.Past e 1 ts us ts' us') :
    Option.Rel (S.Past false 1 ts us) (if ts'.isPunct "=>" then some ts'.next else none)
      (if us'.isPunct "=>" then some us'.next else none) := by
  rw [hpast.related.isPunct (by decide)]
  split
  next harrow => exact .some (hpast.trans (hpast.related.past_isPunct harrow (by decide))).any
  next => exact .none

omit hg in
/-- Parameters are found in both streams, or in none. -/
theorem follows_parameters? (hr : S.Related ts us) (hcut : ¬ S.AtCut ts) :
    S.Follows (Option.Rel (S.Past false 1 ts us)) (parameters? ts) (parameters? us) := by
  have harrow : (ts.name?.isSome && us.next.isPunct "=>") =
      (ts.name?.isSome && ts.next.isPunct "=>") := and_congr_of_true fun hname =>
    (hr.past_name? (Option.eq_some_of_isSome hname)).related.isPunct (by decide)
  have hasync : (ts.isName "async" && us.next.isPunct "(") =
      (ts.isName "async" && ts.next.isPunct "(") := and_congr_of_true fun hname =>
    (hr.past_isName hname).related.isPunct (by decide)
  unfold parameters?
  rw [hr.name?_eq hcut, hr.isName_eq hcut, hr.isPunct_eq hcut, harrow, hasync]
  split
  next hcond =>
    obtain ⟨hname, harrow⟩ := Bool.and_eq_true_iff.1 hcond
    have hpast := hr.past_name? (Option.eq_some_of_isSome hname)
    exact .pure (.some (hpast.trans (hpast.related.past_isPunct harrow (by decide))).any)
  next =>
    split
    next hcond =>
      obtain ⟨hname, hopen⟩ := Bool.and_eq_true_iff.1 hcond
      have hpast := hr.past_isName hname
      have hinner := hpast.trans (hpast.related.past_isPunct hopen (by decide))
      rcases hinner.related.closingOf? "(" with ⟨i, j, hi, hj, hmeets⟩ | ⟨hi, hj⟩
      · simp only [hi, hj]
        exact .pure (rel_arrow (hinner.trans (past_of_meets hmeets)))
      · simp only [hi, hj]
        exact .pure .none
    next =>
      split
      next hopen =>
        have hinner := hr.past_isPunct hopen (by decide)
        rcases hinner.related.closingOf? "(" with ⟨i, j, hi, hj, hmeets⟩ | ⟨hi, hj⟩
        · have hclosed := hinner.trans (past_of_meets hmeets)
          simp only [hi, hj]
          rw [hclosed.related.isPunct (by decide)]
          split
          next hcolon =>
            have htype := hclosed.related.past_isPunct hcolon (by decide)
            refine (follows_skipToArrow htype.related).bind fun _ _ _ _ hskip => ?_
            exact .pure (rel_arrow ((hclosed.trans htype).trans hskip))
          next => exact .pure (rel_arrow hclosed)
        · simp only [hi, hj]
          exact .pure .none
      next => exact .pure .none

theorem reads_expression (hr : S.Related ts us) (hlen : ts.length ≤ n) :
    S.Reads false 1 ts us (expression g ts) (expression h us) := by
  unfold expression
  by_cases hcut : S.AtCut ts
  · -- neither parameters nor an operand begin with the semicolon
    obtain ⟨t, ts, rfl, ht⟩ := hcut.exists_head
    refine .of_cut hcut fun _ hb => ?_
    have hnone : parameters? (t :: ts) = .ok none := by
      simp [parameters?, Stream.name?, name?, Stream.isName, isName, Stream.isPunct,
        isPunct, ht]
    have hfail : operand g (t :: ts) = Stream.fail (t :: ts) (.unexpectedToken ";") := by
      simp [operand, ht]
    rw [hnone] at hb
    change (operand g (t :: ts) >>= _) = _ at hb
    rw [hfail] at hb
    cases hb
  refine (follows_parameters? hr hcut).bind fun p q _ _ hrel => ?_
  cases hrel with
  | some hpast =>
    have := hpast.shorter
    rw [hr.line_eq hcut]
    exact hpast.reads (reads_arrowBody hg ts.line hpast.related (by omega))
  | none =>
    refine (reads_operand hg hr hlen).bind (k := 0) fun first ts₁ us₁ hfirst => ?_
    have := hfirst.shorter
    refine (reads_suffixes hg first hfirst.related (hfirst.behind rfl) (by omega) (Nat.le_refl _)
      (Nat.le_add_right _ _)).bind (k := 0) fun e ts₂ us₂ he => ?_
    refine (follows_assertions he.related (he.behind rfl)).bind fun _ _ _ _ hend => ?_
    exact .pure ⟨rfl, hend⟩

/-! ## Names -/

omit hg in
theorem expectName_eq_next {rest : Stream} {name : String}
    (h : expectName ts = .ok (name, rest)) : rest = ts.next := by
  unfold expectName at h
  split at h
  · cases h
    rfl
  · cases h

omit hg in
/-- The names of an import list are followed by a comma or a brace, and not by the semicolon. -/
theorem reads_specifier (hr : S.Related ts us) :
    S.ReadsItem ts us (specifier typeOnly ts) (specifier typeOnly us) := by
  by_cases hcut : S.AtCut ts
  · refine Reads.item (e := false) (.of_cut hcut fun b hb => ?_)
    obtain ⟨⟨name, rest⟩, hname, -⟩ := bind_eq_ok.1 hb
    rw [hcut.isName] at hname
    simp [expectName, hcut.name?, Stream.failCiting, Stream.fail] at hname
  by_cases hcut' : S.AtCut ts.next
  · -- the name that is read stands right before the semicolon
    refine ⟨fun s rest hs hrest => ?_, fun hstrict => absurd hstrict hcut'.not_strict⟩
    obtain ⟨⟨name, rest⟩, hname, hs⟩ := bind_eq_ok.1 hs
    simp only [hcut'.name?, Option.isSome_none, Bool.and_false, Bool.false_and,
      Bool.false_eq_true, if_false] at hname
    obtain rfl := expectName_eq_next hname
    dsimp only at hs
    rw [if_neg (by simp [hcut'.isName])] at hs
    cases hs
    exact absurd hcut' hrest
  refine Reads.item (e := true) ?_
  have hmarked : (ts.isName "type" && us.next.name?.isSome && !us.next.isName "as") =
      (ts.isName "type" && ts.next.name?.isSome && !ts.next.isName "as") := by
    rw [Bool.and_assoc, Bool.and_assoc]
    refine and_congr_of_true fun htype => ?_
    have hnext := (hr.past_isName htype).related
    rw [hnext.name?_eq hcut', hnext.isName_eq hcut']
  unfold specifier
  rw [hr.line_eq hcut, hr.isName_eq hcut, hmarked]
  dsimp only
  refine Reads.bind (e := true) (k := 0) ?_ fun name _ _ hname => ?_
  · split
    next hcond =>
      simp only [Bool.and_eq_true] at hcond
      have hpast := hr.past_isName hcond.1.1
      exact hpast.reads (reads_expectName hpast.related)
    next => exact reads_expectName hr
  dsimp only
  rw [hname.related.isName (Or.inl rfl)]
  split
  next has =>
    have hpast := hname.related.past_isName has
    exact hpast.onward.reads ((reads_expectName hpast.related).bind
      fun _ _ _ hrest => hrest.done)
  next => exact hname.done

omit hg in
theorem reads_specifiers (hr : S.Related ts us) (hfuel : ts.length < fuel)
    (hfuel' : us.length < fuel' + S.spare) :
    S.Reads true 1 ts us (specifiers typeOnly fuel ts) (specifiers typeOnly fuel' us) := by
  rw [specifiers_eq, specifiers_eq]
  exact reads_separated (fun hr _ => reads_specifier typeOnly hr) rfl rfl hr (Nat.le_refl _) hfuel
    hfuel'

omit hg in
theorem reads_defaultName (hr : S.Related ts us) (hcut : ¬ S.AtCut ts) :
    S.Reads false 0 ts us (defaultName ts) (defaultName us) := by
  unfold defaultName
  rw [hr.name?_eq hcut]
  split
  next name hname =>
    have hpast := hr.past_name? hname
    rw [hpast.related.isPunct (by decide)]
    refine reads_ok ?_
    split
    next hcomma => exact (hpast.trans (hpast.related.past_isPunct hcomma (by decide))).any.onward
    next => exact hpast.any.onward
  next => exact reads_ok (.refl hr)

omit hg in
theorem reads_named (hr : S.Related ts us) :
    S.Reads false 0 ts us (named typeOnly ts) (named typeOnly us) := by
  unfold named
  rw [hr.isPunct (by decide), hr.isPunct (by decide)]
  split
  next hstar =>
    have hpast := hr.past_isPunct hstar (by decide)
    rw [hpast.related.isName (Or.inl rfl)]
    split
    next has =>
      have hname := hpast.trans (hpast.related.past_isName has)
      exact hname.onward.reads ((reads_expectName hname.related).bind
        fun _ _ _ hrest => hrest.doneAny)
    next => exact .fail hpast.related rfl
  next =>
    split
    next hopen =>
      have hpast := hr.past_isPunct hopen (by decide)
      have := hpast.shorter
      have := hpast.shorter'
      exact hpast.onward.reads ((reads_specifiers typeOnly hpast.related (by omega)
        (by omega)).bind fun _ _ _ hrest => hrest.doneAny)
    next => exact reads_ok (.refl hr)

end Readers

/-- What is imported, once it is known whether only types are. -/
def imported : Reader Import := fun ts =>
  defaultName ts >>= fun p => named typeOnly p.2 >>= fun q =>
    if q.2.isName "from" then
      expectString q.2.next >>= fun r => .ok (⟨r.1, q.1.2, p.1, q.1.1, typeOnly⟩, r.2)
    else q.2.fail .expectedFrom

theorem importContent_eq_imported (h : ts.text? = none) :
    importContent ts =
      if ts.isName "type" && !ts.next.isName "from" then imported true ts.next
      else imported false ts := by
  unfold importContent imported
  rw [h]
  dsimp only
  split
  next htype => simp only [htype]; rfl
  next htype => simp only [htype]; rfl

/-- Nothing is imported at the semicolon. -/
theorem imported_atCut (h : S.AtCut ts) (r : Import × Stream) :
    imported typeOnly ts ≠ .ok r := by
  have hdefault : defaultName ts = .ok (none, ts) := by
    simp only [defaultName, h.name?]
  have hnamed : named typeOnly ts = .ok ((none, []), ts) := by
    simp [named, h.isPunct]
  have hfail : imported typeOnly ts = ts.fail .expectedFrom := by
    unfold imported
    rw [hdefault]
    show (named typeOnly ts >>= _) = _
    rw [hnamed]
    show (if ts.isName "from" then _ else _) = _
    rw [h.isName]
    rfl
  rw [hfail]
  rintro ⟨⟩

theorem reads_imported (hr : S.Related ts us) :
    S.Reads false 0 ts us (imported typeOnly ts) (imported typeOnly us) := by
  by_cases hcut : S.AtCut ts
  · exact .of_cut hcut (imported_atCut typeOnly hcut)
  refine (reads_defaultName hr hcut).bind (k := 0) fun default ts₁ us₁ h₁ => ?_
  refine (reads_named typeOnly h₁.related).bind (k := 0) fun names ts₂ us₂ h₂ => ?_
  dsimp only
  by_cases hcut₂ : S.AtCut ts₂
  · rw [hcut₂.isName]
    exact .of_cut hcut₂ fun _ => nofun
  rw [h₂.related.isName_eq hcut₂]
  split
  next hfrom =>
    have hpast := h₂.related.past_isName hfrom
    exact hpast.onward.reads ((reads_expectString hpast.related).bind
      fun _ _ _ hrest => hrest.doneAny)
  next => exact .fail h₂.related rfl

theorem reads_importContent (hr : S.Related ts us) :
    S.Reads false 0 ts us (importContent ts) (importContent us) := by
  cases htext : ts.text? with
  | some module =>
    have htext' := hr.text?.trans htext
    simp only [importContent, htext, htext']
    exact reads_ok (hr.past_text? htext).any.onward
  | none =>
    rw [importContent_eq_imported htext, importContent_eq_imported (hr.text?.trans htext)]
    by_cases hcut : S.AtCut ts
    · rw [hcut.isName]
      exact .of_cut hcut (imported_atCut false hcut)
    rw [hr.isName_eq hcut]
    cases htype : ts.isName "type" with
    | false => exact reads_imported false hr
    | true =>
      have hpast := hr.past_isName htype
      by_cases hcut' : S.AtCut ts.next
      · rw [hcut'.isName]
        exact .of_cut hcut' (imported_atCut true hcut')
      rw [hpast.related.isName_eq hcut']
      split
      · exact hpast.onward.reads (reads_imported true hpast.related)
      · exact reads_imported false hr

theorem reads_patternName (hr : S.Related ts us) :
    S.Reads true 1 ts us (patternName ts) (patternName us) := by
  refine (reads_expectName hr).bind (k := 0) fun first _ _ hpast => ?_
  dsimp only
  rw [hpast.related.isPunct (by decide)]
  split
  next hcolon =>
    have hname := hpast.related.past_isPunct hcolon (by decide)
    exact hname.onward.reads (reads_expectName hname.related)
  next => exact hpast.done

theorem reads_boundNames (hr : S.Related ts us) :
    S.Reads true 1 ts us (boundNames ts) (boundNames us) := by
  unfold boundNames
  rw [hr.isPunct (by decide)]
  split
  next hopen =>
    have hpast := hr.past_isPunct hopen (by decide)
    have := hpast.shorter
    have := hpast.shorter'
    rw [patternNames_eq, patternNames_eq]
    exact hpast.reads (reads_separated (fun hr _ => (reads_patternName hr).item) rfl rfl
      hpast.related (Nat.le_refl _) (by omega) (by omega))
  next => exact (reads_expectName hr).bind fun _ _ _ hrest => hrest.done

/-! ## Statements -/

section Statements

variable (hg : g.InStep S n h)

include hg

theorem reads_binding (doc : Option String) (hr : S.Related ts us) (hbinding : isBinding ts = true)
    (hlen : ts.length ≤ n) : S.Reads false 1 ts us (binding g doc ts) (binding h doc us) := by
  obtain ⟨name, -, hname⟩ := List.any_eq_true.1 hbinding
  have hcut : ¬ S.AtCut ts := not_atCut_of_isName hname
  have hpast := hr.past_isName hname
  have hshort := hpast.shorter
  -- what follows the names and their type
  have hinit : ∀ {ts' us' : Stream} (names : List String), S.Related ts' us' →
      ts'.length ≤ n → S.Reads false 0 ts' us'
      (if ts'.isPunct "=" then
        expression g ts'.next >>= fun p => endStatement p.2 >>= fun q =>
          .ok (Statement.binding ts.line ts.cited names (some p.1) doc, q.2)
      else endStatement ts' >>= fun q =>
        .ok (Statement.binding ts.line ts.cited names none doc, q.2))
      (if us'.isPunct "=" then
        expression h us'.next >>= fun p => endStatement p.2 >>= fun q =>
          .ok (Statement.binding ts.line ts.cited names (some p.1) doc, q.2)
      else endStatement us' >>= fun q =>
        .ok (Statement.binding ts.line ts.cited names none doc, q.2)) := by
    intro ts' us' names hr' hle
    rw [hr'.isPunct (by decide)]
    split
    next hequals =>
      have hvalue := hr'.past_isPunct hequals (by decide)
      have := hvalue.shorter
      exact hvalue.onward.reads ((reads_expression hg hvalue.related (by omega)).bind
        fun value _ _ hend => (reads_endStatement hend.related).bind
          fun _ _ _ hrest => hrest.done)
    next => exact (reads_endStatement hr').bind fun _ _ _ hrest => hrest.done
  unfold binding
  rw [hr.line_eq hcut, hr.cited_eq hcut]
  refine hpast.reads (k := 0) (Follows.bind (reads_boundNames hpast.related) ?_)
  rintro ⟨names, ts₁⟩ ⟨names', us₁⟩ hnames - ⟨heq, h₁⟩
  obtain rfl : names' = names := heq
  have := h₁.shorter
  dsimp only at this ⊢
  refine h₁.onward.reads (k := 0) ?_
  rw [h₁.related.isPunct (by decide)]
  split
  next hcolon =>
    have htype := h₁.related.past_isPunct hcolon (by decide)
    refine (follows_skipType htype.related fun _ hskip =>
      S.annotated hr hbinding hnames hcolon hskip).bind fun ts₂ us₂ _ _ h₂ => ?_
    have := htype.shorter
    have := h₂.shorter
    exact (htype.trans h₂).onward.reads (hinit names' h₂.related (by dsimp only at *; omega))
  next => exact hinit names' h₁.related (by dsimp only at *; omega)

theorem reads_result (hr : S.Related ts us) (hname : ts.isName "return" = true)
    (hlen : ts.length ≤ n) : S.Reads false 1 ts us (result g ts) (result h us) := by
  have hpast := hr.past_isName hname
  have := hpast.shorter
  unfold result
  dsimp only
  rw [hpast.related.ends, hr.line_eq (not_atCut_of_isName hname)]
  refine hpast.reads (k := 0) ?_
  split
  · exact (reads_endStatement hpast.related).bind fun _ _ _ hrest => hrest.done
  · exact (reads_expression hg hpast.related (by omega)).onward.bind fun value _ _ hvalue =>
      (reads_endStatement hvalue.related).bind fun _ _ _ hrest => hrest.done

theorem reads_statement (hr : S.Related ts us) (hcut : ¬ S.AtCut ts) (hlen : ts.length ≤ n) :
    S.Reads false 1 ts us (statement g ts) (statement h us) := by
  have himport : (ts.isName "import" && !us.next.isPunct "(") =
      (ts.isName "import" && !ts.next.isPunct "(") := and_congr_of_true fun hname => by
    rw [(hr.past_isName hname).related.isPunct (by decide)]
  unfold statement
  dsimp only
  rw [hr.docOf_eq hcut, hr.line_eq hcut, hr.isPunct_eq hcut, hr.isName_eq hcut, hr.isName_eq hcut,
    hr.isName_eq hcut, himport, hr.isBinding_eq hcut]
  split
  next hpunct =>
    obtain ⟨t, ht, hlexeme⟩ := (Option.any_eq_true _ _).1 hpunct
    simp only [isPunct, beq_iff_eq] at hlexeme
    rcases S.step hr hcut with ⟨rfl, -⟩ | ⟨_, ts, u, us, rfl, rfl, -, hrest⟩
    · cases ht
    · cases ht
      exact reads_ok ⟨hrest (by simp [hlexeme]), Nat.le_refl _, Nat.le_refl _, fun he =>
        by cases he⟩
  next =>
    split
    next hcond =>
      have hpast := hr.past_isName (Bool.and_eq_true_iff.1 hcond).1
      exact hpast.reads ((reads_importContent hpast.related).bind fun content _ _ hcontent =>
        (reads_endStatement hcontent.related).bind fun _ _ _ hrest => hrest.done)
    next =>
      split
      next hexport =>
        have hpast := hr.past_isName hexport
        have := hpast.shorter
        refine hpast.reads (k := 1) ?_
        by_cases hcut' : S.AtCut ts.next
        · -- nothing is exported
          have hbinding : isBinding ts.next = false := by
            simp [isBinding, bindingKeywords, hcut'.isName]
          rw [hcut'.isName, hbinding]
          exact .of_cut hcut' fun _ hb => by cases hb
        rw [hpast.related.isName_eq hcut', hpast.related.isBinding_eq hcut',
          hpast.related.docOf_eq hcut']
        split
        next => exact .fail hpast.related rfl
        next =>
          split
          next hbinding =>
            exact (reads_binding hg _ hpast.related hbinding (by omega)).bind
              fun _ _ _ hrest => hrest.done
          next => exact .failCiting hpast.related fun _ => rfl
      next =>
        split
        next hbinding =>
          exact (reads_binding hg _ hr hbinding hlen).bind fun _ _ _ hrest => hrest.done
        next =>
          split
          next hreturn =>
            exact (reads_result hg hr hreturn hlen).bind fun _ _ _ hrest => hrest.done
          next =>
            exact (reads_expression hg hr hlen).bind fun value _ _ hvalue =>
              (reads_endStatement hvalue.related).bind fun _ _ _ hrest => hrest.done

omit hg in
/-- The semicolon alone is no statement. -/
theorem statement_atCut (hcut : S.AtCut ts) : statement g ts = .ok (none, ts.next) := by
  obtain ⟨t, ts, rfl, ht⟩ := hcut.exists_head
  unfold statement
  dsimp only
  rw [if_pos (by simp [Stream.isPunct, isPunct, ht])]
  rfl

/-- The semicolon between statements is passed over in the first stream only. -/
theorem follows_statements (hr : S.Related ts us) (hlen : ts.length ≤ n) (hfuel : ts.length ≤ fuel)
    (hfuel' : us.length ≤ fuel' + S.spare) :
    S.Follows (fun ss ss' => ss' = ss) (statements g fuel ts) (statements h fuel' us) := by
  induction fuel generalizing ts us fuel' with
  | zero =>
    obtain rfl := List.eq_nil_of_length_eq_zero (Nat.le_zero.1 hfuel)
    obtain rfl := hr.eq_nil
    cases fuel' <;> exact .pure rfl
  | succ fuel ih =>
    by_cases hcut : S.AtCut ts
    · obtain ⟨t, ts', -, -, rfl, -, ht, -, hrest⟩ := hr.exists_cut hcut
      have heof : Stream.isEof (t :: ts') = false := by simp [Stream.isEof, isEof, ht]
      rw [List.length_cons] at hfuel hlen
      refine ⟨fun ss hss => ?_, fun hstrict => absurd hstrict hcut.not_strict⟩
      rw [statements, if_neg (by simp [heof]), statement_atCut hcut] at hss
      obtain ⟨first, hfirst, hss⟩ := bind_eq_ok.1 hss
      cases hfirst
      obtain ⟨more, hmore, hend⟩ := bind_eq_ok.1 hss
      cases hend
      exact (ih hrest (by omega) (by omega) hfuel').ok more hmore
    by_cases hus : us = []
    · subst hus
      rcases S.step hr hcut with ⟨rfl, -⟩ | ⟨_, _, _, _, -, ⟨⟩, -⟩
      cases fuel' <;> exact .pure rfl
    obtain ⟨fuel', rfl⟩ := hr.exists_succ_of_ne_nil hus hfuel'
    rw [statements, statements, hr.isEof]
    split
    next => exact .pure rfl
    next =>
      refine Follows.bind (reads_statement hg hr hcut hlen) ?_
      rintro ⟨first, ts₁⟩ ⟨first', us₁⟩ - - ⟨heq, h₁⟩
      obtain rfl : first' = first := heq
      have := h₁.shorter
      have := h₁.shorter'
      dsimp only at *
      refine (ih h₁.related (by omega) (by omega) (by omega)).bind fun more more' _ _ heq => ?_
      rw [heq]
      exact .pure rfl

end Statements

/-! ## Grammars -/

theorem source_grammar (source : List Char) (d : Nat) : (grammar source d).source = source := by
  cases d <;> rfl

/-- The grammars read in step up to a depth that both have; where failures do not count, grammars of
the same depth always do. -/
theorem grammar_inStep (S : Lockstep) {n d d' : Nat}
    (hd : (¬ S.strict ∧ d = d') ∨ (n ≤ d ∧ n ≤ d')) :
    (grammar S.source d).InStep S n (grammar S.source' d') := by
  induction d generalizing n d' with
  | zero =>
    refine ⟨source_grammar _ _, source_grammar _ _, fun _ hlen => ?_, fun _ _ hlen => ?_, nofun⟩
    all_goals
      refine ⟨nofun, fun hstrict => ?_⟩
      rcases hd with hd | hd
      · exact absurd hstrict hd.1
      · omega
  | succ d ih =>
    have hcut : ∀ {ts s rest}, S.AtCut ts →
        (grammar S.source (d + 1)).statement ts = .ok (s, rest) → s = none ∧ rest = ts.next := by
      intro ts s rest hcut hs
      cases (statement_atCut hcut).symm.trans hs
      exact ⟨rfl, rfl⟩
    cases n with
    | zero =>
      exact ⟨source_grammar _ _, source_grammar _ _, fun _ hlen => absurd hlen (Nat.not_lt_zero _),
        fun _ _ hlen => absurd hlen (Nat.not_lt_zero _), hcut⟩
    | succ n =>
      obtain ⟨e, rfl, he⟩ : ∃ e, d' = e + 1 ∧ ((¬ S.strict ∧ d = e) ∨ (n ≤ d ∧ n ≤ e)) := by
        rcases hd with ⟨hstrict, rfl⟩ | hd
        · exact ⟨d, rfl, Or.inl ⟨hstrict, rfl⟩⟩
        · exact ⟨d' - 1, by omega, Or.inr (by omega)⟩
      have hg := ih he
      refine ⟨source_grammar _ _, source_grammar _ _, fun hr hlen => ?_,
        fun hr hcut hlen => ?_, hcut⟩
      · exact reads_expression hg hr (by omega)
      · exact reads_statement hg hr hcut (by omega)

end Lockstep

end EventFlow.Program
