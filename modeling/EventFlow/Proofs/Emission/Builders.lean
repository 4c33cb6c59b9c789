import EventFlow.Emission.Builders
import EventFlow.Proofs.Emission.Imports

/-! The declaration of the builders is read as a binding, which adds nothing to a model.

Its types are of no interest to the reader: it passes over whatever stands between the angle
brackets, as long as the brackets in there are balanced. -/

namespace EventFlow.Emission

open Token Extraction

open Program (Passes ReadsStatement ReadsExpr ReadsLinks)

variable {config : Config} {names : List String} {declared : Declared} {ns : List String}

/-- The text and the end of the type arguments after it can be passed over. -/
def IsTypeArgument (s : String) : Prop :=
  ∃ ls, Inline (s ++ ">()") (ls ++ [.punct ">", .punct "(", .punct ")"]) ∧ Passes [">"] ls

theorem inline_typeEnd : Inline ">()" [.punct ">", .punct "(", .punct ")"] :=
  Inline.of_mem_marks (by decide)

/-! ## Unions -/

theorem isTypeArgument_union {n : String} (h : ∀ x ∈ n :: ns, isFullName x = true) :
    IsTypeArgument (Text.joinWith " | " (n :: ns)) := by
  induction ns generalizing n with
  | nil =>
    refine ⟨[.identifier n], Inline.name_append (h n List.mem_cons_self) inline_typeEnd ?_,
      Passes.identifier _ n⟩
    rintro y ⟨⟩
    decide
  | cons m ns ih =>
    obtain ⟨ls, hinline, hpasses⟩ := ih fun x hx => h x (List.mem_cons_of_mem _ hx)
    have hbar : Inline " | " [.punct "|"] := Inline.of_mem_marks (by decide)
    have hall := ((Inline.name (h n List.mem_cons_self)).append hbar (Or.inr (by decide))).append
      hinline (Or.inl (closed_append (by decide)))
    refine ⟨[.identifier n] ++ ([.punct "|"] ++ ls), ?_, ?_⟩
    · rw [Text.joinWith_cons_cons]
      simpa [String.append_assoc] using hall
    · exact (Passes.identifier _ n).append
        ((Passes.mark (by decide) (by decide) (by decide)).append hpasses)

theorem isTypeArgument_unionType (h : ∀ n ∈ ns, isFullName n = true) :
    IsTypeArgument (unionType ns) := by
  unfold unionType
  split
  · have hnever : ∀ x ∈ ["never"], isFullName x = true := by decide
    exact isTypeArgument_union hnever
  · next hne =>
    obtain ⟨n, rest, hcons⟩ := List.exists_cons_of_ne_nil hne
    rw [hcons]
    refine isTypeArgument_union fun x hx => h x ?_
    rw [← List.mem_eraseDups, hcons]
    exact hx

/-! ## States -/

/-- A member of the type of the states. -/
def stateMember (n : String) : String := n ++ ": " ++ n ++ "['data']"

theorem inline_stateMember {n : String} (h : isFullName n = true) : ∃ ls,
    Inline (stateMember n) ls ∧ Passes [r"}", ">"] ls := by
  have hdata : Inline "['data']" [.punct "[", .text "data", .punct "]"] := Inline.of_check
  have hall := (((Inline.name h).append Inline.colon (Or.inr (by decide))).append (Inline.name h)
    (Or.inl (closed_append (by decide)))).append hdata (Or.inr (by decide))
  refine ⟨_, hall, ?_⟩
  refine (((Passes.identifier _ n).append ?_).append (Passes.identifier _ n)).append ?_
  · exact Passes.mark (by decide) (by decide) (by decide)
  · have hdata : Passes ["]", r"}", ">"] [.text "data"] := Passes.text _ "data"
    exact Passes.group (by decide) (by decide) (by decide) hdata

theorem inline_stateMembers (h : ∀ n ∈ ns, isFullName n = true) : ∃ ls,
    Inline (Text.joinWith "; " (ns.map stateMember)) ls ∧ Passes [r"}", ">"] ls := by
  induction ns with
  | nil => exact ⟨[], Inline.empty, Passes.nil _⟩
  | cons n ns ih =>
    obtain ⟨la, ha, hpa⟩ := inline_stateMember (h n List.mem_cons_self)
    obtain ⟨lb, hb, hpb⟩ := ih fun x hx => h x (List.mem_cons_of_mem _ hx)
    cases ns with
    | nil => exact ⟨la, ha, hpa⟩
    | cons m ns =>
      have hsemicolon : Inline "; " [.punct ";"] := Inline.of_mem_marks (by decide)
      have hall := (ha.append hsemicolon (Or.inr (by decide))).append hb
        (Or.inl (closed_append (by decide)))
      refine ⟨la ++ [.punct ";"] ++ lb, ?_, (hpa.append ?_).append hpb⟩
      · rw [List.map_cons, List.map_cons, Text.joinWith_cons_cons]
        exact hall
      · exact Passes.mark (by decide) (by decide) (by decide)

theorem isTypeArgument_stateMapType (h : ∀ n ∈ ns, isFullName n = true) :
    IsTypeArgument (stateMapType ns) := by
  unfold stateMapType
  split
  · refine ⟨[.punct r"{", .punct r"}"], Inline.of_check, ?_⟩
    have hnothing : Passes [r"}", ">"] [] := Passes.nil _
    exact Passes.group (by decide) (by decide) (by decide) hnothing
  · have hunique : ∀ n ∈ ns.eraseDups, isFullName n = true := fun n hn =>
      h n (List.mem_eraseDups.1 hn)
    obtain ⟨ls, hinline, hpasses⟩ := inline_stateMembers hunique
    have hall := ((Inline.openBrace.append hinline (Or.inl (by decide))).append Inline.closeBrace
      (Or.inr (by decide))).append inline_typeEnd (Or.inl (closed_append (by decide)))
    exact ⟨_, hall, Passes.group (by decide) (by decide) (by decide) hpasses⟩

/-! ## The declaration -/

/-- The lexemes of a method call with type arguments. -/
def typeCall (method : String) (types : List Lexeme) : List Lexeme :=
  .punct "." :: .identifier method :: .punct "<" :: types ++ [.punct ">", .punct "(", .punct ")"]

theorem inline_typeCall (start method : String)
    (hstart : Inline.check start [.punct ".", .identifier method, .punct "<"] = true)
    (hclosed : closed start = true) {s : String} {types : List Lexeme}
    (h : Inline (s ++ ">()") (types ++ [Lexeme.punct ">", .punct "(", .punct ")"])) :
    Inline (start ++ s ++ ">()") (typeCall method types) := by
  rw [String.append_assoc]
  simpa [typeCall] using (Inline.of_check hstart).append h (Or.inl hclosed)

theorem line_typeCall (start method : String)
    (hstart : Inline.check start [.punct ".", .identifier method, .punct "<"] = true)
    (hclosed : closed start = true) (hquiet : isQuiet start = true) {s : String}
    {types : List Lexeme}
    (h : Inline (s ++ ">()") (types ++ [Lexeme.punct ">", .punct "(", .punct ")"])) :
    Line (start ++ s ++ ">()") (typeCall method types) :=
  Line.of_inline (inline_typeCall start method hstart hclosed h)
    (isQuiet_append (isQuiet_append hquiet)) (isTidy_append (by decide))

/-- The names of the builders. -/
def builders : List String := ["Events", "Commands", "State"]

/-- The lexemes up to the end of the call that makes the builders. -/
def buildersStart : List Lexeme :=
  .identifier "const" :: .punct r"{" :: listed (builders.map fun n => [.identifier n]) ++
    [.punct r"}", .punct "=", .identifier "createBuilders", .punct "(", .punct ")"]

/-- The lines of the builders are a binding of their names. -/
theorem says_builderLines (d : Nat) {events commands states : List String}
    (hevents : ∀ n ∈ events, isFullName n = true) (hcommands : ∀ n ∈ commands, isFullName n = true)
    (hstates : ∀ n ∈ states, isFullName n = true) :
    Says (d + 1) (builderLines events commands states) fun doc s =>
      ∃ line e, s = .binding line "const" builders (some e) doc := by
  obtain ⟨le, hle, hpe⟩ := isTypeArgument_unionType hevents
  obtain ⟨lc, hlc, hpc⟩ := isTypeArgument_unionType hcommands
  obtain ⟨ls, hls, hps⟩ := isTypeArgument_stateMapType hstates
  have hstart : Line "const { Events, Commands, State } = createBuilders()" buildersStart :=
    Line.of_inline (Inline.of_check) (by decide) (by decide)
  have hlast : Line ("  .state<" ++ stateMapType states ++ ">();")
      (typeCall "state" ls ++ [Lexeme.punct ";"]) := by
    have hcall := inline_typeCall "  .state<" "state" (by decide +kernel) (by decide) hls
    have htext : (">();" : String) = ">()" ++ ";" := rfl
    rw [htext, ← String.append_assoc]
    exact Line.of_inline (hcall.append Inline.semicolon (Or.inr (by decide)))
      (isQuiet_append (isQuiet_append (isQuiet_append (by decide)))) (isTidy_append (by decide))
  have hlines := (((Lines.one hstart).append
    (Lines.one (line_typeCall "  .events<" "events" (by decide +kernel)
      (by decide) (by decide) hle))).append
    (Lines.one (line_typeCall "  .commands<" "commands" (by decide +kernel)
      (by decide) (by decide) hlc))).append (Lines.one hlast)
  have hlinks := ((ReadsLinks.typed d "events" hpe).append
    (ReadsLinks.typed d "commands" hpc)).append (ReadsLinks.typed d "state" hps)
  have hchain := ReadsExpr.chain (α := Unit) (P := fun _ _ => True) .nil
    (by decide : Program.isCallable "createBuilders" = true) hlinks
  refine ⟨_, hlines, ?_⟩
  have hreads := (ReadsStatement.binding builders hchain).mono
    (Q := fun doc s => ∃ line e, s = .binding line "const" builders (some e) doc)
    fun doc s ⟨line, e, hs, _⟩ => ⟨line, e, hs⟩
  simpa [buildersStart, typeCall, listed] using hreads

/-- The lines of the builders declare nothing that a model holds. -/
theorem gives_builderLines {d : Nat} (hlimit : config.nestingLimit = d + 1)
    {events commands states : List String}
    (hevents : ∀ n ∈ events, isFullName n = true) (hcommands : ∀ n ∈ commands, isFullName n = true)
    (hstates : ∀ n ∈ states, isFullName n = true) :
    Gives config names declared (builderLines events commands states) [] [] := by
  have hsays := says_builderLines d hevents hcommands hstates
  rw [← hlimit] at hsays
  have hholds := hsays.holds_bare (P := Adds config names config.nestingLimit declared)
    (x := {}) ?_
  · exact ⟨[{}], hholds, rfl, rfl⟩
  · rintro s ⟨line, e, rfl⟩
    exact adds_binding line "const" builders (some e) _

end EventFlow.Emission
