import EventFlow.Program.Expression

/-!
Reading statements and whole programs.

    statement := import | ["export"] binding | "return" [expression] | expression
    binding   := ("const" | "let" | "var") names [":" type] ["=" expression]

`parseWithin depth` refuses programs whose brackets and functions nest more than `depth` levels
deep; a program is never nested deeper than it has tokens.
-/

namespace EventFlow.Program

/-! ## Imports -/

/-- One name of an import list. -/
def specifier (typeOnly : Bool) : Reader Specifier := fun ts => do
  let line := ts.line
  let marked := ts.isName "type" && ts.next.name?.isSome && !ts.next.isName "as"
  let (name, rest) ← expectName (if marked then ts.next else ts)
  if rest.isName "as" then do
    let (renamed, rest) ← expectName rest.next
    return (⟨line, name, some renamed, typeOnly || marked⟩, rest)
  else return (⟨line, name, none, typeOnly || marked⟩, rest)

/-- Names with commas between them, up to the closing brace; `fuel` bounds their number. -/
def specifiers (typeOnly : Bool) : (fuel : Nat) → Reader (List Specifier)
  | 0, ts => ts.fail .importList
  | fuel + 1, ts =>
    if ts.isPunct r"}" then .ok ([], ts.next)
    else do
      let (first, rest) ← specifier typeOnly ts
      if rest.isPunct "," then do
        let (more, rest) ← specifiers typeOnly fuel rest.next
        return (first :: more, rest)
      else if rest.isPunct r"}" then return ([first], rest.next)
      else rest.fail .importList

/-- A default name and the comma after it. -/
def defaultName : Reader (Option String) := fun ts =>
  match ts.name? with
  | some name => .ok (some name, if ts.next.isPunct "," then ts.next.next else ts.next)
  | none => .ok (none, ts)

/-- A namespace or a list of names. -/
def named (typeOnly : Bool) : Reader (Option String × List Specifier) := fun ts =>
  if ts.isPunct "*" then
    if ts.next.isName "as" then do
      let (name, rest) ← expectName ts.next.next
      return ((some name, []), rest)
    else ts.next.fail .expectedAs
  else if ts.isPunct r"{" then do
    let (names, rest) ← specifiers typeOnly ts.length ts.next
    return ((none, names), rest)
  else .ok ((none, []), ts)

/-- What an import declaration says after its keyword. -/
def importContent : Reader Import := fun ts =>
  match ts.text? with
  | some module => .ok ({ module := module }, ts.next)
  | none => do
    let typeOnly := ts.isName "type" && !ts.next.isName "from"
    let (default, ts) ← defaultName (if typeOnly then ts.next else ts)
    let ((all, names), ts) ← named typeOnly ts
    if ts.isName "from" then do
      let (module, ts) ← expectString ts.next
      return (⟨module, names, default, all, typeOnly⟩, ts)
    else ts.fail .expectedFrom

/-! ## Bindings -/

def bindingKeywords : List String := ["const", "let", "var"]

/-- The names that a pattern binds, up to the closing brace; `a: b` binds `b`. -/
def patternNames : (fuel : Nat) → Reader (List String)
  | 0, ts => ts.fail .bindingPattern
  | fuel + 1, ts =>
    if ts.isPunct r"}" then .ok ([], ts.next)
    else do
      let (first, rest) ← expectName ts
      let (name, rest) ← if rest.isPunct ":" then expectName rest.next else pure (first, rest)
      if rest.isPunct "," then do
        let (more, rest) ← patternNames fuel rest.next
        return (name :: more, rest)
      else if rest.isPunct r"}" then return ([name], rest.next)
      else rest.fail .bindingPattern

def boundNames : Reader (List String) := fun ts =>
  if ts.isPunct r"{" then patternNames ts.length ts.next
  else do
    let (name, rest) ← expectName ts
    return ([name], rest)

/-- A binding, from its keyword on. -/
def binding (g : Grammar) (doc : Option String) : Reader Statement := fun ts => do
  let (names, rest) ← boundNames ts.next
  let rest ← if rest.isPunct ":" then skipType rest.next else pure rest
  let (init, rest) ←
    if rest.isPunct "=" then do
      let (value, rest) ← expression g rest.next
      pure (some value, rest)
    else pure (none, rest)
  let (_, rest) ← endStatement rest
  return (.binding ts.line ts.cited names init doc, rest)

/-! ## Statements -/

def isBinding (ts : Stream) : Bool := bindingKeywords.any ts.isName

/-- What `return` gives back: nothing before a semicolon, a closing brace or a new line. -/
def result (g : Grammar) : Reader Statement := fun ts => do
  let rest := ts.next
  if rest.isPunct ";" || rest.isPunct r"}" || rest.head?.any (·.breaks) then do
    let (_, rest) ← endStatement rest
    return (.result ts.line none, rest)
  else do
    let (value, rest) ← expression g rest
    let (_, rest) ← endStatement rest
    return (.result ts.line (some value), rest)

def docOf (ts : Stream) : Option String := ts.head?.bind (·.token.doc)

/-- A statement whose nested parts are read with the given grammar; a lone semicolon is none. -/
def statement (g : Grammar) : Reader (Option Statement) := fun ts => do
  let doc := docOf ts
  if ts.isPunct ";" then return (none, ts.next)
  else if ts.isName "import" && !ts.next.isPunct "(" then do
    let (content, rest) ← importContent ts.next
    let (_, rest) ← endStatement rest
    return (some (.imports ts.line content doc), rest)
  else if ts.isName "export" then
    if ts.next.isName "default" then ts.next.fail .defaultExport
    else if isBinding ts.next then do
      let (s, rest) ← binding g (doc <|> docOf ts.next) ts.next
      return (some s, rest)
    else ts.next.failCiting .unsupportedExport
  else if isBinding ts then do
    let (s, rest) ← binding g doc ts
    return (some s, rest)
  else if ts.isName "return" then do
    let (s, rest) ← result g ts
    return (some s, rest)
  else do
    let (value, rest) ← expression g ts
    let (_, rest) ← endStatement rest
    return (some (.expression ts.line value doc), rest)

/-! ## Programs -/

/-- The grammar for programs nested at most `depth` levels deep. -/
def grammar (source : List Char) : (depth : Nat) → Grammar
  | 0 =>
    { source := source
      expression := fun _ => .error ⟨.nesting, none, none⟩
      statement := fun _ => .error ⟨.nesting, none, none⟩ }
  | depth + 1 =>
    { source := source
      expression := expression (grammar source depth)
      statement := statement (grammar source depth) }

/-- The statements up to the end of the text; `fuel` bounds their number. -/
def statements (g : Grammar) : (fuel : Nat) → Stream → Except (Complaint Fault) (List Statement)
  | 0, _ => .ok []
  | fuel + 1, ts =>
    if ts.isEof then .ok []
    else do
      let (first, rest) ← statement g ts
      let more ← statements g fuel rest
      return first.toList ++ more

/-- The program that some tokens of a source text make, nested at most `depth` levels deep. -/
def parseWithin (depth : Nat) (source : List Char) (tokens : List Token) :
    Except (Complaint Fault) (List Statement) :=
  statements (grammar source depth) tokens.length (stream tokens)

/-- The program that some tokens of a source text make. -/
def parse (source : List Char) (tokens : List Token) :
    Except (Complaint Fault) (List Statement) :=
  parseWithin tokens.length source tokens

end EventFlow.Program
