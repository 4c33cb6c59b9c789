import EventFlow.Program.Basic
import EventFlow.Program.Stream
import EventFlow.Text.Blank

/-!
Reading expressions.

The parts of an expression that stand inside brackets or in a function's body are read with a
`Grammar` given from outside, so that each definition here is an ordinary one; the grammar of
depth `n + 1` is made of these definitions over the grammar of depth `n`.

    expression := arrow | operand suffix* (("as" | "satisfies") type)*
    suffix     := "." name | "?." name | ["<" types ">"] "(" arguments ")" | template | "!"
    operand    := literal | name | array | object | "(" expression ")" | "new" name ("." name)*
-/

namespace EventFlow.Program

/-- How the nested parts of an expression are read. -/
structure Grammar where
  source : List Char
  expression : Reader Expr
  statement : Reader (Option Statement)

/-! ## Sequences -/

/-- Expressions with commas between them, up to the closing mark; `fuel` bounds their number. -/
def elements (g : Grammar) (close : String) (fault : Fault) : (fuel : Nat) → Reader (List Expr)
  | 0, ts => ts.fail fault
  | fuel + 1, ts =>
    if ts.isPunct close then .ok ([], ts.next)
    else do
      let (element, rest) ←
        if ts.isPunct "..." then do
          let (argument, rest) ← g.expression ts.next
          pure (Expr.spread ts.line argument, rest)
        else g.expression ts
      if rest.isPunct "," then do
        let (more, rest) ← elements g close fault fuel rest.next
        return (element :: more, rest)
      else if rest.isPunct close then return ([element], rest.next)
      else rest.fail fault

/-- The arguments of a call, from the opening parenthesis on. -/
def arguments (g : Grammar) : Reader (List Expr) := fun ts => do
  let (_, ts) ← expectPunct "(" ts
  elements g ")" .argumentList (ts.length + 1) ts

/-- The key of a property: a name, a text, or a number as it is written. -/
def key? (l : Lexeme) : Option String :=
  match l with
  | .identifier name => some name
  | .text value => some value
  | .number value => some (value.write Number.plain)
  | _ => none

/-- One property of an object literal. -/
def property (g : Grammar) : Reader Property := fun ts =>
  if ts.isPunct "..." then do
    let (argument, rest) ← g.expression ts.next
    return (.spread ts.line argument, rest)
  else if ts.number?.any Number.isLong then ts.fail .longNumber
  else
    match ts.head?.bind (key? ·.token.lexeme) with
    | none => ts.fail (.unsupportedKey ts.cited)
    | some key =>
      if ts.next.isPunct ":" then do
        let (value, rest) ← g.expression ts.next.next
        return (.keyed ts.line key value, rest)
      else if ts.name?.isSome then .ok (.shorthand ts.line key, ts.next)
      else ts.next.fail (.expectedColon key)

/-- Properties with commas between them, up to the closing brace; `fuel` bounds their number. -/
def properties (g : Grammar) : (fuel : Nat) → Reader (List Property)
  | 0, ts => ts.fail .objectLiteral
  | fuel + 1, ts =>
    if ts.isPunct r"}" then .ok ([], ts.next)
    else do
      let (first, rest) ← property g ts
      if rest.isPunct "," then do
        let (more, rest) ← properties g fuel rest.next
        return (first :: more, rest)
      else if rest.isPunct r"}" then return ([first], rest.next)
      else rest.fail .objectLiteral

/-- The statements of a function's body, up to the closing brace; `fuel` bounds their number. -/
def body (g : Grammar) : (fuel : Nat) → Reader (List Statement)
  | 0, ts => ts.fail .unterminatedBody
  | fuel + 1, ts =>
    if ts.isPunct r"}" then .ok ([], ts.next)
    else if ts.isEof then ts.fail .unterminatedBody
    else do
      let (first, rest) ← g.statement ts
      let (more, rest) ← body g fuel rest
      return (first.toList ++ more, rest)

/-- What follows an arrow. -/
def arrowBody (g : Grammar) (line : Nat) : Reader Expr := fun ts =>
  if ts.isPunct r"{" then do
    let (statements, rest) ← body g ts.length ts.next
    return (.block line statements, rest)
  else do
    let (result, rest) ← g.expression ts
    return (.arrow line result, rest)

/-! ## Operands -/

/-- The names after `new`, joined by points. -/
def constructed (line : Nat) (callee : Expr) : (fuel : Nat) → Reader Expr
  | 0, ts => .ok (callee, ts)
  | fuel + 1, ts =>
    if ts.isPunct "." then do
      let (name, rest) ← expectName ts.next
      constructed line (.member line callee name) fuel rest
    else .ok (callee, ts)

/-- An expression that starts with `new`. -/
def construction (g : Grammar) : Reader Expr := fun ts => do
  let line := ts.line
  let (name, rest) ← expectName ts.next
  let (callee, rest) ← constructed line (.identifier line name) rest.length rest
  if rest.isPunct "(" then do
    let (args, rest) ← arguments g rest
    return (.construct line callee args, rest)
  else return (.construct line callee [], rest)

/-- A literal, a name, or an expression in brackets. -/
def operand (g : Grammar) : Reader Expr := fun ts =>
  match ts.head? with
  | none => ts.fail .unexpectedEnd
  | some t =>
    let line := t.token.line
    let rest := ts.next
    match t.token.lexeme with
    | .eof => ts.fail .unexpectedEnd
    | .text value => .ok (.text line value, rest)
    | .template value marked => .ok (.template line value marked, rest)
    | .number value => .ok (.number line value, rest)
    | .identifier "true" => .ok (.boolean line true, rest)
    | .identifier "false" => .ok (.boolean line false, rest)
    | .identifier "null" => .ok (.null line, rest)
    | .identifier "new" => construction g ts
    | .identifier name => .ok (.identifier line name, rest)
    | .punct mark =>
      if mark = "-" || mark = "+" then
        match rest.number? with
        | some value =>
          .ok (.number line (if mark = "-" then value.neg else value), rest.next)
        | none => ts.fail (.unary mark)
      else if mark = "[" then do
        let (values, rest) ← elements g "]" .arrayLiteral ts.length rest
        return (.array line values, rest)
      else if mark = r"{" then do
        let (entries, rest) ← properties g ts.length rest
        return (.object line entries, rest)
      else if mark = "(" then do
        let (inner, rest) ← g.expression rest
        let (_, rest) ← expectPunct ")" rest
        return (inner, rest)
      else ts.fail (.unexpectedToken mark)

/-! ## Suffixes -/

/-- The source text between two tokens of the stream, trimmed: from the first token of `ts` up to
the token `n` places after it. -/
def textUpTo (g : Grammar) (ts : Stream) (n : Nat) : String :=
  let offset (us : Stream) : Nat := (us.head?.map (·.token.start.offset)).getD 0
  let start := offset ts
  String.ofList (Text.trimChars ((g.source.drop start).take (offset (ts.skip n) - start)))

/-- Member accesses, calls and templates after an operand; `fuel` bounds their number. -/
def suffixes (g : Grammar) (e : Expr) : (fuel : Nat) → Reader Expr
  | 0, ts => .ok (e, ts)
  | fuel + 1, ts =>
    match ts.head? with
    | none => .ok (e, ts)
    | some t =>
      let rest := ts.next
      match t.token.lexeme with
      | .template value marked => suffixes g (.tagged t.token.line e value marked) fuel rest
      | .punct mark =>
        if mark = "." || mark = "?." then
          match rest.name? with
          | some name => suffixes g (.member rest.line e name) fuel rest.next
          | none => rest.fail .expectedProperty
        else if mark = "(" then do
          let (args, rest) ← arguments g ts
          suffixes g (.call t.token.line e args none) fuel rest
        else if mark = "<" then
          match closingOf? mark rest with
          | some n =>
            if (rest.skip (n + 1)).isPunct "(" then do
              let types := textUpTo g rest n
              let (args, rest) ← arguments g (rest.skip (n + 1))
              suffixes g (.call t.token.line e args (some types)) fuel rest
            else ts.fail .comparison
          | none => ts.fail .comparison
        else if mark = "!" && !rest.isPunct "=" then suffixes g e fuel rest
        else .ok (e, ts)
      | _ => .ok (e, ts)

/-- Type assertions after an expression, which leave it as it is; `fuel` bounds their number. -/
def assertions : (fuel : Nat) → Stream → Except (Complaint Fault) Stream
  | 0, ts => .ok ts
  | fuel + 1, ts =>
    if ts.isName "as" || ts.isName "satisfies" then do
      let rest ← skipType ts.next
      assertions fuel rest
    else .ok ts

/-- What follows the arrow, if the stream begins with a function's parameters. -/
def parameters? (ts : Stream) : Except (Complaint Fault) (Option Stream) :=
  if ts.name?.isSome && ts.next.isPunct "=>" then .ok (some ts.next.next)
  else if ts.isName "async" && ts.next.isPunct "(" then
    match closingOf? "(" ts.next.next with
    | some n =>
      let rest := ts.next.next.skip (n + 1)
      .ok (if rest.isPunct "=>" then some rest.next else none)
    | none => .ok none
  else if ts.isPunct "(" then
    match closingOf? "(" ts.next with
    | some n => do
      let rest := ts.next.skip (n + 1)
      let rest ← if rest.isPunct ":" then skipToArrow rest.next else pure rest
      return if rest.isPunct "=>" then some rest.next else none
    | none => .ok none
  else .ok none

/-- An expression whose nested parts are read with the given grammar. -/
def expression (g : Grammar) : Reader Expr := fun ts => do
  match ← parameters? ts with
  | some rest => arrowBody g ts.line rest
  | none => do
    let (first, rest) ← operand g ts
    let (e, rest) ← suffixes g first rest.length rest
    let rest ← assertions rest.length rest
    return (e, rest)

end EventFlow.Program
