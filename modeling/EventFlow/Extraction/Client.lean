import EventFlow.Extraction.Literal

/-!
The client of a slice, and the request of a query.
-/

namespace EventFlow.Extraction

/-- The text of a statement `should('text')`. -/
def shouldText (s : Statement) : Result String :=
  match calledIn? s with
  | some ("should", e) =>
    match e.arguments with
    | [text] => textOf "should() text" text
    | _ => fail s.line .expectedShould
  | _ => fail s.line .expectedShould

/-- What one statement adds to a client: a title for its description, and expectations. -/
def clientPart (s : Statement) : Result (Option String × List String) :=
  match calledIn? s with
  | some ("specs", e) => do
    let (title, body) ← specsBlock e.line e.arguments
    return (some title, ← body.mapM shouldText)
  | some ("should", _) => do
    return (none, [← shouldText s])
  | _ => fail s.line .clientStatement

/-- A client is described by the first title in it. -/
def clientOf (link : Link) : Result Client :=
  match link.arguments with
  | [callback] => do
    let body ← callbackBody "'.client()'" callback
    let parts ← body.mapM clientPart
    return ⟨(parts.findSome? (·.1)).getD "", parts.flatMap (·.2)⟩
  | _ => fail link.line .clientArguments

/-- The text of a request, which may be tagged. -/
def requestOf (link : Link) : Result String :=
  match link.arguments with
  | [.tagged l _ s substitution] =>
    if substitution then fail l .requestSubstitution else .ok s
  | [e] => textOf "'.request()' argument" e
  | _ => fail link.line .requestArguments

end EventFlow.Extraction
