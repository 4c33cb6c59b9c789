import EventFlow.Emission.Fault
import EventFlow.Emission.Quoted
import EventFlow.Json.Value

/-!
Document values as literals of the flow language.

    { id: 'x', tags: ['a', 'b'], quantity: 2 }

Every value has a literal but for numbers that are not finite or too long to be written.
-/

namespace EventFlow.Emission

def numberLiteral : Number → Except Fault String
  | .int i => if (Number.int i).isLong then .error .longNumber else .ok (Number.writeInt i)
  | .double d =>
    if d.isFinite then .ok (Number.writeDouble Number.plain d) else .error (.notFinite d)

mutual

def literal : Json → Except Fault String
  | .null => .ok "null"
  | .bool b => .ok (if b then "true" else "false")
  | .number n => numberLiteral n
  | .text s => .ok (quote s)
  | .array items => do return "[" ++ Text.joinWith ", " (← literalItems items) ++ "]"
  | .object [] => .ok "{}"
  | .object members => do
    return r"{ " ++ Text.joinWith ", " (← literalMembers members) ++ r" }"

def literalItems : List Json → Except Fault (List String)
  | [] => .ok []
  | v :: rest => do
    let s ← literal v
    let more ← literalItems rest
    return s :: more

def literalMembers : Json.Members → Except Fault (List String)
  | [] => .ok []
  | (key, v) :: rest => do
    let s ← literal v
    let more ← literalMembers rest
    return (propertyKey key ++ ": " ++ s) :: more

end

end EventFlow.Emission
