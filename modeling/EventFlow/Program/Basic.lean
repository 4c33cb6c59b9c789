import EventFlow.Number.Basic

/-!
Programs of the flow language: expressions and statements, each with the line it starts on.

A call chain `root(…).first(…).second(…)` is nested to the left; `Expr.chain` unrolls it into its
root and its links in order of writing.
-/

namespace EventFlow

/-- One imported name. -/
structure Specifier where
  line : Nat
  name : String
  renamed : Option String
  typeOnly : Bool
  deriving DecidableEq, Repr

/-- The name that the file itself uses. -/
def Specifier.localName (s : Specifier) : String := s.renamed.getD s.name

/-- What an import declaration brings in, and from where. -/
structure Import where
  module : String
  specifiers : List Specifier := []
  default : Option String := none
  everything : Option String := none
  typeOnly : Bool := false
  deriving DecidableEq, Repr

mutual

inductive Expr where
  | identifier (line : Nat) (name : String)
  | text (line : Nat) (value : String)
  | template (line : Nat) (value : String) (substitution : Bool)
  | number (line : Nat) (value : Number)
  | boolean (line : Nat) (value : Bool)
  | null (line : Nat)
  | spread (line : Nat) (argument : Expr)
  | array (line : Nat) (elements : List Expr)
  | object (line : Nat) (properties : List Property)
  | member (line : Nat) (object : Expr) (property : String)
  | call (line : Nat) (callee : Expr) (arguments : List Expr) (typeArguments : Option String)
  | construct (line : Nat) (callee : Expr) (arguments : List Expr)
  | tagged (line : Nat) (tag : Expr) (value : String) (substitution : Bool)
  | block (line : Nat) (body : List Statement)
  | arrow (line : Nat) (result : Expr)

/-- An entry of an object literal; a shorthand stands for the variable of its name. -/
inductive Property where
  | keyed (line : Nat) (key : String) (value : Expr)
  | shorthand (line : Nat) (key : String)
  | spread (line : Nat) (argument : Expr)

inductive Statement where
  | expression (line : Nat) (value : Expr) (doc : Option String)
  | result (line : Nat) (value : Option Expr)
  | binding (line : Nat) (keyword : String) (names : List String) (init : Option Expr)
      (doc : Option String)
  | imports (line : Nat) (content : Import) (doc : Option String)

end

instance : Inhabited Expr := ⟨.null 0⟩

namespace Expr

def line : Expr → Nat
  | .identifier l _ | .text l _ | .template l _ _ | .number l _ | .boolean l _ | .null l
  | .spread l _ | .array l _ | .object l _ | .member l _ _ | .call l _ _ _ | .construct l _ _
  | .tagged l _ _ _ | .block l _ | .arrow l _ => l

/-- The kind of expression, as messages name it. -/
def kind : Expr → String
  | .identifier .. => "Identifier"
  | .text .. => "StringLiteral"
  | .template .. => "TemplateLiteral"
  | .number .. => "NumberLiteral"
  | .boolean .. => "BooleanLiteral"
  | .null .. => "NullLiteral"
  | .spread .. => "SpreadElement"
  | .array .. => "ArrayLiteral"
  | .object .. => "ObjectLiteral"
  | .member .. => "MemberExpression"
  | .call .. => "CallExpression"
  | .construct .. => "NewExpression"
  | .tagged .. => "TaggedTemplate"
  | .block .. => "ArrowFunction"
  | .arrow .. => "ArrowFunction"

/-- The name that a call is made on: `f` for `f(…)`, none for `a.f(…)`. -/
def calleeName? : Expr → Option String
  | .call _ (.identifier _ name) _ _ => some name
  | _ => none

/-- The arguments of a call. -/
def arguments : Expr → List Expr
  | .call _ _ args _ => args
  | _ => []

end Expr

def Property.line : Property → Nat
  | .keyed l _ _ | .shorthand l _ | .spread l _ => l

def Statement.line : Statement → Nat
  | .expression l _ _ | .result l _ | .binding l _ _ _ _ | .imports l _ _ => l

/-! ## Chains -/

/-- One call `.method(…)` of a chain. -/
structure Link where
  line : Nat
  method : String
  arguments : List Expr
  typeArguments : Option String

/-- The innermost expression that is not a method call, and the method calls on it in order. -/
def Expr.chain : Expr → Expr × List Link
  | .call l (.member _ receiver method) args types =>
    let (root, links) := receiver.chain
    (root, links ++ [⟨l, method, args, types⟩])
  | e => (e, [])

end EventFlow
