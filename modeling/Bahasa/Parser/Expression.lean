import Bahasa.Node.Basic
import Bahasa.Parser.Basic

namespace Bahasa.Parser

def primary (expression : Parser Node) : Parser Node := do
  match (← peek).kind with
  | .ident => return .ofToken .ident (← next)
  | .number => return .ofToken .number (← next)
  | .string => return .ofToken .string (← next)
  | .lparen =>
    let _ ← next
    let inner ← expression
    let _ ← expect .rparen .groupClose
    return inner
  | .endOfInput => reject .endOfInput
  | _ => reject .unexpected

def member (expression : Parser Node) : Parser Node := do
  let receiver ← primary expression
  foldWhile (fun receiver => do
    match (← peek).kind with
    | .dot =>
      let dot ← next
      let name ← expect .ident .memberName
      return some (.build .member [receiver, .ofToken .ident name] dot)
    | .lbracket =>
      let bracket ← next
      let key ← expression
      let _ ← expect .rbracket .indexClose
      return some (.build .index [receiver, key] bracket)
    | _ => return none) receiver

def call (expression : Parser Node) : Parser Node := do
  let callee ← member expression
  foldWhile (fun callee => do
    match (← peek).kind with
    | .lparen =>
      let paren ← next
      let args ← commaListUntil .rparen .argsClose expression
      return some (.build .call [callee, .build .args args paren] paren)
    | _ => return none) callee

def chain (join? : Token → Option (Node → Node → Node)) (operand : Parser Node) : Parser Node := do
  let first ← operand
  foldWhile (fun left => do
    match join? (← peek) with
    | some join =>
      let _ ← next
      return some (join left (← operand))
    | none => return none) first

/-- An arithmetic operator among `signs`, kept as a leaf between its operands. -/
def arithmetic? (signs : List String) (op : Token) : Option (Node → Node → Node) :=
  if op.kind = .arith ∧ op.text ∈ signs then
    some (fun left right => .build .binop [left, .ofToken .operator op, right] op)
  else none

def labelled? (label? : Kind → Option Label) (op : Token) : Option (Node → Node → Node) :=
  (label? op.kind).map (fun label left right => .build label [left, right] op)

def relation? : Kind → Option Label
  | .lt => some .lt
  | .lte => some .lte
  | .gt => some .gt
  | .gte => some .gte
  | _ => none

def equality? : Kind → Option Label
  | .eq => some .eq
  | .neq => some .neq
  | _ => none

def conjunction? : Kind → Option Label
  | .and => some .and
  | _ => none

def disjunction? : Kind → Option Label
  | .or => some .or
  | _ => none

def product (expression : Parser Node) : Parser Node :=
  chain (arithmetic? ["*", "/", "%"]) (call expression)

def sum (expression : Parser Node) : Parser Node :=
  chain (arithmetic? ["+", "-"]) (product expression)

def relation (expression : Parser Node) : Parser Node :=
  chain (labelled? relation?) (sum expression)

def equality (expression : Parser Node) : Parser Node :=
  chain (labelled? equality?) (relation expression)

def conjunction (expression : Parser Node) : Parser Node :=
  chain (labelled? conjunction?) (equality expression)

def disjunction (expression : Parser Node) : Parser Node :=
  chain (labelled? disjunction?) (conjunction expression)

def property (expression : Parser Node) : Parser Node := do
  let key ← expect .ident .objectKey
  let value ← if ← accept .colon then expression else pure .absent
  let _ ← accept .comma
  return .build .property [.ofToken .ident key, value] key

def object (expression : Parser Node) : Parser Node := do
  if (← peek).kind = .lbrace then
    let brace ← next
    return .build .object (← bracedItems .object (property expression)) brace
  else disjunction expression

def assignment? : Kind → Option Label
  | .assign => some .assign
  | .plusAssign => some .plusAssign
  | .minusAssign => some .minusAssign
  | _ => none

structure Pending where
  target : Node
  label : Label
  operator : Token

def Pending.close (value : Node) (p : Pending) : Node :=
  .build p.label [p.target, value] p.operator

def assignment (expression : Parser Node) : Parser Node := do
  let first ← object expression
  let (pending, last) ← foldWhile (fun ((pending, left) : List Pending × Node) => do
    match assignment? (← peek).kind with
    | some label =>
      let op ← next
      return some (⟨left, label, op⟩ :: pending, ← object expression)
    | none => return none) ([], first)
  return pending.foldl Pending.close last

def expression : Nat → Parser Node
  | 0 => tooDeep
  | depth + 1 => assignment (expression depth)

end Bahasa.Parser
