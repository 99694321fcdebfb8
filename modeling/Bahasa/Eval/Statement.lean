import Bahasa.Eval.Expression

namespace Bahasa.Eval

def declaration (eval : Evaluator) (frame : FrameId) : List Node → Run Value
  | [nameNode, keyword, valueNode] => do
    let name ← identifier .declared nameNode
    let v ← if valueNode.isAbsent then pure .null else eval valueNode frame
    let constant := match keyword with
      | .leaf .constWord _ _ => true
      | _ => false
    Run.access (Access.declare frame name v constant)
  | _ => throw .stuck

def paramNames : List Node → Run (List String)
  | [] => pure []
  | node :: rest =>
    match node.ident? with
    | some name => do return name :: (← paramNames rest)
    | none => Run.raise (.malformedParam node)

/-- A declaration keeps the body for later calls and remembers the frame. -/
def function (frame : FrameId) : List Node → Run Value
  | [nameNode, paramsNode, .tree .body body _] => do
    let name ← identifier .function nameNode
    let params ← paramNames paramsNode.children
    Run.access (Access.declare frame name (.function name params body frame) true)
  | _ => Run.raise .malformedFunction

def body (eval : Evaluator) (frame : FrameId) : Node → Run Unit
  | .absent => pure ()
  | .tree _ statements _ => do
    let _ ← sequence eval frame .null statements
  | _ => throw .stuck

def otherwise (eval : Evaluator) (frame : FrameId) : Node → Run Unit
  | .absent => pure ()
  | .tree .elseClause (statements :: _) _ => body eval frame statements
  | .tree .elseClause [] _ => throw .stuck
  | _ => Run.raise .malformedElse

/-- Clauses up to the first that takes a branch, its own or the final one. -/
def clauses (eval : Evaluator) (frame : FrameId) : List Node → Run Unit
  | [] => pure ()
  | .tree _ [cond, statements, final] _ :: rest => do
    if (← eval cond frame).isTruthy then body eval frame statements
    else if final.isAbsent then clauses eval frame rest
    else otherwise eval frame final
  | _ :: _ => throw .stuck

def ifElse (eval : Evaluator) (frame : FrameId) : List Node → Run Value
  | [cond, statements, elifs, final] => do
    if (← eval cond frame).isTruthy then body eval frame statements
    else if elifs.isAbsent then otherwise eval frame final
    else clauses eval frame elifs.children
    return .null
  | _ => throw .stuck

def loop (eval : Evaluator) (frame : FrameId) (cond increment statements : Node) : Nat → Run Value
  | 0 => throw .unfinished
  | turns + 1 => do
    if (← eval cond frame).isTruthy then
      body eval frame statements
      let _ ← eval increment frame
      loop eval frame cond increment statements turns
    else return .null

/-- A loop runs in the frame around it, its start included. -/
def forLoop (eval : Evaluator) (frame : FrameId) (turns : Nat) : List Node → Run Value
  | [start, cond, increment, statements] => do
    let _ ← eval start frame
    loop eval frame cond increment statements turns
  | _ => throw .stuck

end Bahasa.Eval
