import Bahasa.Eval.Expression

namespace Bahasa.Eval

def bindParams (scope : FrameId) : List String → List Value → Run Unit
  | [], _ => pure ()
  | p :: params, args => do
    let _ ← Run.access (Access.declare scope p (args.headD .null) false)
    bindParams scope params args.tail

/-- Runs a function's body in a new frame inside the one where the function was declared. -/
def invoke (eval : Evaluator) (name : String) (params : List String) (body : List Node)
    (home : FrameId) (args : List Value) : Run Value := do
  let scope ← Run.pushFrame home
  bindParams scope params args
  if params.length < args.length then
    Run.record (.dropped name (args.length - params.length))
  sequence eval scope .null body

def apply (host : Host) (eval : Evaluator) (frame : FrameId) (callee : Value) (args : List Value) :
    Run Value :=
  match callee with
  | .native name => do (← host name args frame).toValue
  | .function name params body home => do
    Run.record (.call name args.length)
    invoke eval name params body home args
  | v => Run.raise (.notCallable v)

def call (host : Host) (eval : Evaluator) (frame : FrameId) : List Node → Run Value
  | [calleeNode, argsNode] => do
    let args ← all eval frame argsNode.children
    let callee ← eval calleeNode frame
    apply host eval frame callee args
  | _ => throw .stuck

end Bahasa.Eval
