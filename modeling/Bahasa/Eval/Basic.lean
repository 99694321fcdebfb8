import Bahasa.Eval.Call
import Bahasa.Eval.Statement

namespace Bahasa

structure Machine where
  host : Host
  /-- How many turns a loop may take. -/
  turns : Nat

namespace Eval

def step (m : Machine) (eval : Evaluator) (node : Node) (frame : FrameId) : Run Value :=
  match node with
  | .leaf kind text _ => leaf kind text node frame
  | .tree label children _ =>
    match label with
    | .program => sequence eval frame .null children
    | .declaration => declaration eval frame children
    | .function => function frame children
    | .ifElse => ifElse eval frame children
    | .forLoop => forLoop eval frame m.turns children
    | .assign => assign eval frame children
    | .plusAssign => compound eval frame .add "+=" children
    | .minusAssign => compound eval frame .sub "-=" children
    | .binop => chain eval frame (· = .binop) joinArith node
    | .gt | .gte | .lt | .lte | .eq | .neq =>
      chain eval frame (·.comparison?.isSome) joinComparison node
    | .and | .or => chain eval frame (·.connective?.isSome) joinLogical node
    | .call => call m.host eval frame children
    | .object => object eval frame children
    | .member => member eval frame children
    | .index => index eval frame children
    | _ => Run.raise (.noMeaning node)
  | _ => Run.raise (.noMeaning node)

/-- Evaluates a node, going at most `depth` levels deep. An error is placed at the innermost node
being evaluated that knows where it stands. -/
def node (m : Machine) : Nat → Evaluator
  | 0, _, _ => throw .tooDeep
  | depth + 1, n, frame => Run.located n.place? (step m (node m depth) n frame)

def depthLimit : Nat := 10000

end Eval

end Bahasa
