import Bahasa.Decimal.Reading
import Bahasa.Eval.Native
import Bahasa.Operator

namespace Bahasa

abbrev Evaluator := Node → FrameId → Run Value

namespace Eval

def identifier (role : NameRole) (node : Node) : Run String :=
  match node.ident? with
  | some name => pure name
  | none => Run.raise (.notIdentifier role)

def leaf (kind : LeafKind) (text : String) (node : Node) (frame : FrameId) : Run Value :=
  match kind with
  | .number =>
    match Decimal.read? text with
    | some x => pure (.number x)
    | none => throw .stuck
  | .string => pure (.string text)
  | .ident => Run.access (Access.lookup frame text)
  | _ => Run.raise (.noMeaning node)

def all (eval : Evaluator) (frame : FrameId) : List Node → Run (List Value)
  | [] => pure []
  | n :: rest => do
    let v ← eval n frame
    let vs ← all eval frame rest
    return v :: vs

/-- The nodes in order; the last value counts, or `last` when there is none. -/
def sequence (eval : Evaluator) (frame : FrameId) (last : Value) : List Node → Run Value
  | [] => pure last
  | n :: rest => do
    let v ← eval n frame
    sequence eval frame v rest

structure Link where
  label : Label
  children : List Node

/-- The links down the left side of a chain, innermost first, and the operand below them; none if
a link has no children at all. -/
def spine (family : Label → Bool) (links : List Link) : Node → Option (Node × List Link)
  | .tree label [] place => if family label then none else some (.tree label [] place, links)
  | .tree label (first :: rest) place =>
    if family label then spine family (⟨label, first :: rest⟩ :: links) first
    else some (.tree label (first :: rest) place, links)
  | node => some (node, links)

def fold (eval : Evaluator) (frame : FrameId) (join : Link → Value → Value → Run Value)
    (left : Value) : List Link → Run Value
  | [] => pure left
  | link :: rest => do
    match link.children.getLast? with
    | none => throw .stuck
    | some operand =>
      let right ← eval operand frame
      let v ← join link left right
      fold eval frame join v rest

/-- A chain of operators of one family. However long it is, each operand is evaluated directly
below the chain. -/
def chain (eval : Evaluator) (frame : FrameId) (family : Label → Bool)
    (join : Link → Value → Value → Run Value) (node : Node) : Run Value :=
  match spine family [] node with
  | none => throw .stuck
  | some (operand, links) => do
    let left ← eval operand frame
    fold eval frame join left links

def arithmetic (sign : String) (left right : Value) : Run Value :=
  match Arith.ofSign? sign with
  | some op => pure (op.apply left right)
  | none => Run.raise (.unknownOperator sign)

def joinArith (link : Link) (left right : Value) : Run Value :=
  match link.children with
  | _ :: .leaf _ sign _ :: _ => arithmetic sign left right
  | _ => throw .stuck

def joinComparison (link : Link) (left right : Value) : Run Value :=
  match link.label.comparison? with
  | some test => pure (compareValues test left right)
  | none => throw .stuck

def joinLogical (link : Link) (left right : Value) : Run Value :=
  -- both operands are evaluated, whatever the first one is
  match link.label.connective? with
  | some join => pure (joinValues join left right)
  | none => throw .stuck

def slots (eval : Evaluator) (frame : FrameId) (done : List (String × Value)) :
    List Node → Run (List (String × Value))
  | [] => pure done
  | .tree .property [keyNode, valueNode] _ :: rest => do
    let key ← identifier .key keyNode
    let v ←
      if valueNode.isAbsent then Run.access (Access.lookup frame key) else eval valueNode frame
    slots eval frame (setSlot key v done) rest
  | .tree .property _ _ :: _ => throw .stuck
  | node :: _ => Run.raise (.malformedEntry node)

def object (eval : Evaluator) (frame : FrameId) (entries : List Node) : Run Value := do
  return .object (← slots eval frame [] entries)

def member (eval : Evaluator) (frame : FrameId) : List Node → Run Value
  | [receiver, name] => do
    let v ← eval receiver frame
    return v.slot (.string (← identifier .property name))
  | _ => throw .stuck

def index (eval : Evaluator) (frame : FrameId) : List Node → Run Value
  | [receiver, key] => do
    let v ← eval receiver frame
    return v.slot (← eval key frame)
  | _ => throw .stuck

def target (operator : String) (node : Node) : Run String :=
  match node.ident? with
  | some name => pure name
  | none => Run.raise (.target operator node)

def assign (eval : Evaluator) (frame : FrameId) : List Node → Run Value
  | [left, right] => do
    let name ← target "=" left
    let v ← eval right frame
    Run.access (Access.assign frame name v)
  | _ => throw .stuck

/-- A result that is no number is not stored. -/
def compound (eval : Evaluator) (frame : FrameId) (op : Arith) (operator : String) :
    List Node → Run Value
  | [left, right] => do
    let name ← target operator left
    let current ← eval left frame
    let delta ← eval right frame
    match op.apply current delta with
    | .null => return .null
    | v => Run.access (Access.assign frame name v)
  | _ => throw .stuck

end Eval

end Bahasa
