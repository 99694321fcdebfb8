import Bahasa.Node.Basic
import Bahasa.Operator
import Bahasa.Decimal.Reading

namespace Bahasa

namespace Node

inductive Within : Node → Node → Prop
  | child {x n : Node} (h : x ∈ n.children) : Within x n
  | deeper {x c n : Node} (h : Within x c) (hc : c ∈ n.children) : Within x n

theorem Within.trans {x y n : Node} (hx : x.Within y) (hy : y.Within n) : x.Within n := by
  induction hy with
  | child h => exact .deeper hx h
  | deeper _ hc ih => exact .deeper ih hc

def evaluable : Node → Bool
  | .leaf .number _ _ | .leaf .string _ _ | .leaf .ident _ _ => true
  | .tree label _ _ =>
    match label with
    | .body | .params | .elifs | .elifClause | .elseClause | .args | .property | .other _ => false
    | _ => true
  | _ => false

def has (label : Label) (n : Node) : Bool :=
  n.label? = some label

@[simp] theorem has_tree (label other : Label) (ns : List Node) (p : Option Place) :
    (tree label ns p).has other = decide (label = other) := by
  simp [has, label?]

/-- A chain can be followed along these children: the first and the last one have rules. -/
def flanked (children : List Node) : Bool :=
  children.head?.any evaluable && children.getLast?.any evaluable

def sign? : List Node → Option Arith
  | _ :: .leaf _ sign _ :: _ => Arith.ofSign? sign
  | _ => none

/-- The children that the rule of a construct looks for, each of the sort it can do with. -/
def suits (label : Label) (children : List Node) : Bool :=
  match label with
  | .program | .body | .args => children.all (·.evaluable)
  | .params => children.all (·.ident?.isSome)
  | .object => children.all (·.has .property)
  | .elifs => children.all (·.has .elifClause)
  | .binop => flanked children && (sign? children).isSome
  | .gt | .gte | .lt | .lte | .eq | .neq | .and | .or => flanked children
  | .property =>
    match children with
    | [key, value] => key.ident?.isSome && (value.isAbsent || value.evaluable)
    | _ => false
  | .declaration =>
    match children with
    | [name, _, value] => name.ident?.isSome && (value.isAbsent || value.evaluable)
    | _ => false
  | .function =>
    match children with
    | [name, params, body] => name.ident?.isSome && params.has .params && body.has .body
    | _ => false
  | .ifElse =>
    match children with
    | [cond, body, elifs, final] =>
      cond.evaluable && body.has .body && (elifs.isAbsent || elifs.has .elifs) &&
        (final.isAbsent || final.has .elseClause)
    | _ => false
  | .elifClause =>
    match children with
    | [cond, body, final] =>
      cond.evaluable && body.has .body && (final.isAbsent || final.has .elseClause)
    | _ => false
  | .elseClause =>
    match children with
    | [body] => body.has .body
    | _ => false
  | .forLoop =>
    match children with
    | [start, cond, increment, body] =>
      start.evaluable && cond.evaluable && increment.evaluable && body.has .body
    | _ => false
  | .assign | .plusAssign | .minusAssign | .index =>
    match children with
    | [left, right] => left.evaluable && right.evaluable
    | _ => false
  | .member =>
    match children with
    | [receiver, name] => receiver.evaluable && name.ident?.isSome
    | _ => false
  | .call =>
    match children with
    | [callee, args] => callee.evaluable && args.has .args
    | _ => false
  | .other _ => false

def regular : Node → Bool
  | .leaf .number text _ => (Decimal.read? text).isSome
  | .tree label children _ => suits label children
  | _ => true

theorem regular_of_has {label : Label} {n : Node} (h : n.has label) :
    n.regular = suits label n.children := by
  cases n with
  | tree label' children p =>
    obtain rfl : label' = label := by simpa [has, label?] using h
    rfl
  | _ => simp [has, label?] at h

end Node

end Bahasa
