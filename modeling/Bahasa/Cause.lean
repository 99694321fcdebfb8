import Bahasa.Node.Describe
import Bahasa.Value

namespace Bahasa

inductive NameRole
  | declared | function | key | property
  deriving DecidableEq, Repr

def NameRole.title : NameRole → String
  | declared => "Declared name"
  | function => "Function name"
  | key => "Object key"
  | property => "Property name"

inductive Cause
  | redeclared (name : String)
  | undeclared (name : String)
  | constant (name : String)
  | target (operator : String) (node : Node)
  | notCallable (v : Value)
  | noMeaning (node : Node)
  | unknownOperator (operator : String)
  | notIdentifier (role : NameRole)
  | malformedFunction
  | malformedParam (node : Node)
  | malformedElse
  | malformedEntry (node : Node)
  /-- A native gave back something of this type that is no value. -/
  | notValue (typeName : String)

namespace Cause

def message : Cause → String
  | redeclared name => s!"Cannot declare variable '{name}': it is already defined in this scope"
  | undeclared name => s!"Cannot resolve '{name}': it does not exist"
  | constant name => s!"Cannot reassign to variable '{name}': it was declared constant"
  | target operator node => s!"Invalid left-hand side in '{operator}' assignment: {node.targetName}"
  | notCallable v => s!"Cannot call value that is not a function: {v.render}"
  | noMeaning node => s!"This AST node has no evaluation rule: {node.kindName}"
  | unknownOperator operator => s!"Unknown arithmetic operator {Text.quoted operator}"
  | notIdentifier role => s!"{role.title} must be an identifier"
  | malformedFunction => "Malformed function declaration"
  | malformedParam node => s!"Unsupported parameter node in function declaration: {node.describe}"
  | malformedElse => "Malformed else branch"
  | malformedEntry node => s!"Malformed object literal entry: {node.describe}"
  | notValue typeName => s!"Unexpected value type {typeName}"

end Cause

end Bahasa
