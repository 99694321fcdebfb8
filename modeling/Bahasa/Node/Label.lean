namespace Bahasa

inductive Label
  | program | body
  | declaration | function | params
  | ifElse | elifs | elifClause | elseClause | forLoop
  | assign | plusAssign | minusAssign
  | binop
  | gt | gte | lt | lte | eq | neq
  | and | or
  | call | args
  | object | property | member | index
  | other (name : String)
  deriving DecidableEq, Repr

namespace Label

/-- The labels with a meaning of their own. -/
def known : List Label :=
  [program, body, declaration, function, params, ifElse, elifs, elifClause, elseClause, forLoop,
    assign, plusAssign, minusAssign, binop, gt, gte, lt, lte, eq, neq, and, or, call, args, object,
    property, member, index]

def name : Label → String
  | program => "program"
  | body => "body"
  | declaration => "vardecl"
  | function => "fndecl"
  | params => "params"
  | ifElse => "ifstmt"
  | elifs => "elifs"
  | elifClause => "elifstmt"
  | elseClause => "elsestmt"
  | forLoop => "forstmt"
  | assign => "assign"
  | plusAssign => "plusassign"
  | minusAssign => "minusassign"
  | binop => "binop"
  | gt => "gt"
  | gte => "gte"
  | lt => "lt"
  | lte => "lte"
  | eq => "eq"
  | neq => "neq"
  | and => "and"
  | or => "or"
  | call => "call"
  | args => "args"
  | object => "object"
  | property => "property"
  | member => "member"
  | index => "index"
  | other name => name

def ofName (s : String) : Label :=
  (known.find? (·.name == s)).getD (other s)

end Label

inductive LeafKind
  | ident | number | string | operator | letWord | constWord
  | other (name : String)
  deriving DecidableEq, Repr

namespace LeafKind

def known : List LeafKind :=
  [ident, number, string, operator, letWord, constWord]

def name : LeafKind → String
  | ident => "IDENT"
  | number => "NUMBER"
  | string => "STRING"
  | operator => "OP"
  | letWord => "LET"
  | constWord => "CONST"
  | other name => name

def ofName (s : String) : LeafKind :=
  (known.find? (·.name == s)).getD (other s)

end LeafKind

end Bahasa
