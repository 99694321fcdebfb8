import Bahasa.Proofs.Grammar

namespace Bahasa

namespace Level

def tighter (l : Level) : Level :=
  l.tighter?.getD .primary

def ofSign (sign : String) : Level :=
  if sign ∈ sum.signs then sum else product

end Level

def Label.level : Label → Level
  | assign | plusAssign | minusAssign => .assignment
  | object => .object
  | or => .disjunction
  | and => .conjunction
  | eq | neq => .equality
  | lt | lte | gt | gte => .relation
  | call => .call
  | member | index => .member
  | _ => .primary

def Node.level : Node → Level
  | .tree .binop [_, .leaf _ sign _, _] _ => .ofSign sign
  | .tree label _ _ => label.level
  | _ => .primary

def Label.isStatement : Label → Bool
  | declaration | function | ifElse | forLoop => true
  | _ => false

def Node.isStatement : Node → Bool
  | .tree label _ _ => label.isStatement
  | _ => false

namespace Printing

def word (kind : Kind) (text : String) : Token :=
  ⟨kind, text, ⟨0, 0⟩⟩

/-- A tree and the tokens it is printed as. -/
abbrev Part := Node × List Token

/-- The tokens in parentheses, if the tree is looser than the slot. -/
def slot (l : Level) (part : Part) : List Token :=
  if part.1.level.rank < l.rank then word .lparen "(" :: part.2 ++ [word .rparen ")"] else part.2

def commas : List Part → List Token
  | [] => []
  | part :: parts => part.2 ++ parts.flatMap fun other => word .comma "," :: other.2

/-- Only a statement that is an expression needs a semicolon. -/
def terminated (part : Part) : List Token :=
  if part.1.isStatement then part.2 else part.2 ++ [word .semicolon ";"]

def initial (part : Part) : List Token :=
  if part.1.isAbsent then [] else word .colon ":" :: part.2

def operator : Label → Token
  | .assign => word .assign "="
  | .plusAssign => word .plusAssign "+="
  | .minusAssign => word .minusAssign "-="
  | .or => word .or "||"
  | .and => word .and "&&"
  | .eq => word .eq "=="
  | .neq => word .neq "!="
  | .lt => word .lt "<"
  | .lte => word .lte "<="
  | .gt => word .gt ">"
  | .gte => word .gte ">="
  | _ => word .endOfInput ""

def joined (label : Label) : List Part → List Token
  | [l, r] => slot label.level l ++ operator label :: slot label.level.tighter r
  | _ => []

def arithmetic : List Part → List Token
  | [l, (.leaf _ sign _, _), r] =>
    slot (.ofSign sign) l ++ word .arith sign :: slot (Level.ofSign sign).tighter r
  | _ => []

def assigned (label : Label) : List Part → List Token
  | [target, value] => slot .object target ++ operator label :: value.2
  | _ => []

def called : List Part → List Token
  | [callee, args] => slot .call callee ++ word .lparen "(" :: args.2 ++ [word .rparen ")"]
  | _ => []

def selected : List Part → List Token
  | [receiver, name] => slot .member receiver ++ word .dot "." :: name.2
  | _ => []

def indexed : List Part → List Token
  | [receiver, key] =>
    slot .member receiver ++ word .lbracket "[" :: key.2 ++ [word .rbracket "]"]
  | _ => []

def property : List Part → List Token
  | [key, value] => key.2 ++ initial value
  | _ => []

def declared : List Part → List Token
  | [name, keyword, value] => keyword.2 ++ name.2 ++ initial value ++ [word .semicolon ";"]
  | _ => []

def function : List Part → List Token
  | [name, params, body] =>
    word .fnWord "fungsi" :: name.2 ++ word .lparen "(" :: params.2 ++ word .rparen ")" :: body.2
  | _ => []

def guarded (keyword : Token) : List Part → List Token
  | cond :: parts =>
    keyword :: word .lparen "(" :: cond.2 ++ word .rparen ")" :: parts.flatMap (·.2)
  | _ => []

def loop : List Part → List Token
  | [start, cond, increment, body] =>
    word .forWord "untuk" :: word .lparen "(" :: terminated start ++ cond.2 ++
      word .semicolon ";" :: increment.2 ++ word .rparen ")" :: body.2
  | _ => []

/-- The tokens of a construct, put together from those of its parts. -/
def assemble (label : Label) (parts : List Part) : List Token :=
  match label with
  | .program => parts.flatMap terminated
  | .body => word .lbrace "\x7b" :: parts.flatMap terminated ++ [word .rbrace "\x7d"]
  | .declaration => declared parts
  | .function => function parts
  | .params | .args => commas parts
  | .ifElse => guarded (word .ifWord "jika") parts
  | .elifs => parts.flatMap (·.2)
  | .elifClause => guarded (word .elifWord "lainnyajika") parts
  | .elseClause => word .elseWord "lainnya" :: parts.flatMap (·.2)
  | .forLoop => loop parts
  | .assign | .plusAssign | .minusAssign => assigned label parts
  | .binop => arithmetic parts
  | .call => called parts
  | .object => word .lbrace "\x7b" :: commas parts ++ [word .rbrace "\x7d"]
  | .property => property parts
  | .member => selected parts
  | .index => indexed parts
  | label => joined label parts

def leaf : LeafKind → String → List Token
  | .ident, text => [word .ident text]
  | .number, text => [word .number text]
  | .string, text => [word .string text]
  | .letWord, text => [word .letWord text]
  | .constWord, text => [word .constWord text]
  | _, _ => []

end Printing

namespace Node

mutual

def print : Node → List Token
  | .tree label children _ => Printing.assemble label (parts children)
  | .leaf kind text _ => Printing.leaf kind text
  | _ => []

def parts : List Node → List Printing.Part
  | [] => []
  | n :: ns => (n, print n) :: parts ns

end

theorem parts_eq (ns : List Node) : parts ns = ns.map fun n => (n, n.print) := by
  induction ns with
  | nil => rfl
  | cons n ns ih => rw [parts, ih, List.map_cons]

@[simp] theorem print_tree (label : Label) (children : List Node) (p : Option Place) :
    print (.tree label children p) =
      Printing.assemble label (children.map fun n => (n, n.print)) := by
  rw [print, parts_eq]

@[simp] theorem print_leaf (kind : LeafKind) (text : String) (p : Option Place) :
    print (.leaf kind text p) = Printing.leaf kind text := by
  rw [print]

@[simp] theorem print_absent : print .absent = [] := by
  rw [print]
  all_goals simp

end Node

theorem Printing.commas_print_cons (n : Node) (ns : List Node) :
    commas ((n :: ns).map fun m => (m, m.print)) =
      n.print ++ ns.flatMap fun m => word .comma "," :: m.print := by
  rw [List.map_cons, commas, List.flatMap_map]

end Bahasa
