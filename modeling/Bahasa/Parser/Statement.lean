import Bahasa.Parser.Expression

namespace Bahasa.Parser

def declaration (expression : Parser Node) : Parser Node := do
  let keyword ← next
  let name ← expect .ident .declaredName
  let kind := if keyword.kind = .constWord then LeafKind.constWord else .letWord
  let value ←
    if ← accept .colon then expression
    else if kind = .constWord then reject (.constantValue name.text)
    else pure .absent
  let _ ← expect .semicolon .declarationEnd
  return .build .declaration [.ofToken .ident name, .ofToken kind keyword, value] keyword

def block (enclosure : Enclosure) (statement : Parser Node) : Parser Node := do
  let brace ← expect .lbrace (.bodyOpen enclosure)
  return .build .body (← bracedItems enclosure statement) brace

def function (statement : Parser Node) : Parser Node := do
  let keyword ← next
  let name ← expect .ident .functionName
  let paren ← expect .lparen .paramsOpen
  let params ← commaListUntil .rparen .paramsClose (expect .ident .paramName)
  let body ← block .functionBody statement
  return .build .function
    [.ofToken .ident name, .build .params (params.map (.ofToken .ident)) paren, body] keyword

def condition (keyword : String) (expression : Parser Node) : Parser Node := do
  let _ ← expect .lparen (.headOpen keyword)
  let cond ← expression
  let _ ← expect .rparen (.conditionClose keyword)
  return cond

structure Clause where
  keyword : Token
  cond : Node
  body : Node

def Clause.node (otherwise : Node) (c : Clause) : Node :=
  .build .elifClause [c.cond, c.body, otherwise] c.keyword

/-- The clauses in order; the last of them owns the final branch. -/
def clauseNodes (otherwise : Node) : List Clause → List Node
  | [] => []
  | [c] => [c.node otherwise]
  | c :: rest => c.node .absent :: clauseNodes otherwise rest

/-- With further clauses the final branch is theirs, otherwise it belongs to the statement. -/
def ifNode (keyword : Token) (cond body : Node) (clauses : List Clause) (otherwise : Node) : Node :=
  match clauses with
  | [] => .build .ifElse [cond, body, .absent, otherwise] keyword
  | first :: _ =>
    .build .ifElse
      [cond, body, .build .elifs (clauseNodes otherwise clauses) first.keyword, .absent] keyword

def elifClause (expression statement : Parser Node) : Parser Clause := do
  let keyword ← next
  let cond ← condition "lainnyajika" expression
  let body ← block .elifBody statement
  return ⟨keyword, cond, body⟩

def elifClauses (expression statement : Parser Node) : Parser (List Clause) := do
  let clauses ← foldWhile (fun clauses => do
    if (← peek).kind = .elifWord then
      return some ((← elifClause expression statement) :: clauses)
    else return none) []
  return clauses.reverse

def elseClause (statement : Parser Node) : Parser Node := do
  if (← peek).kind = .elseWord then
    let keyword ← next
    return .build .elseClause [← block .elseBody statement] keyword
  else return .absent

def ifElse (expression statement : Parser Node) : Parser Node := do
  let keyword ← next
  let cond ← condition "jika" expression
  let body ← block .ifBody statement
  let clauses ← elifClauses expression statement
  let otherwise ← elseClause statement
  return ifNode keyword cond body clauses otherwise

/-- What a loop starts with: a declaration, or an expression whose semicolon may be left out. -/
def loopStart (expression : Parser Node) : Parser Node := do
  match (← peek).kind with
  | .letWord | .constWord => declaration expression
  | _ =>
    let start ← expression
    let _ ← accept .semicolon
    return start

def forLoop (expression statement : Parser Node) : Parser Node := do
  let keyword ← next
  let _ ← expect .lparen (.headOpen "untuk")
  let start ← loopStart expression
  let cond ← expression
  let _ ← expect .semicolon .loopConditionEnd
  let increment ← expression
  let _ ← expect .rparen .loopHeadClose
  let body ← block .forBody statement
  return .build .forLoop [start, cond, increment, body] keyword

def statementWith (expression statement : Parser Node) : Parser Node := do
  match (← peek).kind with
  | .letWord | .constWord => declaration expression
  | .fnWord => function statement
  | .ifWord => ifElse expression statement
  | .forWord => forLoop expression statement
  | _ =>
    let value ← expression
    let _ ← accept .semicolon
    return value

def statement : Nat → Parser Node
  | 0 => tooDeep
  | depth + 1 => statementWith (expression depth) (statement depth)

def program (depth : Nat) : Parser Node := do
  let first ← peek
  let statements ← foldWhile (fun statements => do
    if (← peek).kind = .endOfInput then return none
    else return some ((← statement depth) :: statements)) []
  return .build .program statements.reverse first

/-- Statements and expressions together may be nested this deep. -/
def nestingLimit : Nat := 2000

/-- The program that a stream of tokens spells. The stream has to end with an end mark, and nothing
after the first one is looked at. -/
def parseTokens (depth : Nat) (tokens : List Token) : Except ParseError Node :=
  match tokens.getLast? with
  | some ⟨.endOfInput, _, _⟩ =>
    match tokens.dropWhile (·.kind ≠ .endOfInput) with
    | stop :: _ => (program depth stop (tokens.takeWhile (·.kind ≠ .endOfInput))).map (·.1)
    | [] => .error .openStream
  | _ => .error .openStream

end Bahasa.Parser
