import Bahasa.Token.Basic

namespace Bahasa

inductive Enclosure
  | functionBody | ifBody | elifBody | elseBody | forBody | object
  deriving DecidableEq, Repr

def Enclosure.name : Enclosure → String
  | functionBody => "function body"
  | ifBody => "'jika' body"
  | elifBody => "'lainnyajika' body"
  | elseBody => "'lainnya' body"
  | forBody => "'untuk' body"
  | object => "object literal"

/-- What was wrong at a token: what should have stood there, or that nothing fits. -/
inductive Complaint
  | declaredName
  | constantValue (name : String)
  | declarationEnd
  | functionName
  | paramsOpen
  | paramName
  | paramsClose
  | bodyOpen (e : Enclosure)
  | unterminated (e : Enclosure)
  | headOpen (keyword : String)
  | conditionClose (keyword : String)
  | loopConditionEnd
  | loopHeadClose
  | objectKey
  | argsClose
  | memberName
  | indexClose
  | groupClose
  | endOfInput
  | unexpected
  deriving DecidableEq, Repr

namespace Complaint

def message (t : Token) : Complaint → String
  | declaredName => "Expected identifier name after declaration keyword"
  | constantValue name => s!"Constant '{name}' must be given a value"
  | declarationEnd => "Variable declaration must end with ';'"
  | functionName => "Expected function name after 'fungsi'"
  | paramsOpen => "Expected '(' after function name"
  | paramName => "Function parameters must be identifiers"
  | paramsClose => "Expected ')' after parameter list"
  | bodyOpen e => "Expected '\x7b' to open " ++ e.name
  | unterminated e => "Unterminated " ++ e.name ++ ", expected '\x7d'"
  | headOpen keyword => s!"Expected '(' after '{keyword}'"
  | conditionClose keyword => s!"Expected ')' after '{keyword}' condition"
  | loopConditionEnd => "Expected ';' after loop condition"
  | loopHeadClose => "Expected ')' after loop increment"
  | objectKey => "Object literal key expected"
  | argsClose => "Expected ')' after call arguments"
  | memberName => "Expected property name after '.'"
  | indexClose => "Expected ']' after computed member key"
  | groupClose => "Expected ')' to close grouped expression"
  | endOfInput => "Unexpected end of input"
  | unexpected => s!"Unexpected token {Text.quoted t.text} ({t.kind.name})"

end Complaint

inductive ParseError
  | openStream
  /-- The nesting went beyond the limit at this token. -/
  | tooDeep (token : Token)
  | rejected (complaint : Complaint) (token : Token)
  deriving DecidableEq, Repr

namespace ParseError

def message : ParseError → String
  | openStream => "Token stream must end with EOF"
  | tooDeep token => "Expression nesting too deep" ++ token.position.suffix
  | rejected complaint token => complaint.message token ++ token.position.suffix

def token? : ParseError → Option Token
  | openStream => none
  | tooDeep token | rejected _ token => some token

def position? (e : ParseError) : Option Position :=
  e.token?.map (·.position)

end ParseError

end Bahasa
