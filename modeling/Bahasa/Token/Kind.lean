namespace Bahasa

inductive Kind
  | number | string | ident
  | letWord | constWord | fnWord | ifWord | elifWord | elseWord | forWord
  | arith
  | eq | neq | lt | lte | gt | gte
  | and | or
  | assign | plusAssign | minusAssign
  | lparen | rparen | lbrace | rbrace | lbracket | rbracket
  | comma | dot | colon | semicolon
  | endOfInput
  deriving DecidableEq, Repr

namespace Kind

def all : List Kind :=
  [number, string, ident, letWord, constWord, fnWord, ifWord, elifWord, elseWord, forWord, arith,
    eq, neq, lt, lte, gt, gte, and, or, assign, plusAssign, minusAssign, lparen, rparen, lbrace,
    rbrace, lbracket, rbracket, comma, dot, colon, semicolon, endOfInput]

def name : Kind → String
  | number => "NUMBER"
  | string => "STRING"
  | ident => "IDENT"
  | letWord => "LET"
  | constWord => "CONST"
  | fnWord => "FN"
  | ifWord => "IF"
  | elifWord => "ELIF"
  | elseWord => "ELSE"
  | forWord => "FOR"
  | arith => "BINOP"
  | eq => "EQ"
  | neq => "NEQ"
  | lt => "LT"
  | lte => "LTE"
  | gt => "GT"
  | gte => "GTE"
  | and => "AND"
  | or => "OR"
  | assign => "ASSIGN"
  | plusAssign => "PLUSEQ"
  | minusAssign => "MINUSEQ"
  | lparen => "LPAR"
  | rparen => "RPAR"
  | lbrace => "LBRACE"
  | rbrace => "RBRACE"
  | lbracket => "LSQB"
  | rbracket => "RSQB"
  | comma => "COMMA"
  | dot => "DOT"
  | colon => "COLON"
  | semicolon => "SEMI"
  | endOfInput => "EOF"

def ofName? (s : String) : Option Kind :=
  all.find? (·.name == s)

def ofWord (word : String) : Kind :=
  match word with
  | "tetapkan" => letWord
  | "konstan" => constWord
  | "fungsi" => fnWord
  | "jika" => ifWord
  | "lainnyajika" => elifWord
  | "lainnya" => elseWord
  | "untuk" => forWord
  | _ => ident

def ofPair? (a b : Char) : Option Kind :=
  match a, b with
  | '=', '=' => some eq
  | '!', '=' => some neq
  | '<', '=' => some lte
  | '>', '=' => some gte
  | '&', '&' => some and
  | '|', '|' => some or
  | '+', '=' => some plusAssign
  | '-', '=' => some minusAssign
  | _, _ => none

def ofChar? (c : Char) : Option Kind :=
  match c with
  | '+' | '-' | '*' | '/' | '%' => some arith
  | '<' => some lt
  | '>' => some gt
  | '=' => some assign
  | '(' => some lparen
  | ')' => some rparen
  | '{' => some lbrace
  | '}' => some rbrace
  | '[' => some lbracket
  | ']' => some rbracket
  | ',' => some comma
  | '.' => some dot
  | ':' => some colon
  | ';' => some semicolon
  | _ => none

end Kind

end Bahasa
