import Bahasa.Text.Blank
import Bahasa.Token.Scan

namespace Bahasa

inductive Group
  | declare | control | constant | native | number | string | comment | identifier | operator
  | error
  deriving DecidableEq, Repr

namespace Group

def style : Group → String
  | declare => "bold ansiblue"
  | control => "bold ansicyan"
  | constant => "ansicyan"
  | native => "ansiyellow"
  | number => "ansimagenta"
  | string => "ansigreen"
  | comment => "italic ansibrightblack"
  | identifier => ""
  | operator => ""
  | error => "bold ansired"

def ofIdent (name : String) : Group :=
  if ["true", "false", "null"].contains name then constant
  else if ["print", "time", "len", "str"].contains name then native
  else identifier

def ofToken (t : Token) : Group :=
  match t.kind with
  | .letWord | .constWord | .fnWord => declare
  | .ifWord | .elifWord | .elseWord | .forWord => control
  | .number => number
  | .string => string
  | .ident => ofIdent t.text
  | _ => operator

end Group

structure Span where
  start : Nat
  stop : Nat
  group : Group
  deriving DecidableEq, Repr

def Span.ofToken (t : Token) : Span :=
  let start := (t.position.column - 1).toNat
  let width := t.text.length + if t.kind = .string then 2 else 0
  ⟨start, start + width, .ofToken t⟩

structure Fragment where
  style : String
  text : String
  deriving DecidableEq, Repr

namespace Highlight

def fragment (style : String) (cs : List Char) : List Fragment :=
  if cs.isEmpty then [] else [⟨style, String.ofList cs⟩]

/-- The spans of the tokens of a line, up to its end or its first flaw. -/
def spans (line : String) : List Span :=
  ((Scan.ofSource line).tokens.filter (·.kind ≠ .endOfInput)).map Span.ofToken

def tail (rest : List Char) : List Fragment :=
  let body := Text.trimLeft rest
  match body with
  | [] => fragment "" rest
  | '#' :: _ => fragment "" (rest.take (rest.length - body.length)) ++
      fragment Group.comment.style body
  | _ => fragment Group.error.style rest

def fragments (cs : List Char) (cursor : Nat) : List Span → List Fragment
  | [] => tail (cs.drop cursor)
  | span :: spans =>
    let gap := if cursor < span.start then
        [⟨"", String.ofList (cs.extract cursor span.start)⟩]
      else []
    gap ++ ⟨span.group.style, String.ofList (cs.extract span.start span.stop)⟩ ::
      fragments cs span.stop spans

/-- A line as fragments; an empty line is one empty fragment. -/
def line (text : String) : List Fragment :=
  match fragments text.toList 0 (spans text) with
  | [] => [⟨"", text⟩]
  | pieces => pieces

def splitLines (text : String) : List String :=
  (text.toList.splitOn '\n').map String.ofList

/-- The fragments of the line with the given number, counted from zero. Behind the last line there
are empty ones. Negative numbers count from the last line backwards, and not beyond the first. -/
def lineAt? (text : String) : Int → Option (List Fragment)
  | .ofNat n => some (((splitLines text)[n]?.map line).getD [⟨"", ""⟩])
  | .negSucc n => (splitLines text).reverse[n]?.map line

end Highlight

end Bahasa
