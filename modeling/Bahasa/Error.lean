import Bahasa.Eval.World
import Bahasa.Parser.Complaint
import Bahasa.Token.Scan

namespace Bahasa

def Place.suffix (p : Place) : String :=
  match p.column with
  | some column => s!" (line {p.line}, col {column})"
  | none => s!" (line {p.line})"

def Failure.message : Failure → String
  | .error cause none => cause.message
  | .error cause (some place) => cause.message ++ place.suffix
  | .tooDeep => "Maximum evaluation depth exceeded"
  | .unfinished => "A loop did not come to an end"
  | .stuck => "A node of the tree has children that do not fit it"

inductive Error
  | lex (e : LexError)
  | parse (e : ParseError)
  | run (f : Failure)

def Error.message : Error → String
  | lex e => e.message
  | parse e => e.message
  | run f => f.message

end Bahasa
