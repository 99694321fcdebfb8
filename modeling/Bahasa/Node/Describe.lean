import Bahasa.Decimal.Writing
import Bahasa.Node.Basic

namespace Bahasa

namespace Datum

def typeName : Datum → String
  | nothing => "NoneType"
  | integer _ => "int"
  | real _ => "float"
  | truth _ => "bool"
  | text _ => "str"
  | list _ => "list"
  | record _ => "dict"

mutual

def describe : Datum → String
  | nothing => "None"
  | integer n => toString n
  | real x => Decimal.writeWith Decimal.pointed x
  | truth b => if b then "True" else "False"
  | text s => Text.quoted s
  | list items => "[" ++ ", ".intercalate (describeItems items) ++ "]"
  | record fields => "\x7b" ++ ", ".intercalate (describeFields fields) ++ "\x7d"

def describeItems : List Datum → List String
  | [] => []
  | d :: rest => d.describe :: describeItems rest

def describeFields : List (String × Datum) → List String
  | [] => []
  | (key, d) :: rest => (Text.quoted key ++ ": " ++ d.describe) :: describeFields rest

end

end Datum

namespace Node

mutual

/-- The whole node, for messages about trees that were put together by hand. -/
def describe : Node → String
  | tree label children _ =>
    "Tree(" ++ Text.quoted label.name ++ ", [" ++ ", ".intercalate (describeAll children) ++ "])"
  | leaf kind text _ => "Token(" ++ Text.quoted kind.name ++ ", " ++ Text.quoted text ++ ")"
  | absent => "None"
  | datum d => d.describe

def describeAll : List Node → List String
  | [] => []
  | n :: rest => n.describe :: describeAll rest

end

def kindName : Node → String
  | tree label _ _ => label.name
  | leaf kind _ _ => "token " ++ kind.name
  | absent => "NoneType"
  | datum d => d.typeName

def targetName : Node → String
  | tree label _ _ => if label.name = "" then "Tree" else label.name
  | leaf _ _ _ => "Token"
  | absent => "NoneType"
  | datum d => d.typeName

end Node

end Bahasa
