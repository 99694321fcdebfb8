import Bahasa.Node.Label
import Bahasa.Token.Basic

namespace Bahasa

/-- Where a node stands; a node made by hand may know its line only. -/
structure Place where
  line : Int
  column : Option Int
  deriving DecidableEq, Repr

def Position.place (p : Position) : Place :=
  ⟨p.line, some p.column⟩

inductive Datum
  | nothing
  | integer (n : Int)
  | real (x : Float)
  | truth (b : Bool)
  | text (s : String)
  | list (items : List Datum)
  | record (fields : List (String × Datum))
  deriving Inhabited

inductive Node
  | tree (label : Label) (children : List Node) (place? : Option Place)
  | leaf (kind : LeafKind) (text : String) (place? : Option Place)
  | absent
  | datum (d : Datum)
  deriving Inhabited

namespace Node

def build (label : Label) (children : List Node) (origin : Token) : Node :=
  .tree label children (some origin.position.place)

def ofToken (kind : LeafKind) (origin : Token) : Node :=
  .leaf kind origin.text (some origin.position.place)

def place? : Node → Option Place
  | .tree _ _ place => place
  | .leaf _ _ place => place
  | .absent => none
  | .datum _ => none

def children : Node → List Node
  | .tree _ children _ => children
  | _ => []

def label? : Node → Option Label
  | .tree label _ _ => some label
  | _ => none

def ident? : Node → Option String
  | .leaf .ident text _ => some text
  | _ => none

def isAbsent : Node → Bool
  | .absent => true
  | _ => false

end Node

end Bahasa
