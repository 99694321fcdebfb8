import Bahasa.Position
import Bahasa.Text.Quoted
import Bahasa.Token.Kind

namespace Bahasa

/-- The text of a string token leaves its quotes out. -/
structure Token where
  kind : Kind
  text : String
  position : Position
  deriving DecidableEq, Repr

namespace Token

def endMark (p : Position) : Token :=
  ⟨.endOfInput, "EndOfFile", p⟩

def describe (t : Token) : String :=
  s!"Tok({t.kind.name}, {Text.quoted t.text}, {t.position.line}:{t.position.column})"

end Token

end Bahasa
