import Bahasa.Token.Basic
import Bahasa.Token.Lexeme

namespace Bahasa

def isSpacing (c : Char) : Bool :=
  c == ' ' || c == '\t' || c == '\r' || c == '\n'

structure LexError where
  flaw : Flaw
  position : Position
  deriving DecidableEq, Repr

def Flaw.message : Flaw → String
  | .unterminated => "Unterminated string literal"
  | .unrecognized c =>
    s!"Unrecognized character {Text.quoted (String.ofList [c])} (code {c.toNat})"

def LexError.message (e : LexError) : String :=
  e.flaw.message ++ e.position.suffix

structure Scan where
  tokens : List Token
  error? : Option LexError
  deriving DecidableEq, Repr

namespace Scan

/-- The scan of a text that starts at position `p`, after the tokens `done`, last one first. -/
def resume (done : List Token) (p : Position) (cs : List Char) : Scan :=
  match cs with
  | [] => ⟨(Token.endMark p :: done).reverse, none⟩
  | c :: rest =>
    if isSpacing c then resume done (p.step c) rest
    else if c = '#' then
      resume done (p.past (cs.takeWhile (· ≠ '\n'))) (rest.dropWhile (· ≠ '\n'))
    else
      match _h : Lexeme.read c rest with
      | .error flaw => ⟨done.reverse, some ⟨flaw, p⟩⟩
      | .ok (lexeme, tail) =>
        resume (⟨lexeme.kind, String.ofList lexeme.body, p⟩ :: done) (p.past lexeme.spelling) tail
termination_by cs.length
decreasing_by
  · simp
  · have hl := (List.dropWhile_suffix (l := rest) (· ≠ '\n')).length_le
    simp only [List.length_cons]
    omega
  · have hl := Lexeme.read_length _h
    simp only [List.length_cons]
    omega

def ofSource (source : String) : Scan :=
  resume [] .start source.toList

end Scan

def tokenize (source : String) : Except LexError (List Token) :=
  let scan := Scan.ofSource source
  match scan.error? with
  | none => .ok scan.tokens
  | some e => .error e

end Bahasa
