import Bahasa.Console.Command
import Bahasa.Token.Scan

namespace Bahasa.Editing

def isInvisible (c : Char) : Bool :=
  c == '\u200b' || c == '\u200c' || c == '\u200d' || c == '\ufeff' || c == '\u00a0' || c == '\r'

def normalize (text : String) : String :=
  String.ofList (text.toList.filter (fun c => !isInvisible c))

/-- The brackets left open after one more token. A closing bracket with nothing open is passed
over. -/
def bracketStep (depth : Nat) (t : Token) : Nat :=
  match t.kind with
  | .lparen | .lbrace | .lbracket => depth + 1
  | .rparen | .rbrace | .rbracket => depth - 1
  | _ => depth

def openDepth (text : String) : Nat :=
  (Scan.ofSource text).tokens.foldl bracketStep 0

inductive KeyAction
  | submit
  | insert (text : String)
  deriving DecidableEq, Repr

def enter (text : String) : KeyAction :=
  match openDepth text with
  | 0 => .submit
  | depth + 1 => .insert (String.ofList ('\n' :: List.replicate (4 * (depth + 1)) ' '))

structure Completion where
  text : String
  replaced : Nat
  description : String
  deriving DecidableEq, Repr

/-- The commands that start with what was typed, as long as that is a lone word with a slash. -/
def complete (typed : String) : List Completion :=
  if typed.startsWith "/" && !typed.toList.contains ' ' then
    (Command.all.filter (·.name.startsWith typed)).map
      (fun c => ⟨c.name, typed.length, c.description⟩)
  else []

end Bahasa.Editing
