import Bahasa.Text.Blank

namespace Bahasa

inductive Command
  | clear | exit | traceback | reset | vars
  deriving DecidableEq, Repr

namespace Command

def all : List Command := [clear, exit, traceback, reset, vars]

def name : Command → String
  | clear => "/clear"
  | exit => "/exit"
  | traceback => "/py-traceback"
  | reset => "/reset"
  | vars => "/vars"

def description : Command → String
  | clear => "Clear the terminal screen"
  | exit => "Leave the REPL"
  | traceback => "Toggle Python traceback on errors [on|off]"
  | reset => "Forget every binding made in this session"
  | vars => "List the bindings made in this session [name]"

def ofName? (s : String) : Option Command :=
  all.find? (·.name == s)

/-- The words that stand for a command without a slash. -/
def ofBareWord? : String → Option Command
  | "exit" => some exit
  | "clear" => some clear
  | _ => none

end Command

inductive Request
  | blank
  | command (c : Command) (arg : String)
  | unknown (name : String)
  | source (text : String)
  deriving DecidableEq, Repr

namespace Request

def ofText (text : String) : Request :=
  let stripped := Text.trim text
  let (name, arg) := Text.cutAtSpace stripped
  if stripped.isEmpty then blank
  else match Command.ofBareWord? stripped with
    | some c => command c (Text.trim arg)
    | none =>
      if name.startsWith "/" then
        match Command.ofName? name with
        | some c => command c (Text.trim arg)
        | none => unknown name
      else source text

end Request

end Bahasa
