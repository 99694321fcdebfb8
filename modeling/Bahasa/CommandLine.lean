import Bahasa.Console.Loop

namespace Bahasa

structure Invocation where
  verbose : Bool
  source? : Option String
  deriving DecidableEq, Repr

namespace Invocation

/-- Reads the arguments on from what is known already; a second source is an error. -/
def extend (known : Invocation) : List String → Except String Invocation
  | [] => .ok known
  | arg :: rest =>
    if arg = "-v" ∨ arg = "--verbose" then extend { known with verbose := true } rest
    else match known.source? with
      | none => extend { known with source? := some arg } rest
      | some _ => .error arg

def ofArgs (args : List String) : Except String Invocation :=
  extend ⟨false, none⟩ args

end Invocation

structure Surroundings where
  file? : String → Option String
  stdin : String
  settings : Settings
  entries : List Entry
  screen : Screen

namespace Surroundings

/-- Both other ends of a line become a line feed, after the text `done`, last character first. -/
def unifyLineEnds (done : List Char) : List Char → List Char
  | [] => done.reverse
  | '\r' :: '\n' :: rest => unifyLineEnds ('\n' :: done) rest
  | '\r' :: rest => unifyLineEnds ('\n' :: done) rest
  | c :: rest => unifyLineEnds (c :: done) rest

def asText (content : String) : String :=
  String.ofList (unifyLineEnds [] content.toList)

def load (s : Surroundings) (arg : String) : String × Surroundings :=
  if arg = "-" then (asText s.stdin, { s with stdin := "" })
  else (((s.file? arg).map asText).getD arg, s)

end Surroundings

structure Outcome where
  /-- The exit code; a console that breaks off gives none. -/
  code? : Option Nat
  printed : Printed
  sitting? : Option Console.Sitting
  after : Surroundings

namespace CommandLine

def showsLog (invocation : Invocation) (settings : Settings) : Bool :=
  (if invocation.verbose then LogLevel.debug else settings.logLevel "WARNING") = LogLevel.debug

def sit (config : Console.Config) (s : Surroundings) : Outcome :=
  let sitting := Console.run config s.settings s.entries
  let settings := (sitting.steps.getLast?.map (·.console.settings)).getD s.settings
  let code? := if sitting.brokeOff then none else some 0
  ⟨code?, .nothing, some sitting, { s with settings, entries := [] }⟩

def execute (config : Console.Config) (s : Surroundings) (source : String) : Outcome :=
  let (report, _) := Session.new.run config.interpreter source
  let printed := report.printed config.stamp?
  match report.result with
  | .ok _ => ⟨some 0, printed, none, s⟩
  | .error e => ⟨some 1, printed ++ .errLine e.line, none, s⟩

def run (interpreter : Interpreter) (stamp : String) (s : Surroundings) (args : List String) :
    Outcome :=
  match Invocation.ofArgs args with
  | .error arg => ⟨some 2, .errLine ("Unexpected argument: " ++ arg), none, s⟩
  | .ok invocation =>
    let stamp? := if showsLog invocation s.settings then some stamp else none
    let config := ⟨interpreter, stamp?, s.screen⟩
    match invocation.source? with
    | none => sit config s
    | some arg =>
      let (source, s) := s.load arg
      execute config s source

end CommandLine

end Bahasa
