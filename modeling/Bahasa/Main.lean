import Bahasa.CommandLine
import Std.Time.DateTime.Timestamp

namespace Bahasa.Terminal

def now : IO Int := do
  return (← Std.Time.Timestamp.now).toNanosecondsSinceUnixEpoch.val

/-- All readings of a run are taken when it starts. -/
def interpreter : IO Interpreter := do
  let reading ← now
  return .standard fun _ => reading

def settings : IO Settings := do
  return ⟨← IO.getEnv Settings.traceVariable, ← IO.getEnv Settings.logLevelVariable⟩

def readFile? (path : String) : IO (Option String) := do
  try return some (← IO.FS.readFile path)
  catch _ => return none

partial def readRest (done : String) : IO String := do
  let line ← (← IO.getStdin).getLine
  if line.isEmpty then return done else readRest (done ++ line)

def print (p : Printed) : IO Unit := do
  IO.print p.out
  IO.eprint p.err

partial def readEntry (typed prompt : String) : IO (Option String) := do
  IO.print prompt
  (← IO.getStdout).flush
  let line ← (← IO.getStdin).getLine
  if line.isEmpty then return if typed.isEmpty then none else some typed
  let text := typed ++ (line.dropEndWhile (· == '\n')).toString
  match Editing.enter text with
  | .submit => return some text
  | .insert _ => readEntry (text ++ "\n") "... "

/-- A terminal is cleared by control sequences: the cursor goes home, and all is erased. -/
def screen : Screen :=
  ⟨⟨"\x1b[H\x1b[2J", ""⟩, 200⟩

partial def converse (stamp? : Option String) (c : Console) : IO UInt32 := do
  match ← readEntry "" "$ " with
  | none =>
    IO.println ""
    return 0
  | some text =>
    match c.respond ⟨← interpreter, stamp?, screen⟩ (.text text) with
    | .leave => return 0
    | .stay printed next =>
      print printed
      converse stamp? next
    | .breakOff printed _ =>
      print (printed ++ .errLine "the value is nested too deep to be shown")
      return 1

def surroundings (settings : Settings) (arg : String) : IO Surroundings := do
  let stdin ← if arg = "-" then readRest "" else pure ""
  let content? ← readFile? arg
  return ⟨fun path => if path = arg then content? else none, stdin, settings, [], screen⟩

end Bahasa.Terminal

open Bahasa in
def main (args : List String) : IO UInt32 := do
  let interpreter ← Terminal.interpreter
  let settings ← Terminal.settings
  let stamp := toString (← Terminal.now)
  match Invocation.ofArgs args with
  | .ok ⟨verbose, none⟩ =>
    let shown := CommandLine.showsLog ⟨verbose, none⟩ settings
    Terminal.print (.outLine Console.banner)
    Terminal.converse (if shown then some stamp else none) (.new settings)
  | .ok ⟨_, some arg⟩ =>
    let outcome :=
      CommandLine.run interpreter stamp (← Terminal.surroundings settings arg) args
    Terminal.print outcome.printed
    return UInt32.ofNat (outcome.code?.getD 1)
  | .error _ =>
    let around : Surroundings := ⟨fun _ => none, "", settings, [], Terminal.screen⟩
    let outcome := CommandLine.run interpreter stamp around args
    Terminal.print outcome.printed
    return UInt32.ofNat (outcome.code?.getD 1)
