import Bahasa.Console.Editing
import Bahasa.Session
import Bahasa.Settings

namespace Bahasa

inductive Entry
  | text (s : String)
  | interrupt
  deriving DecidableEq, Repr

structure Printed where
  out : String
  err : String
  deriving DecidableEq, Repr

namespace Printed

def nothing : Printed := ⟨"", ""⟩

def outLine (s : String) : Printed := ⟨s ++ "\n", ""⟩

def errLine (s : String) : Printed := ⟨"", s ++ "\n"⟩

def append (p q : Printed) : Printed :=
  ⟨p.out ++ q.out, p.err ++ q.err⟩

instance : Append Printed := ⟨append⟩

end Printed

def logLines (stamp? : Option String) (log : List Record) : String :=
  match stamp? with
  | none => ""
  | some stamp =>
    "".intercalate (log.map fun r => s!"{stamp} - {r.source} - DEBUG - {r.message}\n")

def Report.printed (stamp? : Option String) (r : Report) : Printed :=
  ⟨r.out, logLines stamp? r.log⟩

def Error.line (e : Error) : String :=
  "Error: " ++ e.message

structure Console where
  session : Session
  settings : Settings

structure Screen where
  clearing : Printed
  /-- How many levels a value may have to be shown. -/
  depth : Nat

def Screen.shows (screen : Screen) (v : Value) : Bool :=
  v.height ≤ screen.depth

structure Console.Config where
  interpreter : Interpreter
  stamp? : Option String
  screen : Screen

inductive Turn
  | stay (printed : Printed) (next : Console)
  | leave
  /-- A value has too many levels to be shown. Nothing catches that, and no more entries are
  read. -/
  | breakOff (printed : Printed) (next : Console)

structure Console.Step where
  printed : Printed
  console : Console

structure Console.Sitting where
  steps : List Step
  brokeOff : Bool

def Console.Sitting.after (first : Step) (rest : Sitting) : Sitting :=
  ⟨first :: rest.steps, rest.brokeOff⟩

namespace Console

def banner : String :=
  "Bahasa Kustom v0.1.0 (Ctrl-D atau 'exit' untuk keluar, / untuk perintah)"

def new (settings : Settings) : Console :=
  ⟨.new, settings⟩

def complain (c : Console) (e : Error) : Printed :=
  .errLine e.line ++ if c.settings.traceEnabled then .errLine "\nPython traceback:" else .nothing

def evaluate (config : Config) (c : Console) (source : String) : Turn :=
  let (report, session) := c.session.run config.interpreter source
  let printed := report.printed config.stamp?
  let next := { c with session }
  match report.result with
  | .ok .null => .stay printed next
  | .ok v =>
    if config.screen.shows v then .stay (printed ++ .outLine v.render) next
    else .breakOff printed next
  | .error e => .stay (printed ++ c.complain e) next

def bindingLine (b : Binding) : String :=
  b.name ++ " = " ++ b.value.render ++ "\n"

def listed? (s : Session) (name : String) : Option (List Binding) :=
  if name.isEmpty then some (s.bindings.mergeSort (fun a b => !(b.name < a.name)))
  else ((s.store.frame? Session.globalId).bind (·.find? name)).map ([·])

def list (screen : Screen) (c : Console) (bindings : List Binding) : Turn :=
  let shown := bindings.takeWhile (screen.shows ·.value)
  let printed := ⟨"".intercalate (shown.map bindingLine), ""⟩
  if shown.length = bindings.length then .stay printed c else .breakOff printed c

def listVariables (screen : Screen) (c : Console) (name : String) : Turn :=
  match listed? c.session name with
  | some bindings => c.list screen bindings
  | none => .stay (.errLine (name ++ " is not defined")) c

/-- The setting that a word asks for; no word asks for the opposite of the present one. -/
def traceChoice? (present : Bool) (word : String) : Option Bool :=
  if ["on", "1", "true", "yes"].contains word then some true
  else if ["off", "0", "false", "no"].contains word then some false
  else if word.isEmpty then some !present
  else none

def setTrace (c : Console) (arg : String) : Turn :=
  match traceChoice? c.settings.traceEnabled (Settings.lower arg) with
  | some enabled =>
    .stay (.outLine ("Python traceback: " ++ if enabled then "on" else "off"))
      { c with settings := c.settings.setTrace enabled }
  | none => .stay (.errLine "Usage: /py-traceback [on|off]") c

def obey (screen : Screen) (c : Console) (arg : String) : Command → Turn
  | .exit => .leave
  | .clear => .stay screen.clearing c
  | .reset => .stay (.outLine "Environment reset.") { c with session := .startAt c.session.ticks }
  | .vars => c.listVariables screen arg
  | .traceback => c.setTrace arg

def respondText (config : Config) (c : Console) (text : String) : Turn :=
  match Request.ofText text with
  | .blank => .stay .nothing c
  | .command command arg => c.obey config.screen arg command
  | .unknown name => .stay (.errLine ("Unknown command: " ++ name)) c
  | .source text => c.evaluate config text

def respond (config : Config) (c : Console) : Entry → Turn
  | .interrupt => .stay (.outLine "KeyboardInterrupt") c
  | .text s => c.respondText config (Editing.normalize s)

/-- The answers to the entries in order, up to the first that leaves or breaks off or to the end of
input. -/
def answers (config : Config) (c : Console) : List Entry → Sitting
  | [] => ⟨[⟨.outLine "", c⟩], false⟩
  | e :: rest =>
    match c.respond config e with
    | .stay printed next => .after ⟨printed, next⟩ (next.answers config rest)
    | .leave => ⟨[⟨.nothing, c⟩], false⟩
    | .breakOff printed next => ⟨[⟨printed, next⟩], true⟩

def run (config : Config) (settings : Settings) (entries : List Entry) : Sitting :=
  let c := new settings
  .after ⟨.outLine banner, c⟩ (c.answers config entries)

end Console

end Bahasa
