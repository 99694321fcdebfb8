import Bahasa.Error
import Bahasa.Eval.Basic
import Bahasa.Parser.Statement

namespace Bahasa

structure Interpreter where
  machine : Machine
  nesting : Nat
  depth : Nat

namespace Interpreter

/-- No loop of a program that ends in reasonable time takes more turns. -/
def turnLimit : Nat := 1000000000000

def ofHost (host : Host) : Interpreter :=
  ⟨⟨host, turnLimit⟩, Parser.nestingLimit, Eval.depthLimit⟩

def standard (clock : Nat → Int) : Interpreter :=
  ofHost (Native.standard clock)

def parse (i : Interpreter) (source : String) : Except Error Node :=
  match tokenize source with
  | .error e => .error (.lex e)
  | .ok tokens =>
    match Parser.parseTokens i.nesting tokens with
    | .error e => .error (.parse e)
    | .ok tree => .ok tree

def eval (i : Interpreter) (tree : Node) (frame : FrameId) : Run Value :=
  Eval.node i.machine i.depth tree frame

end Interpreter

def builtins : List Binding :=
  [⟨"true", .bool true, true⟩, ⟨"false", .bool false, true⟩, ⟨"null", .null, true⟩] ++
    Native.names.map (fun name => ⟨name, .native name, true⟩)

def builtinNames : List String :=
  builtins.map (·.name)

def Frame.global : Frame :=
  ⟨none, builtins⟩

structure Session where
  store : Store
  /-- How many source texts have been run since the start or the last reset. -/
  runs : Nat
  ticks : Nat

structure Report where
  result : Except Error Value
  out : String
  log : List Record

namespace Session

def globalId : FrameId := 0

/-- A session without a past, but for the clock. -/
def startAt (ticks : Nat) : Session :=
  ⟨⟨#[.global]⟩, 0, ticks⟩

def new : Session :=
  startAt 0

def bindings (s : Session) : List Binding :=
  ((s.store.frame? globalId).map (·.bindings)).getD [] |>.filter
    (fun b => !builtinNames.contains b.name)

def runTree (i : Interpreter) (s : Session) (tree : Node) : Report × Session :=
  let runs := s.runs + 1
  match i.eval tree globalId ⟨s.store, "", [.run runs tree.children.length], s.ticks⟩ with
  | .ok v w => (⟨.ok v, w.out, w.log.reverse⟩, ⟨w.store, runs, w.ticks⟩)
  | .error f w => (⟨.error (.run f), w.out, w.log.reverse⟩, ⟨w.store, runs, w.ticks⟩)

/-- Runs a source text. One that cannot be read changes nothing and is not counted. -/
def run (i : Interpreter) (s : Session) (source : String) : Report × Session :=
  match i.parse source with
  | .error e => (⟨.error e, "", []⟩, s)
  | .ok tree => s.runTree i tree

inductive Step
  | run (source : String)
  | parse (source : String)
  | reset

inductive Answer
  | ran (report : Report)
  | parsed (tree : Except Error Node)
  | forgotten

/-- Reading a source text changes nothing; a reset starts over, but does not turn back the clock. -/
def perform (i : Interpreter) (s : Session) : Step → Answer × Session
  | .run source =>
    let (report, next) := s.run i source
    (.ran report, next)
  | .parse source => (.parsed (i.parse source), s)
  | .reset => (.forgotten, .startAt s.ticks)

end Session

end Bahasa
