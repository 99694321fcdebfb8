import Bahasa.Text.Blank

namespace Bahasa

structure Settings where
  trace? : Option String
  logLevel? : Option String
  deriving DecidableEq, Repr

abbrev LogLevel := Nat

namespace LogLevel

def warning : LogLevel := 30
def debug : LogLevel := 10

def ofName? : String → Option LogLevel
  | "CRITICAL" | "FATAL" => some 50
  | "ERROR" => some 40
  | "WARN" | "WARNING" => some warning
  | "INFO" => some 20
  | "DEBUG" => some debug
  | "NOTSET" => some 0
  | _ => none

end LogLevel

namespace Settings

def traceVariable : String := "KUSTOM_DEBUG_PY_TRACE"
def logLevelVariable : String := "KUSTOM_LOG_LEVEL"

def ofVariables (env : List (String × String)) : Settings :=
  ⟨env.lookup traceVariable, env.lookup logLevelVariable⟩

def lower (s : String) : String :=
  String.ofList (s.toList.map Char.toLower)

/-- Capital letters; the dotless i and the long s have Latin capitals too. -/
def upperChar (c : Char) : Char :=
  if c == 'ı' then 'I' else if c == 'ſ' then 'S' else c.toUpper

def upper (s : String) : String :=
  String.ofList (s.toList.map upperChar)

def traceEnabled (s : Settings) : Bool :=
  ["1", "true", "yes", "on"].contains (lower (Text.trim (s.trace?.getD "")))

def setTrace (s : Settings) (enabled : Bool) : Settings :=
  { s with trace? := if enabled then some "1" else none }

/-- The level that is asked for by name; a name that is not known asks for warnings. -/
def logLevel (s : Settings) (preset : String) : LogLevel :=
  (LogLevel.ofName? (upper (Text.trim (s.logLevel?.getD preset)))).getD .warning

end Settings

end Bahasa
