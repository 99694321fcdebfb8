import Bahasa.Eval.World

namespace Bahasa

inductive Reply
  | value (v : Value)
  | nothing
  /-- Something of the host that is no value, by the name of its type. -/
  | foreign (typeName : String)

abbrev Host := String → List Value → FrameId → Run Reply

namespace Reply

/-- No reply stands for null; what is no value is an error. -/
def toValue : Reply → Run Value
  | value v => pure v
  | nothing => pure .null
  | foreign typeName => Run.raise (.notValue typeName)

end Reply

namespace Native

def names : List String := ["print", "time", "len", "str"]

def print (args : List Value) : Run Reply := do
  Run.emit (" ".intercalate (args.map Value.toText) ++ "\n")
  return .value .null

/-- Whole milliseconds, of a clock that counts nanoseconds. -/
def time (clock : Nat → Int) : Run Reply := do
  let reading := clock (← Run.tick)
  return .value (.number (Decimal.ofInt (reading.fdiv 1000000)))

def len : List Value → Value
  | .string s :: _ => .number (Float.ofNat s.length)
  | .object slots :: _ => .number (Float.ofNat slots.length)
  | _ => .null

def str : List Value → Value
  | [] => .string ""
  | v :: _ => .string v.toText

def standard (clock : Nat → Int) : Host := fun name args _ =>
  match name with
  | "print" => print args
  | "time" => time clock
  | "len" => return .value (len args)
  | "str" => return .value (str args)
  | _ => throw .stuck

end Native

end Bahasa
