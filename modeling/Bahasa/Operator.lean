import Bahasa.Decimal.Binary
import Bahasa.Node.Label
import Bahasa.Value

namespace Bahasa

inductive Arith
  | add | sub | mul | div | mod
  deriving DecidableEq, Repr

namespace Arith

def ofSign? : String → Option Arith
  | "+" => some add
  | "-" => some sub
  | "*" => some mul
  | "/" => some div
  | "%" => some mod
  | _ => none

/-- Double-precision arithmetic; the remainder has the sign of the dividend. -/
def onNumbers : Arith → Float → Float → Float
  | add, a, b => a + b
  | sub, a, b => a - b
  | mul, a, b => a * b
  | div, a, b => a / b
  | mod, a, b => Decimal.remainder a b

def apply (op : Arith) : Value → Value → Value
  | .number a, .number b => .number (op.onNumbers a b)
  | _, _ => .null

end Arith

def Label.comparison? : Label → Option (Float → Float → Bool)
  | .gt => some (fun a b => decide (a > b))
  | .gte => some (fun a b => decide (a ≥ b))
  | .lt => some (fun a b => decide (a < b))
  | .lte => some (fun a b => decide (a ≤ b))
  | .eq => some (fun a b => a == b)
  | .neq => some (fun a b => a != b)
  | _ => none

def Label.connective? : Label → Option (Bool → Bool → Bool)
  | .and => some (· && ·)
  | .or => some (· || ·)
  | _ => none

def compareValues (test : Float → Float → Bool) : Value → Value → Value
  | .number a, .number b => .bool (test a b)
  | _, _ => .null

def joinValues (join : Bool → Bool → Bool) : Value → Value → Value
  | .bool a, .bool b => .bool (join a b)
  | _, _ => .null

end Bahasa
