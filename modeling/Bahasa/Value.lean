import Bahasa.Decimal.Writing
import Bahasa.Node.Basic

namespace Bahasa

/-- Frames are numbered in the order in which they were made. -/
abbrev FrameId := Nat

inductive Value
  | null
  | number (x : Float)
  | string (s : String)
  | bool (b : Bool)
  /-- The slots stand in the order in which their keys first appeared. -/
  | object (slots : List (String × Value))
  /-- A function remembers the frame in which it was declared. -/
  | function (name : String) (params : List String) (body : List Node) (frame : FrameId)
  | native (name : String)
  deriving Inhabited

namespace Value

mutual

def render : Value → String
  | null => "null"
  | number x => Decimal.write x
  | string s => "\"" ++ s ++ "\""
  | bool b => if b then "true" else "false"
  | object [] => "\x7b\x7d"
  | object (slot :: slots) =>
    "\x7b " ++ ", ".intercalate (renderSlots (slot :: slots)) ++ " \x7d"
  | function name params _ _ => "<fungsi " ++ name ++ "(" ++ ", ".intercalate params ++ ")>"
  | native name => "<native " ++ name ++ ">"

def renderSlots : List (String × Value) → List String
  | [] => []
  | (key, v) :: rest => (key ++ ": " ++ v.render) :: renderSlots rest

end

mutual

def height : Value → Nat
  | object slots => slotsHeight slots + 1
  | _ => 1

def slotsHeight : List (String × Value) → Nat
  | [] => 0
  | (_, v) :: rest => max v.height (slotsHeight rest)

end

def toText : Value → String
  | string s => s
  | v => v.render

def isTruthy : Value → Bool
  | null => false
  | number x => x != 0 && !x.isNaN
  | string s => !s.isEmpty
  | bool b => b
  | _ => true

end Value

/-- The value under `key`; a later slot of the same key replaces an earlier one in its place. -/
def setSlot (key : String) (v : Value) : List (String × Value) → List (String × Value)
  | [] => [(key, v)]
  | (k, old) :: rest => if k = key then (k, v) :: rest else (k, old) :: setSlot key v rest

/-- The slot of an object that a string names; null where there is none. -/
def Value.slot : Value → Value → Value
  | .object slots, .string key => (slots.lookup key).getD .null
  | _, _ => .null

end Bahasa
