import Bahasa.Decimal.Shortest

namespace Bahasa.Decimal

structure Layout where
  wholeInFull : Bool
  signedZero : Bool
  leastPositional : Int
  mostPositional : Int
  exponentWidth : Nat
  notNumber : String
  infinite : String

/-- Whole numbers are written in full. Others have no exponent from one ten-thousandth on, and one
of two digits or more below. -/
def plain : Layout :=
  ⟨true, false, -3, 16, 2, "nan", "inf"⟩

/-- Every number has a point or an exponent, which is written from ten to the sixteenth on too. -/
def pointed : Layout :=
  { plain with wholeInFull := false, signedZero := true }

def zeros (n : Nat) : List Char :=
  List.replicate n '0'

def dropTrailingZeros (cs : List Char) : List Char :=
  (cs.reverse.dropWhile (· == '0')).reverse

def positional (digits : List Char) : Int → List Char
  | .ofNat 0 => '0' :: '.' :: digits
  | .ofNat (n + 1) =>
    let padded := digits ++ zeros (n + 1 - digits.length)
    let fraction := padded.drop (n + 1)
    padded.take (n + 1) ++ '.' :: if fraction.isEmpty then ['0'] else fraction
  | .negSucc n => '0' :: '.' :: zeros (n + 1) ++ digits

def padLeft (width : Nat) (digits : List Char) : List Char :=
  zeros (width - digits.length) ++ digits

def exponential (layout : Layout) (digits : List Char) (power : Int) : List Char :=
  let lead := digits.take 1
  let tail := digits.drop 1
  let sign := if power < 0 then '-' else '+'
  lead ++ (if tail.isEmpty then [] else '.' :: tail) ++
    'e' :: sign :: padLeft layout.exponentWidth (Nat.toDigits 10 power.natAbs)

def writeScientific (layout : Layout) (s : Scientific) : List Char :=
  let written := Nat.toDigits 10 s.digits
  let before := s.exponent + written.length
  let digits := dropTrailingZeros written
  if layout.leastPositional ≤ before ∧ before ≤ layout.mostPositional then positional digits before
  else exponential layout digits (before - 1)

def writeMagnitude (layout : Layout) (m : Magnitude) : List Char :=
  if layout.wholeInFull ∧ m.units % unitsPerOne = 0 then Nat.toDigits 10 (m.units / unitsPerOne)
  else if m.significand = 0 then positional ['0'] 1
  else writeScientific layout (shortest m)

def writeFinite (layout : Layout) (negative : Bool) (m : Magnitude) : List Char :=
  let sign := negative && (layout.signedZero || m.significand != 0)
  (if sign then ['-'] else []) ++ writeMagnitude layout m

def writeWith (layout : Layout) (x : Float) : String :=
  if x.isNaN then layout.notNumber
  else if x.isInf then (if isNegative x then "-" else "") ++ layout.infinite
  else String.ofList (writeFinite layout (isNegative x) (magnitude x))

def write (x : Float) : String :=
  writeWith plain x

end Bahasa.Decimal
