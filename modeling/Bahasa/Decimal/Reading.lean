import Bahasa.Decimal.Binary
import Bahasa.Text.Blank
import Bahasa.Text.Digit

namespace Bahasa.Decimal

def naturalOf (digits : List Char) : Nat :=
  digits.foldl (fun n c => 10 * n + (c.toNat - '0'.toNat)) 0

def splitPoint (cs : List Char) : List Char × List Char :=
  (cs.takeWhile Text.isDigit, (cs.dropWhile Text.isDigit).drop 1)

def isDecimal (cs : List Char) : Bool :=
  let (whole, fraction) := (cs.takeWhile Text.isDigit, cs.dropWhile Text.isDigit)
  match fraction with
  | [] => !whole.isEmpty
  | point :: places => point == '.' && places.all Text.isDigit && !(whole.isEmpty && places.isEmpty)

def exponentOf? (cs : List Char) : Option Int :=
  let (sign, digits) := match cs with
    | '+' :: rest => (1, rest)
    | '-' :: rest => (-1, rest)
    | rest => (1, rest)
  if digits.isEmpty || !digits.all Text.isDigit then none else some (sign * naturalOf digits)

/-- A power of ten at which a number of so many digits is surely zero or infinite. -/
def exponentCap (digits : Nat) : Nat :=
  digits + 1200

def ofScientific (negative : Bool) (digits : List Char) (exponent : Int) : Float :=
  let cap := exponentCap digits.length
  match exponent with
  | .ofNat e => ofQuotient negative (naturalOf digits * Nat.pow 10 (min e cap)) 1
  | .negSucc e => ofQuotient negative (naturalOf digits) (Nat.pow 10 (min (e + 1) cap))

def readUnsigned? (negative : Bool) (cs : List Char) : Option Float :=
  let mantissa := cs.takeWhile (fun c => c != 'e' && c != 'E')
  let power? := match cs.dropWhile (fun c => c != 'e' && c != 'E') with
    | [] => some 0
    | _ :: rest => exponentOf? rest
  let (whole, places) := splitPoint mantissa
  match isDecimal mantissa, power? with
  | true, some power => some (ofScientific negative (whole ++ places) (power - places.length))
  | _, _ => none

def named? (negative : Bool) (cs : List Char) : Option Float :=
  let word := String.ofList (cs.map Char.toLower)
  if word == "inf" || word == "infinity" then some (if negative then -1 / 0 else 1 / 0)
  else if word == "nan" then some (0 / 0)
  else none

def readSigned? (negative : Bool) (cs : List Char) : Option Float :=
  (readUnsigned? negative cs).or (named? negative cs)

/-- The text without the low lines that set digits apart; there is none with one elsewhere. -/
def dropSeparators? : List Char → Option (List Char)
  | [] => some []
  | c :: '_' :: d :: rest =>
    if Text.isDigit c && Text.isDigit d then (dropSeparators? (d :: rest)).map (c :: ·) else none
  | c :: rest => if c = '_' then none else (dropSeparators? rest).map (c :: ·)

def readTrimmed? : List Char → Option Float
  | '+' :: rest => readSigned? false rest
  | '-' :: rest => readSigned? true rest
  | rest => readSigned? false rest

/-- The number that a text spells, if it spells one. Blanks around it do not count, and digits may
be those of any script. -/
def read? (text : String) : Option Float :=
  let cs := (Text.trim text).toList.map Text.latinDigit
  if cs.contains '_' then (dropSeparators? cs).bind readTrimmed? else readTrimmed? cs

end Bahasa.Decimal
