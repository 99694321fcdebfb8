namespace Bahasa.Decimal

/-- The smallest positive number is one part in this many. -/
def unitsPerOne : Nat := Nat.pow 2 1074

def leadingBit : Nat := Nat.pow 2 52

/-- A finite number without its sign: `significand · 2 ^ scale` units. -/
structure Magnitude where
  significand : Nat
  scale : Nat

namespace Magnitude

def units (m : Magnitude) : Nat :=
  m.significand * Nat.pow 2 m.scale

/-- The biased exponent zero holds the same scale as one, without the leading bit. -/
def ofBits (bits : Nat) : Magnitude :=
  let fraction := bits % leadingBit
  let exponent := bits / leadingBit % 2048
  if exponent = 0 then ⟨fraction, 0⟩ else ⟨leadingBit + fraction, exponent - 1⟩

/-- A significand that was rounded up to 54 bits carries into the scale. -/
def toBits (m : Magnitude) : Nat :=
  m.scale * leadingBit + m.significand

end Magnitude

def signBit : Nat := Nat.pow 2 63

def infinityBits : Nat := 0x7ff0000000000000

def isNegative (x : Float) : Bool :=
  signBit ≤ x.toBits.toNat

def magnitude (x : Float) : Magnitude :=
  .ofBits x.toBits.toNat

def roundQuotient (num den : Nat) : Nat :=
  let floor := num / den
  let twice := 2 * (num % den)
  if den < twice || (twice == den && floor % 2 == 1) then floor + 1 else floor

def scaleOf (num den : Nat) : Nat :=
  Nat.log2 (num / den) - 52

/-- The bits of the double nearest to `num / den`; what is too large becomes infinite. -/
def nearestBits (num den : Nat) : Nat :=
  let units := num * unitsPerOne
  let scale := scaleOf units den
  let m : Magnitude := ⟨roundQuotient units (den * Nat.pow 2 scale), scale⟩
  min m.toBits infinityBits

def ofQuotient (negative : Bool) (num den : Nat) : Float :=
  Float.ofBits (UInt64.ofNat (nearestBits num den + if negative then signBit else 0))

def ofInt (n : Int) : Float :=
  ofQuotient (n < 0) n.natAbs 1

def remainder (x y : Float) : Float :=
  if x.isNaN || y.isNaN || x.isInf || y == 0 then 0 / 0
  else if y.isInf then x
  else ofQuotient (isNegative x) ((magnitude x).units % (magnitude y).units) unitsPerOne

end Bahasa.Decimal
