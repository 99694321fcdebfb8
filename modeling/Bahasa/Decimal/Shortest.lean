import Bahasa.Decimal.Binary

namespace Bahasa.Decimal

structure Scientific where
  digits : Nat
  exponent : Int

/-- Twice the units of the two midpoints to the neighbours of `m`. Below a power of two the
neighbours stand twice as close. -/
def Magnitude.bounds (m : Magnitude) : Nat × Nat :=
  let gap := Nat.pow 2 m.scale
  let gapBelow := if m.significand = leadingBit && m.scale ≠ 0 then gap / 2 else gap
  (2 * m.units - gapBelow, 2 * m.units + gap)

/-- A decimal grid: the value stands at `units · up / down` steps of it. -/
structure Grid where
  up : Nat
  down : Nat

def Grid.ofExponent (exponent : Int) : Grid :=
  match exponent with
  | .ofNat e => ⟨1, unitsPerOne * Nat.pow 10 e⟩
  | .negSucc e => ⟨Nat.pow 10 (e + 1), unitsPerOne⟩

/-- Whether point `c` of the grid rounds to `m`: the midpoints do when the significand is even. -/
def Grid.roundsTo (g : Grid) (m : Magnitude) (c : Nat) : Bool :=
  let (low, high) := m.bounds
  let point := 2 * c * g.down
  if m.significand % 2 = 0 then low * g.up ≤ point && point ≤ high * g.up
  else low * g.up < point && point < high * g.up

def Grid.hit? (g : Grid) (m : Magnitude) : Option Nat :=
  let below := m.units * g.up / g.down
  let nearest := roundQuotient (m.units * g.up) g.down
  let other := if nearest = below then below + 1 else below
  if g.roundsTo m nearest then some nearest
  else if g.roundsTo m other then some other
  else none

def leadingZeros (units : Nat) : Nat → Nat
  | 0 => 0
  | fuel + 1 => if unitsPerOne ≤ units * 10 then 0 else leadingZeros (units * 10) fuel + 1

def decimalExponent (m : Magnitude) : Int :=
  let whole := m.units / unitsPerOne
  if whole = 0 then -(leadingZeros m.units 400 : Int) else (Nat.toDigits 10 whole).length

/-- Grids of one digit more each, until one has a point that rounds to `m`. Seventeen digits
always do. -/
def shortestFrom (m : Magnitude) (top : Int) : Nat → Scientific
  | 0 => ⟨m.units, 0⟩
  | fuel + 1 =>
    let exponent := top - (17 - fuel : Int)
    match (Grid.ofExponent exponent).hit? m with
    | some c => ⟨c, exponent⟩
    | none => shortestFrom m top fuel

def shortest (m : Magnitude) : Scientific :=
  shortestFrom m (decimalExponent m) 17

end Bahasa.Decimal
