set_option autoImplicit false

namespace ContentModels.Json

structure Decimal where
  digits : Nat
  exponent : Int
  deriving Repr, DecidableEq

structure Binary where
  mantissa : Nat
  exponent : Int
  denseBelow : Bool

namespace Binary

def ofBits (bits : Nat) : Binary :=
  let fraction := bits % Nat.pow 2 52
  let exponent : Nat := bits / Nat.pow 2 52 % Nat.pow 2 11
  if exponent = 0 then ⟨fraction, -1074, false⟩
  else ⟨fraction + Nat.pow 2 52, (exponent : Int) - 1075, fraction = 0 && 1 < exponent⟩

def unit (b : Binary) : Nat × Nat :=
  if 2 ≤ b.exponent then (Nat.pow 2 (b.exponent - 2).toNat, 1)
  else (1, Nat.pow 2 (2 - b.exponent).toNat)

def quarters (b : Binary) : Nat := 4 * b.mantissa

def lowest (b : Binary) : Nat := b.quarters - (if b.denseBelow then 1 else 2)

def highest (b : Binary) : Nat := b.quarters + 2

def holds (b : Binary) (numerator denominator : Nat) : Bool :=
  let low := b.lowest * b.unit.1 * denominator
  let high := b.highest * b.unit.1 * denominator
  let here := numerator * b.unit.2
  if b.mantissa % 2 = 0 then low ≤ here && here ≤ high else low < here && here < high

end Binary

def digitCount (n : Nat) : Nat := (Nat.toDigits 10 n).length

def magnitude (numerator denominator : Nat) : Int :=
  if denominator ≤ numerator then (digitCount (numerator / denominator) : Int) - 1
  else -(digitCount ((denominator - 1) / numerator) : Int)

def tenTo (exponent : Int) : Nat × Nat :=
  if 0 ≤ exponent then (Nat.pow 10 exponent.toNat, 1) else (1, Nat.pow 10 (-exponent).toNat)

def onGrid (b : Binary) (exponent : Int) : Option Decimal :=
  let (up, down) := tenTo exponent
  let numerator := b.quarters * b.unit.1 * down
  let denominator := b.unit.2 * up
  let below := numerator / denominator
  let above := below + 1
  let belowHolds := b.holds (below * up) down
  let aboveHolds := b.holds (above * up) down
  let remainder := numerator % denominator
  if belowHolds && (!aboveHolds || 2 * remainder < denominator ||
      (2 * remainder = denominator && below % 2 = 0)) then some ⟨below, exponent⟩
  else if aboveHolds then some ⟨above, exponent⟩
  else none

def shortest (b : Binary) : Decimal :=
  let top := magnitude (b.quarters * b.unit.1) b.unit.2 + 1
  ((List.range 18).findSome? fun (n : Nat) => onGrid b (top - n)).getD ⟨0, 0⟩

end ContentModels.Json
