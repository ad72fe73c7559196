import ContentModels.Json.Value

set_option autoImplicit false

namespace ContentModels.Json

def digitValue (c : Char) : Nat := c.toNat - 48

def digitsValue (digits : List Char) : Nat :=
  digits.foldl (fun n c => n * 10 + digitValue c) 0

def significandBound : Nat := Nat.pow 2 64

def gather : Nat → List Char → Nat × Nat
  | significand, [] => (significand, 0)
  | significand, c :: rest =>
    let next := significand * 10 + digitValue c
    if next < significandBound then gather next rest else (significand, rest.length + 1)

def powerOfTen (n : Nat) : Float := Float.ofScientific 1 false n

def scale (significand : Float) (exponent : Int) : Option Float :=
  if exponent.natAbs ≤ 308 then
    if 0 ≤ exponent then
      let scaled := significand * powerOfTen exponent.natAbs
      if scaled.isInf then none else some scaled
    else some (significand / powerOfTen exponent.natAbs)
  else if significand == 0.0 then some significand
  else if 0 ≤ exponent then none
  else scale (significand / powerOfTen 308) (exponent + 308)
termination_by exponent.natAbs
decreasing_by omega

structure Numeral where
  negative : Bool
  whole : List Char
  fraction : Option (List Char)
  -- Whether the exponent is negative, and its digits.
  exponent : Option (Bool × List Char)

namespace Numeral

def signed (negative : Bool) (x : Float) : Float := if negative then -x else x

def exponentBound : Nat := Nat.pow 2 31

def float? (n : Numeral) : Option Float :=
  let (whole, dropped) := gather 0 n.whole
  let (significand, used) :=
    match n.fraction with
    | none => (whole, 0)
    | some digits =>
      let (significand, left) := gather whole digits
      (significand, digits.length - left)
  let start : Int := dropped - used
  let scaled (exponent : Int) := (scale (UInt64.ofNat significand).toFloat exponent).map (signed n.negative)
  match n.exponent with
  | none => scaled start
  | some (down, digits) =>
    let exponent := digitsValue digits
    if exponent < exponentBound then scaled (if down then start - exponent else start + exponent)
    else if significand ≠ 0 ∧ ¬ down then none
    else some (signed n.negative 0.0)

def number? (n : Numeral) : Option Number :=
  match n.fraction, n.exponent, gather 0 n.whole with
  | none, none, (whole, 0) =>
    if ¬ n.negative then some (.integer whole)
    else if whole = 0 ∨ Nat.pow 2 63 < whole then some (.float (-(UInt64.ofNat whole).toFloat))
    else some (.integer (-whole))
  | _, _, _ => n.float?.map .float

end Numeral

end ContentModels.Json
