import LanguageHost.Json.Value

/-! Number literals and the values they stand for. -/
namespace LanguageHost.Json

/-- A number literal: digits before the point, digits after it, and the exponent.
`fraction = []` is a literal without a point. -/
structure Numeral where
  negative : Bool
  whole : List Nat
  fraction : List Nat
  exponent : Option Int

namespace Numeral

def significandLimit : Nat := 0xFFFFFFFFFFFFFFFF

/-- Appends digits to a significand until one no longer fits, and returns the digits left over. -/
def gather : Nat → List Nat → Nat × List Nat
  | significand, [] => (significand, [])
  | significand, d :: ds =>
    if significand * 10 + d ≤ significandLimit then gather (significand * 10 + d) ds
    else (significand, d :: ds)

def powerOfTen (e : Nat) : Float := Float.ofScientific 1 false e

/-- Divides by ten to the `e`, in strides of the largest power of ten there is. -/
def shrink (x : Float) (e : Nat) : Float :=
  if e ≤ 308 then x / powerOfTen e
  else if x == 0 then x
  else shrink (x / powerOfTen 308) (e - 308)
termination_by e
decreasing_by omega

def grow (x : Float) (e : Nat) : Option Float :=
  if e ≤ 308 then
    let y := x * powerOfTen e
    if y.isInf then none else some y
  else if x == 0 then some x
  else none

/-- The significand is rounded first and then scaled once by the power of ten, so the
float may miss the nearest one by a unit in the last place. -/
def scaled (negative : Bool) (significand : Nat) (exponent : Int) : Option Float :=
  let x := Float.ofNat significand
  let scaled? := if 0 ≤ exponent then grow x exponent.toNat else some (shrink x (-exponent).toNat)
  scaled?.map fun y => if negative then -y else y

/-- The value of a literal without point and exponent that fits the gathered significand. A
negative one that does not fit 64 signed bits, and minus zero, are floats. -/
def integer (negative : Bool) (significand : Nat) : Json :=
  if !negative then .int significand
  else if 0 < significand ∧ significand ≤ 0x8000000000000000 then .int (-significand)
  else ofFloat (-(Float.ofNat significand))

/-- Nothing when the number is beyond the floats. -/
def value? (n : Numeral) : Option Json :=
  let (whole, beyond) := gather 0 n.whole
  if beyond.isEmpty && n.fraction.isEmpty && n.exponent.isNone then some (integer n.negative whole)
  else
    let (significand, dropped) := gather whole n.fraction
    let places := n.fraction.length - dropped.length
    let exponent := (beyond.length : Int) - places + n.exponent.getD 0
    (scaled n.negative significand exponent).map ofFloat

end Numeral

end LanguageHost.Json
