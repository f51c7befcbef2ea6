/-! The shortest decimal that reads back as a given float, in exact arithmetic. -/
namespace LanguageHost.Decimal

/-- A finite positive float as `significand * 2 ^ exponent`, with the least significand a
normal number may have. -/
structure Binary where
  significand : Nat
  exponent : Int

/-- The significand below which the gap to the next smaller float halves. -/
def leastNormal : Nat := 0x10000000000000

/-- Takes the bits of a float apart; the sign is not part of the answer. -/
def Binary.ofBits (bits : UInt64) : Binary :=
  let fraction : Nat := bits.toNat % leastNormal
  let exponent : Nat := bits.toNat / leastNormal % 2048
  if exponent = 0 then ⟨fraction, -1074⟩
  else ⟨fraction + leastNormal, (exponent : Int) - 1075⟩

/-- A decimal `digits * 10 ^ exponent`. -/
structure Scaled where
  digits : Nat
  exponent : Int

/-- Compares `d * 10 ^ e` with `a * 2 ^ r`. -/
def compareScaled (d : Nat) (e : Int) (a : Nat) (r : Int) : Ordering :=
  compare (d * Nat.pow 10 e.toNat * Nat.pow 2 (-r).toNat) (a * Nat.pow 2 r.toNat * Nat.pow 10 (-e).toNat)

namespace Binary

/-- The decimal lies where numbers round to this float: half a gap to either side, the ends
included when the significand is even. -/
def rounds (b : Binary) (d : Scaled) : Bool :=
  let even := b.significand % 2 = 0
  let belowUpper := match compareScaled d.digits d.exponent (2 * b.significand + 1) (b.exponent - 1) with
    | .lt => true
    | .eq => even
    | .gt => false
  let lower :=
    if b.significand = leastNormal ∧ -1074 < b.exponent then
      compareScaled d.digits d.exponent (4 * b.significand - 1) (b.exponent - 2)
    else compareScaled d.digits d.exponent (2 * b.significand - 1) (b.exponent - 1)
  let aboveLower := match lower with
    | .gt => true
    | .eq => even
    | .lt => false
  belowUpper && aboveLower

/-- The count of digits before the point, or minus the count of zeros after it: the least `k`
with the number below `10 ^ k`. -/
def magnitude (b : Binary) : Int :=
  let bits : Int := b.significand.log2 + b.exponent
  let start := bits * 1233 / 4096 - 1
  let above (k : Int) : Bool := compareScaled 1 k b.significand b.exponent == .gt
  if above start then start
  else if above (start + 1) then start + 1
  else if above (start + 2) then start + 2
  else start + 3

def floorAt (b : Binary) (e : Int) : Nat :=
  b.significand * Nat.pow 2 b.exponent.toNat * Nat.pow 10 (-e).toNat /
    (Nat.pow 2 (-b.exponent).toNat * Nat.pow 10 e.toNat)

/-- Of two neighbouring decimals the lower is at least as near; at the same distance the
even one wins. -/
def lowerIsNearer (b : Binary) (d : Nat) (e : Int) : Bool :=
  match compareScaled (2 * d + 1) e b.significand (b.exponent + 1) with
  | .gt => true
  | .eq => d % 2 = 0
  | .lt => false

def withDigits? (b : Binary) (count : Nat) : Option Scaled :=
  let e := b.magnitude - count
  let d := b.floorAt e
  let low := b.rounds ⟨d, e⟩
  let high := b.rounds ⟨d + 1, e⟩
  if low && (!high || b.lowerIsNearer d e) then some ⟨d, e⟩
  else if high then some ⟨d + 1, e⟩
  else none

/-- The fewest digits that read back; seventeen always do. -/
def shortest (b : Binary) : Scaled :=
  ((List.range 17).findSome? fun i => b.withDigits? (i + 1)).getD ⟨b.floorAt (b.magnitude - 17), b.magnitude - 17⟩

end Binary

end LanguageHost.Decimal
