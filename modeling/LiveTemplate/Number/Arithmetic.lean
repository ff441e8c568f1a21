import LiveTemplate.Number.Shortest

/-!
# Remainder and power

The remainder of a division keeps the sign of the dividend and is exact. A power with an exponent
that is no number, and a power of one or minus one with an infinite exponent, is no number.
-/
namespace LiveTemplate

/-- The remainder of two positive finite doubles: both are whole multiples of one power of two, and
so is the remainder of the multiples. -/
def positiveRemainder (x y : Float) : Float :=
  let a := Shortest.Scaled.ofFloat x
  let b := Shortest.Scaled.ofFloat y
  let unit := min a.exponent b.exponent
  let m := a.mantissa * Nat.pow 2 (a.exponent - unit).toNat
  let n := b.mantissa * Nat.pow 2 (b.exponent - unit).toNat
  Float.scaleB (Float.ofNat (m % n)) unit

/-- The remainder of a division toward zero. -/
def remainder (x y : Float) : Float :=
  if x.isNaN || y.isNaN || x.isInf || y == 0 then 0 / 0
  else if y.isInf || x == 0 then x
  else
    let r := positiveRemainder x.abs y.abs
    if isNegative x then -r else r

def power (base exponent : Float) : Float :=
  if exponent.isNaN || (base.abs == 1 && exponent.isInf) then 0 / 0
  else Float.pow base exponent

end LiveTemplate
