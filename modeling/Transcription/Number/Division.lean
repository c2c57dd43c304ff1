import Transcription.Number.Binary64

namespace Transcription.Division

open Binary64

/-- The double `m * 2 ^ e`, negated if so told; only 53 digits of `m` count. -/
def compose (negative : Bool) (m : Nat) (e : Int) : Float :=
  let surplus := m.log2 - 52
  let x := (Float.ofNat (m / Nat.pow 2 surplus)).scaleB (e + surplus)
  if negative then -x else x

def undefined : Float := 0.0 / 0.0

/-- A zero with the sign of `x`. -/
def zeroLike (x : Float) : Float := if (parts x).negative then -0.0 else 0.0

/-- What is left of `x` after taking away a multiple of `y` no larger than it; it has the sign
of `x`. -/
def remainder (x y : Float) : Float :=
  if x.isNaN || y.isNaN || x.isInf || y == 0 then undefined
  else if y.isInf then x
  else
    let p := parts x
    let q := parts y
    let e := min p.exponent q.exponent
    let m := p.mantissa * Nat.pow 2 (p.exponent - e).toNat
    let n := q.mantissa * Nat.pow 2 (q.exponent - e).toNat
    compose p.negative (m % n) e

/-- The remainder that has the sign of `y`. -/
def floorMod (x y : Float) : Float :=
  let r := remainder x y
  if r == 0 then zeroLike y
  else if (y < 0) != (r < 0) then r + y
  else r

/-- The quotient rounded down. -/
def floorDiv (x y : Float) : Float :=
  let r := remainder x y
  let q := (x - r) / y
  let q := if r != 0 && (y < 0) != (r < 0) then q - 1 else q
  if q == 0 then zeroLike (x / y)
  else
    let f := q.floor
    if 0.5 < q - f then f + 1 else f

end Transcription.Division
