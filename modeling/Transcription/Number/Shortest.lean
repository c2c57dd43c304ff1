import Transcription.Number.Binary64

namespace Transcription.Shortest

open Binary64

/-- A positive decimal `digits * 10 ^ exponent`. -/
structure Decimal where
  digits : Nat
  exponent : Int
  deriving Repr, DecidableEq

def digitCount (n : Nat) : Nat := (Nat.toDigits 10 n).length

/-- The place `k` with `10 ^ (k - 1) ≤ num / den < 10 ^ k`, for a positive ratio. -/
def place (num den : Nat) : Int :=
  if den ≤ num then digitCount (num / den)
  else 1 - (digitCount ((num + den - 1) / num - 1) : Int)

/-- Numerator and denominator of `num / den / 10 ^ k`. -/
def unscale (num den : Nat) (k : Int) : Nat × Nat :=
  if 0 ≤ k then (num, den * Nat.pow 10 k.toNat) else (num * Nat.pow 10 (-k).toNat, den)

/-- Drops the zeros that a decimal ends with, as many as `fuel`. -/
def trim : Nat → Decimal → Decimal
  | 0, d => d
  | fuel + 1, d =>
    if d.digits % 10 = 0 && d.digits != 0 then trim fuel ⟨d.digits / 10, d.exponent + 1⟩ else d

/-- The point of the grid of `n` digits nearest to `num / den` among those between the ends `lo` and
`hi`, all over the denominator `den`; a tie goes to the even digit. -/
def onGrid (lo num hi den : Nat) (closed : Bool) (k : Int) (n : Nat) : Option Decimal :=
  let step := k - n
  let inside (d : Nat) : Bool :=
    let (d, den') := if 0 ≤ step then (d * Nat.pow 10 step.toNat * den, 1)
      else (d * den, Nat.pow 10 (-step).toNat)
    if closed then lo * den' ≤ d && d ≤ hi * den' else lo * den' < d && d < hi * den'
  let (top, bottom) := unscale num den step
  let below := top / bottom
  let rest := top % bottom
  let nearUp := bottom < 2 * rest || (bottom = 2 * rest && below % 2 = 1)
  match inside below, inside (below + 1) with
  | true, true => some ⟨if nearUp then below + 1 else below, step⟩
  | true, false => some ⟨below, step⟩
  | false, true => some ⟨below + 1, step⟩
  | false, false => none

/-- The fewest digits that read back as the positive finite double with the given parts; of two
such decimals the nearer one. -/
def ofParts (p : Parts) : Decimal :=
  let m := p.mantissa
  let narrow := m = Nat.pow 2 52 && p.exponent != -1074
  let (num, den) := ratio (4 * m) (p.exponent - 2)
  let unit := (ratio 1 (p.exponent - 2)).1
  let lo := num - (if narrow then 1 else 2) * unit
  let hi := num + 2 * unit
  let k := place num den
  let found := (List.range 17).findSome? fun n => onGrid lo num hi den (m % 2 = 0) k (n + 1)
  let d := found.getD ⟨0, 0⟩
  trim (digitCount d.digits) d

/-- A positive finite double rounded to `n` significant digits, ties to even. -/
def significant (n : Nat) (p : Parts) : Decimal :=
  let (num, den) := ratio p.mantissa p.exponent
  let step := place num den - n
  let (top, bottom) := unscale num den step
  let below := top / bottom
  let rest := top % bottom
  let up := bottom < 2 * rest || (bottom = 2 * rest && below % 2 = 1)
  ⟨if up then below + 1 else below, step⟩

/-- The double nearest to a decimal. -/
def Decimal.toFloat (d : Decimal) : Float :=
  if 0 ≤ d.exponent then Float.ofScientific d.digits false d.exponent.toNat
  else Float.ofScientific d.digits true (-d.exponent).toNat

end Transcription.Shortest
