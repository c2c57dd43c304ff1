namespace Transcription.Binary64

/-- The sign, mantissa and exponent of a finite double: the value is `± mantissa * 2 ^ exponent`. -/
structure Parts where
  negative : Bool
  mantissa : Nat
  exponent : Int
  deriving Repr, DecidableEq

def parts (x : Float) : Parts :=
  let bits : Nat := x.toBits.toNat
  let fraction : Nat := bits % Nat.pow 2 52
  let biased : Nat := bits / Nat.pow 2 52 % Nat.pow 2 11
  if biased = 0 then ⟨bits / Nat.pow 2 63 = 1, fraction, -1074⟩
  else ⟨bits / Nat.pow 2 63 = 1, Nat.pow 2 52 + fraction, (biased : Int) - 1075⟩

/-- Numerator and denominator of `m * 2 ^ e`. -/
def ratio (m : Nat) (e : Int) : Nat × Nat :=
  if 0 ≤ e then (m * Nat.pow 2 e.toNat, 1) else (m, Nat.pow 2 (-e).toNat)

def isFinite (x : Float) : Bool := !(x.isNaN || x.isInf)

/-- The whole part of a finite double, cut toward zero. -/
def truncate (x : Float) : Int :=
  let p := parts x
  let (num, den) := ratio p.mantissa p.exponent
  if p.negative then -((num / den : Nat) : Int) else (num / den : Nat)

/-- The integer that a finite double is equal to, if it is one. -/
def integer? (x : Float) : Option Int :=
  let p := parts x
  let (num, den) := ratio p.mantissa p.exponent
  if isFinite x && num % den = 0 then some (truncate x) else none

/-- The double nearest to an integer, or none when the integer is beyond the largest double. -/
def ofInt? (n : Int) : Option Float :=
  let x := Float.ofScientific n.natAbs false 0
  if x.isInf then none else some (if n < 0 then -x else x)

end Transcription.Binary64
