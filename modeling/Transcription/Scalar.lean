namespace Transcription

/-- Arithmetic with powers, a strict order and an equality test, for a definition that runs in double precision
and is reasoned about in exact arithmetic. Parameters enter as doubles. -/
class Scalar (α : Type) extends Zero α, One α, Add α, Sub α, Mul α, Div α, Neg α, NatCast α where
  pow : α → α → α
  abs : α → α
  lt : α → α → Bool
  beq : α → α → Bool
  ofFloat : Float → α

namespace Scalar

variable {α : Type} [Scalar α]

/-- A value that leaves no entry behind in a sparse row. -/
def isZero (a : α) : Bool := beq a 0

def sum (as : List α) : α := as.foldl (· + ·) 0

def product (as : List α) : α := as.foldl (· * ·) 1

/-- Whether the magnitudes of `as` add up to something positive. -/
def hasMass (as : List α) : Bool := lt 0 (sum (as.map abs))

def maxOf (a b : α) : α := if lt a b then b else a

end Scalar

instance natCastFloat : NatCast Float := ⟨Float.ofNat⟩

instance : Scalar Float where
  one := 1.0
  pow := Float.pow
  abs := Float.abs
  lt a b := a < b
  beq a b := a == b
  ofFloat a := a

/-- A bound: a number, or no bound at all on the side it stands for. -/
inductive Limit (α : Type) where
  | negInf
  | finite (a : α)
  | posInf
  deriving Repr

namespace Limit

variable {α : Type} [Scalar α]

def lt : Limit α → Limit α → Bool
  | negInf, negInf => false
  | negInf, _ => true
  | finite a, finite b => Scalar.lt a b
  | finite _, posInf => true
  | _, _ => false

/-- The larger limit, the first of two equal ones. -/
def max (a b : Limit α) : Limit α := if a.lt b then b else a

/-- The smaller limit, the first of two equal ones. -/
def min (a b : Limit α) : Limit α := if b.lt a then b else a

def isFinite : Limit α → Bool
  | finite _ => true
  | _ => false

def finite? : Limit α → Option α
  | finite a => some a
  | _ => none

/-- Reads a bound; one that is not a number bounds nothing, which is what `free` stands for. -/
def ofFloat (free : Limit α) (x : Float) : Limit α :=
  if x.isNaN then free
  else if x.isInf then (if x < 0 then negInf else posInf)
  else finite (Scalar.ofFloat x)

end Limit

end Transcription
