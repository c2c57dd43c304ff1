import Transcription.Poly.System

namespace Transcription

/-- A system laid out for repeated evaluation. Rows of factors are filled up to one length with the power
zero of an extra column that holds one. -/
structure Tape (α : Type) where
  width : Nat
  /-- Column and exponent of every factor, one row per monomial. -/
  factors : List (Row α)
  equations : List (Row α)

/-- A value and its derivative in one direction. -/
structure Dual (α : Type) where
  value : α
  slope : α

namespace Dual

variable {α : Type} [Scalar α]

def mul (a b : Dual α) : Dual α :=
  ⟨a.value * b.value, a.slope * b.value + a.value * b.slope⟩

def one : Dual α := ⟨1, 0⟩

/-- Multiplies the first half of a list into the second, which is filled up with ones. -/
def fold (ds : List (Dual α)) : List (Dual α) :=
  let half := (ds.length + 1) / 2
  let second := ds.drop half
  List.zipWith mul (ds.take half) (second ++ List.replicate (half - second.length) one)

theorem length_fold (ds : List (Dual α)) : (fold ds).length = (ds.length + 1) / 2 := by
  simp [fold]; omega

/-- The product of a list, formed by halving it until one is left. -/
def product (ds : List (Dual α)) : Dual α :=
  match ds with
  | [] => one
  | [d] => d
  | a :: b :: rest => product (fold (a :: b :: rest))
termination_by ds.length
decreasing_by simp [length_fold]; omega

end Dual

namespace Tape

variable {α : Type} [Scalar α]

/-- The number of factors of the longest monomial, at least one. -/
def degree (s : System α) : Nat := (s.monomials.map List.length).foldl max 1

def ofSystem (s : System α) : Tape α :=
  let d := degree s
  ⟨s.width, s.monomials.map fun r => r ++ List.replicate (d - r.length) (s.width, 0), s.equations⟩

def columns (t : Tape α) : List (List Nat) := t.factors.map fun r => r.map (·.1)

def powers (t : Tape α) : List (List α) := t.factors.map fun r => r.map (·.2)

/-- A factor at a point; the power zero is one whatever the base. -/
def factorAt (x : Nat → α) (t : Nat × α) : α :=
  if Scalar.isZero t.2 then 1 else Scalar.pow (x t.1) t.2

/-- A list of coordinates as a point; every column beyond them holds one. -/
def point (xs : List α) : Nat → α :=
  let a := xs.toArray
  fun i => a.getD i 1

def run (t : Tape α) (xs : List α) : List α :=
  let x := point xs
  let ms := (t.factors.map fun r => Scalar.product (r.map (factorAt x))).toArray
  t.equations.map (System.equationAt fun i => ms.getD i 0)

/-- A factor with its derivative in the direction of variable `j`. -/
def dualAt (x : Nat → α) (j : Nat) (t : Nat × α) : Dual α :=
  let seed : α := if t.1 = j then 1 else 0
  if Scalar.isZero t.2 then ⟨1, 0⟩
  else ⟨Scalar.pow (x t.1) t.2, seed * (t.2 * Scalar.pow (x t.1) (t.2 - 1))⟩

/-- The derivative of every equation in the direction of variable `j`. -/
def slopes (t : Tape α) (xs : List α) (j : Nat) : List α :=
  let x := point xs
  let ms := (t.factors.map fun r => (Dual.product (r.map (dualAt x j))).slope).toArray
  t.equations.map (System.equationAt fun i => ms.getD i 0)

/-- The matrix of derivatives: a row per equation, a column per variable. -/
def jacobian (t : Tape α) (xs : List α) : List (List α) :=
  let byColumn := (List.range xs.length).map (t.slopes xs)
  (List.range t.equations.length).map fun i => byColumn.map fun c => c.getD i 0

end Tape

end Transcription
