import Transcription.Poly.System

namespace Transcription.Program

variable {α : Type} [Scalar α]

/-- One row that adds up the variables of nonzero cost, each times its cost. Without any the row is
a zero multiple of the constant monomial, and without variables there is no row. -/
def costRow (costs : List α) : System α :=
  let weighted := costs.zipIdx.filter fun (a, _) => !Scalar.isZero a
  if !weighted.isEmpty then
    ⟨costs.length, weighted.map fun (_, i) => [(i, 1)],
      [weighted.zipIdx.map fun ((a, _), m) => (m, a)]⟩
  else if !costs.isEmpty then ⟨costs.length, [[]], [[]]⟩
  else .empty 0

/-- The variables that have a finite limit, and the limits. -/
def finiteLimits (limits : List (Limit α)) : List (Nat × α) :=
  limits.zipIdx.filterMap fun (l, i) => l.finite?.map fun a => (i, a)

/-- One side of a variable's bounds as `sign * x + constant ≤ 0`. -/
structure Bound (α : Type) where
  column : Nat
  sign : α
  constant : α

/-- The row of the bound whose own monomial is `m`. -/
def Bound.row (b : Bound α) (constantColumn m : Nat) : Row α :=
  Row.compact [(m, b.sign), (constantColumn, b.constant)]

/-- The finite upper bounds of all variables, then the finite lower ones. -/
def bounds (lower upper : List (Limit α)) : List (Bound α) :=
  (finiteLimits upper).map (fun (i, a) => ⟨i, 1, -a⟩) ++
    (finiteLimits lower).map (fun (i, a) => ⟨i, -1, a⟩)

/-- A row `x - upper ≤ 0` for every finite upper bound, then `lower - x ≤ 0` for every finite lower
one. The last monomial is the constant. -/
def boundRows (lower upper : List (Limit α)) : System α :=
  let bs := bounds lower upper
  if bs.isEmpty then .empty lower.length
  else
    ⟨lower.length, bs.map (fun b => [(b.column, 1)]) ++ [[]],
      bs.zipIdx.map fun (b, m) => b.row bs.length m⟩

end Transcription.Program
