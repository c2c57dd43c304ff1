import Transcription.Scalar

namespace Transcription

/-- The entries of a row: column and value. -/
abbrev Row (α : Type) := List (Nat × α)

namespace Row

variable {α : Type} [Scalar α]

def shift (k : Nat) (r : Row α) : Row α := r.map fun t => (t.1 + k, t.2)

/-- Adds a value to the entry of a column. -/
def add (c : Nat) (a : α) : Row α → Row α
  | [] => [(c, a)]
  | (d, b) :: r =>
    if c < d then (c, a) :: (d, b) :: r
    else if c = d then (d, b + a) :: r
    else (d, b) :: add c a r

def compact (r : Row α) : Row α := r.filter fun t => !Scalar.isZero t.2

def collect (ts : List (Nat × α)) : Row α := ts.foldl (fun r t => add t.1 t.2 r) []

def ofTerms (ts : List (Nat × α)) : Row α := compact (collect ts)

def ofDense (as : List α) : Row α := compact (as.zipIdx.map fun (a, c) => (c, a))

/-- Every column moved by `f`; the values that meet in one column are added. -/
def relabel (f : Nat → Nat) (r : Row α) : Row α := ofTerms (r.map fun t => (f t.1, t.2))

def values (r : Row α) : List α := r.map (·.2)

end Row

structure Matrix (α : Type) where
  cols : Nat
  rows : List (Row α)
  deriving Repr

namespace Matrix

variable {α : Type} [Scalar α]

def zero (r c : Nat) : Matrix α := ⟨c, List.replicate r []⟩

def identity (n : Nat) : Matrix α := ⟨n, (List.range n).map fun i => [(i, 1)]⟩

/-- A matrix from its rows written out, each `c` long. -/
def ofDense (c : Nat) (rows : List (List α)) : Matrix α := ⟨c, rows.map Row.ofDense⟩

/-- Whether every entry lies in one of the columns. -/
def isWithin (m : Matrix α) : Bool := m.rows.all fun r => r.all fun t => t.1 < m.cols

/-- A matrix from entries anywhere in it, those of one place added up; none when an entry lies
outside. -/
def ofEntries? (r c : Nat) (entries : List (Nat × Nat × α)) : Option (Matrix α) :=
  if entries.all fun (i, j, _) => i < r && j < c then
    some ⟨c, (List.range r).map fun i =>
      Row.collect ((entries.filter fun e => e.1 = i).map (·.2))⟩
  else none

def compact (m : Matrix α) : Matrix α := ⟨m.cols, m.rows.map Row.compact⟩

/-- The number of entries held, zeros among them included. -/
def stored (m : Matrix α) : Nat := m.rows.flatten.length

/-- The rows of the matrices, each moved right past the columns of those before it. -/
def place : Nat → List (Matrix α) → List (Row α)
  | _, [] => []
  | k, m :: ms => m.rows.map (Row.shift k) ++ place (k + m.cols) ms

def diagonal (ms : List (Matrix α)) : Matrix α := ⟨(ms.map cols).foldr (· + ·) 0, place 0 ms⟩

/-- The first matrix that is wider than `n`. -/
def tooWide? (n : Nat) (ms : List (Matrix α)) : Option Nat :=
  (ms.find? fun m => n < m.cols).map cols

/-- The matrices below one another, in `n` columns. -/
def stack (n : Nat) (ms : List (Matrix α)) : Matrix α := ⟨n, ms.flatMap rows⟩

def widest (ms : List (Matrix α)) : Nat := (ms.map cols).foldl max 0

/-- One row per target, with a single one in that column. -/
def selection (targets : List Nat) (n : Nat) : Matrix α := ⟨n, targets.map fun c => [(c, 1)]⟩

/-- `n` copies of a matrix along a diagonal: the Kronecker product with an identity. -/
def repeated (n : Nat) (m : Matrix α) : Matrix α :=
  ⟨n * m.cols, (List.range n).flatMap fun i => m.rows.map (Row.shift (i * m.cols))⟩

/-- Two matrices of equally many rows side by side. -/
def beside (a b : Matrix α) : Matrix α :=
  ⟨a.cols + b.cols, List.zipWith (fun r s => r ++ Row.shift a.cols s) a.rows b.rows⟩

end Matrix

end Transcription
