import Transcription.Fault

namespace Transcription

/-- Sparse polynomial equations. A monomial is a row of exponents, so the empty row is the constant one, and
an equation is a row of weights on monomials. -/
structure System (α : Type) where
  /-- The number of variables. -/
  width : Nat
  monomials : List (Row α)
  equations : List (Row α)
  deriving Repr

namespace System

variable {α : Type} [Scalar α]

/-- The matrix of exponents: a row per monomial, a column per variable. -/
def exponents (s : System α) : Matrix α := ⟨s.width, s.monomials⟩

/-- The matrix of coefficients: a row per equation, a column per monomial. -/
def coefficients (s : System α) : Matrix α := ⟨s.monomials.length, s.equations⟩

/-- The system of two matrices, zeros dropped. Their sizes must agree unless there is no equation. -/
def ofMatrices (exponents coefficients : Matrix α) : Except Fault (System α) :=
  let p := exponents.compact
  let k := coefficients.compact
  if k.cols = p.rows.length || k.rows.isEmpty then pure ⟨p.cols, p.rows, k.rows⟩
  else throw (.coefficientColumns k.cols p.rows.length)

def empty (n : Nat) : System α := ⟨n, [], []⟩

def isEmpty (s : System α) : Bool := s.equations.isEmpty

/-- A one-line account of the size of a system. -/
def summary (s : System α) : String :=
  s!"PolySystem(n_vars={s.width}, n_monomials={s.monomials.length}, " ++
    s!"n_constraints={s.equations.length})"

/-- A monomial at a point: the product of its variables, each to its exponent. -/
def monomialAt (x : Nat → α) (r : Row α) : α :=
  Scalar.product (r.map fun (c, e) => Scalar.pow (x c) e)

def monomialsAt (s : System α) (x : Nat → α) : List α := s.monomials.map (monomialAt x)

def equationAt (m : Nat → α) (r : Row α) : α :=
  Scalar.sum (r.map fun (c, k) => k * m c)

/-- What each equation leaves at a point; zero where it holds. -/
def residualAt (s : System α) (x : Nat → α) : List α :=
  let ms := (s.monomialsAt x).toArray
  s.equations.map (equationAt fun i => ms.getD i 0)

def point (xs : List α) : Nat → α :=
  let a := xs.toArray
  fun i => a.getD i 0

/-- Requires one coordinate per variable. -/
def checkPoint (s : System α) (xs : List α) : Except Fault Unit :=
  if xs.length = s.width then pure () else throw (.pointLength s.width xs.length)

def monomialValues (s : System α) (xs : List α) : Except Fault (List α) := do
  s.checkPoint xs
  return s.monomialsAt (point xs)

def residual (s : System α) (xs : List α) : Except Fault (List α) := do
  s.checkPoint xs
  return s.residualAt (point xs)

/-- Closes expressions over their own outputs: after each expression one new variable is taken away,
so that equation `j` reads `expression j - output j = 0`. -/
def appendOutputs (s : System α) (n : Nat) : Except Fault (System α) :=
  if s.equations.length = n then
    let one : Matrix α := Matrix.identity n
    let minusOne : Matrix α := ⟨n, (List.range n).map fun i => [(i, -1)]⟩
    pure ⟨s.width + n, (Matrix.diagonal [s.exponents, one]).rows,
      (s.coefficients.beside minusOne).rows⟩
  else throw (.outputCount s.equations.length n)

/-- Moves variable `j` to column `targets[j]` of a system `n` wide. The exponents of variables that
meet in one column are added. -/
def relabel (s : System α) (targets : List Nat) (n : Nat) : Except Fault (System α) :=
  if targets.length = s.width then
    if targets.all (· < n) then
      let a := targets.toArray
      pure ⟨n, s.monomials.map (Row.relabel fun c => a.getD c 0), s.equations⟩
    else throw .columnOutside
  else throw (.columnTargets s.width targets.length)

/-- Targets that are columns of a system `n` wide. -/
def targetsWithin (targets : List Int) (n : Nat) : Except Fault (List Nat) :=
  if targets.all fun c => 0 ≤ c && c < n then pure (targets.map Int.toNat)
  else throw .columnOutside

/-- `relabel` for targets of any sign. -/
def move (s : System α) (targets : List Int) (n : Nat) : Except Fault (System α) := do
  if targets.length = s.width then s.relabel (← targetsWithin targets n) n
  else throw (.columnTargets s.width targets.length)

/-- One row per target, with a single one in that column. -/
def selection (targets : List Int) (n : Nat) : Except Fault (Matrix α) := do
  return Matrix.selection (← targetsWithin targets n) n

/-- Matrices below one another, none wider than `n`. -/
def stackRows (n : Nat) (ms : List (Matrix α)) : Except Fault (Matrix α) :=
  match Matrix.tooWide? n ms with
  | some c => throw (.blockWidth c n)
  | none => pure (Matrix.stack n ms)

/-- The number of `true` before each place: the new column of every column that is kept. -/
def ranks (keep : List Bool) : Array Nat :=
  (keep.foldl (fun (acc : Array Nat × Nat) k => (acc.1.push acc.2, if k then acc.2 + 1 else acc.2))
    (#[], 0)).1

/-- The entries of the columns that are kept, renumbered in order. -/
def restrict (keep : Array Bool) (rank : Array Nat) (r : Row α) : Row α :=
  (r.filter fun t => keep.getD t.1 false).map fun t => (rank.getD t.1 0, t.2)

/-- Whether a row has weight in the columns that `p` holds of. -/
def touches (p : Nat → Bool) (r : Row α) : Bool :=
  Scalar.hasMass ((r.filter fun t => p t.1).map (·.2))

/-- The columns `0 .. n - 1` in which the rows together have weight. -/
def usedColumns (n : Nat) (rows : List (Row α)) : List Bool :=
  let entries := rows.flatten
  (List.range n).map fun c => touches (· = c) entries

/-- The members of `as` at the places marked in `keep`. -/
def select {β : Type} (keep : List Bool) (as : List β) : List β :=
  (as.zip keep).filterMap fun (a, k) => if k then some a else none

/-- Restricts a system to the variables that are kept, renumbered in order. A monomial that involves
a dropped variable goes, every equation that uses such a monomial goes with it, and so does a
monomial that no remaining equation uses. -/
def trim (s : System α) (keep : List Bool) : Except Fault (System α) :=
  if keep.length = s.width then
    let kept := (keep.filter id).length
    if s.isEmpty then pure (empty kept)
    else
      let keepA := keep.toArray
      let removed := s.monomials.map (touches fun c => !keepA.getD c false)
      let removedA := removed.toArray
      let equations := s.equations.filter fun r => !touches (fun c => removedA.getD c false) r
      let used := List.zipWith (fun u r => u && !r) (usedColumns s.monomials.length equations) removed
      let rank := ranks keep
      let monomials := (select used s.monomials).map (restrict keepA rank)
      pure ⟨kept, monomials, equations.map (restrict used.toArray (ranks used))⟩
  else throw (.maskLength keep.length s.width)

/-- Systems over the same `n` variables, each with monomials of its own. -/
def combine (n : Nat) (ss : List (System α)) : Except Fault (System α) :=
  match Matrix.tooWide? n (ss.map exponents) with
  | some c => throw (.blockWidth c n)
  | none => pure ⟨n, ss.flatMap monomials, (Matrix.diagonal (ss.map coefficients)).rows⟩

def widest (ss : List (System α)) : Nat := Matrix.widest (ss.map exponents)

/-- Systems with variables of their own, one after the other. -/
def directSum (ss : List (System α)) : System α :=
  let p := Matrix.diagonal (ss.map exponents)
  ⟨p.cols, p.rows, (Matrix.diagonal (ss.map coefficients)).rows⟩

/-- `n` independent copies of a system. No copies leave no variables. -/
def replicate (s : System α) (n : Nat) : System α :=
  ⟨n * s.width, (s.exponents.repeated n).rows, (s.coefficients.repeated n).rows⟩

end System

/-- Linear rows over `width` variables, gathered one by one. -/
structure LinearRows (α : Type) where
  width : Nat
  rows : List (List (Int × α)) := []
  deriving Repr

namespace LinearRows

variable {α : Type} [Scalar α]

/-- Adds a row; terms with a zero coefficient are left out. -/
def add (l : LinearRows α) (terms : List (Int × α)) : LinearRows α :=
  { l with rows := l.rows ++ [terms.filter fun t => !Scalar.isZero t.2] }

/-- The equations of rows whose monomials start at place `k`. -/
def equations (k : Nat) : List (List (Int × α)) → List (Row α)
  | [] => []
  | r :: rs => (r.zipIdx.map fun (t, i) => (k + i, t.2)) :: equations (k + r.length) rs

/-- The system of the rows, with one monomial per term. -/
def system (l : LinearRows α) : Except Fault (System α) :=
  let columns : List Int := l.rows.flatten.map (·.1)
  if columns.all fun c => 0 ≤ c && c < l.width then
    pure ⟨l.width, columns.map fun c => [(c.toNat, 1)], equations 0 l.rows⟩
  else throw .columnOutside

end LinearRows

end Transcription
