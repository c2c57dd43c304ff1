import Transcription.Value.Equality
import Transcription.Value.Tensor

namespace Transcription

/-- How the stages of an interval are coupled with one another, how they weigh in the step across it, and at
which fraction of it they lie. -/
structure Tableau (α : Type) where
  coupling : List (List α)
  weights : List α
  times : List α
  deriving Repr

namespace Tableau

variable {α : Type} [Scalar α]

def stages (t : Tableau α) : Nat := t.weights.length

/-- The first `r` rows of `c` entries each. -/
def chunks (c r : Nat) (xs : List α) : List (List α) :=
  (List.range r).map fun i => (xs.drop (i * c)).take c

/-- The shape of an array that counts as a matrix. -/
def matrixShape : List Nat → List Nat
  | [] => [1, 1]
  | [n] => [1, n]
  | s => s

/-- A tableau from its parts, which must agree on the number of stages. -/
def ofValues (coupling weights times : Value) : Except Fault (Tableau α) := do
  let a ← coupling.tensor?
  let b ← weights.tensor?
  let c ← times.tensor?
  let n := b.size
  if n = 0 then throw .tableauEmpty
  if matrixShape a.shape != [n, n] then throw (.tableauCoupling (matrixShape a.shape) n)
  if c.size != n then throw (.tableauTimes [c.size] n)
  return ⟨chunks n n (a.data.map Scalar.ofFloat), b.data.map Scalar.ofFloat,
    c.data.map Scalar.ofFloat⟩

def ratio (p q : Nat) : α := (p : α) / (q : α)

def euler : Tableau α := ⟨[[0]], [1], [0]⟩

def trapez : Tableau α :=
  let h : α := ratio 1 2
  ⟨[[0, 0], [h, h]], [h, h], [0, 1]⟩

def rungeKutta4 : Tableau α :=
  let h : α := ratio 1 2
  ⟨[[0, 0, 0, 0], [h, 0, 0, 0], [0, h, 0, 0], [0, 0, 1, 0]],
    [ratio 1 6, ratio 1 3, ratio 1 3, ratio 1 6], [0, h, h, 1]⟩

def ofName? : String → Option (Tableau α)
  | "Euler" => some euler
  | "Trapez" => some trapez
  | "RK4" => some rungeKutta4
  | _ => none

/-- A tableau handed over: built already, or in parts. -/
inductive Supply (α : Type) where
  | built (t : Tableau α)
  | parts (vs : List Value)

/-- Builds a tableau that was handed over in parts. -/
def Supply.build : Supply α → Except Fault (Tableau α)
  | .built t => pure t
  | .parts [a, b, c] => ofValues a b c
  | .parts _ => throw .wrongKind

/-- The tableau of a method, if it has one: a known one by its name, or for `custom` the one handed
over. A name that is not known stands for none. -/
def ofMethod (method : Value) (supply : Option (Supply α)) : Except Fault (Option (Tableau α)) := do
  if method matches .none then return none
  if ← method.isWord "None" then return none
  if ← method.isWord "custom" then
    match supply with
    | none => throw .tableauMissing
    | some s => return some (← s.build)
  if !method.isKey then throw .wrongKind
  match method with
  | .text name => return ofName? name
  | _ => return none

/-- The warning that a method gives rise to, if it is not known. -/
def warning? (method : Value) : Option String :=
  let isKnown := match method with
    | .none | .text "None" | .text "custom" | .text "Euler" | .text "Trapez" | .text "RK4" => true
    | _ => false
  if isKnown then none
  else some s!"Integration method {method.quoted} not implemented, using 'None'"

end Tableau

end Transcription
