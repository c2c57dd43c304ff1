import Transcription.Fault

namespace Transcription

namespace Tensor

def scalar (x : Float) : Tensor := ⟨[], [x]⟩

def size (t : Tensor) : Nat := t.data.length

/-- The entries row by row. A lone number counts as one row of one entry, and a vector as one row. -/
def matrix? (t : Tensor) : Option (Matrix Float) :=
  match t.shape with
  | [] => some (Matrix.ofDense 1 [t.data])
  | [n] => some (Matrix.ofDense n [t.data])
  | [r, c] => some (Matrix.ofDense c ((List.range r).map fun i => (t.data.drop (i * c)).take c))
  | _ => none

/-- The rows of a matrix written out; a vector is one row, and an empty one is no row at all. -/
def rows? (t : Tensor) : Option (Matrix Float) :=
  if t.shape = [0] then some (Matrix.zero 0 0) else t.matrix?

/-- The first `n` entries, a lone one repeated; none when the array has another length. -/
def spread? (t : Tensor) (n : Nat) : Option (List Float) :=
  match t.data with
  | [x] => some (List.replicate n x)
  | xs => if xs.length = n then some xs else none

end Tensor

namespace Value

mutual

/-- The shape a value has as an array; a list has as many rows as members, all of one shape. -/
def shape : Value → Except Fault (List Nat)
  | list vs => shapeAll vs
  | tuple vs => shapeAll vs
  | tensor t => pure t.shape
  | _ => pure []

def shapeAll : List Value → Except Fault (List Nat)
  | [] => pure [0]
  | [v] => do return 1 :: (← shape v)
  | v :: vs => do
    let s ← shape v
    match ← shapeAll vs with
    | n :: t => if s = t then pure ((n + 1) :: s) else throw .ragged
    | [] => throw .ragged

end

/-- A single value as a double. Nothing at all reads as not-a-number. -/
def double : Value → Except Fault Float
  | none => pure Numeral.notANumber
  | bool b => pure (if b then 1 else 0)
  | int n => match Binary64.ofInt? n with
    | some x => pure x
    | Option.none => throw .tooLarge
  | float x => pure x
  | text s => match Numeral.toFloat? s with
    | some x => pure x
    | Option.none => throw .notANumber
  | other (.bytes s) => match Numeral.toFloat? (String.ofList s) with
    | some x => pure x
    | Option.none => throw .notANumber
  | sparse _ => throw .ragged
  | _ => throw .wrongKind

mutual

def doubles : Value → Except Fault (List Float)
  | list vs => doublesAll vs
  | tuple vs => doublesAll vs
  | tensor t => pure t.data
  | v => do return [← double v]

def doublesAll : List Value → Except Fault (List Float)
  | [] => pure []
  | v :: vs => do return (← doubles v) ++ (← doublesAll vs)

end

def tensor? (v : Value) : Except Fault Tensor := do
  let s ← v.shape
  return ⟨s, ← v.doubles⟩

def matrix : Value → Except Fault (Matrix Float)
  | sparse m => pure m
  | v => do
    match (← v.tensor?).rows? with
    | some m => return m
    | Option.none => throw .wrongKind

def size : Value → Except Fault Nat
  | sparse m => pure m.stored
  | v => do return (← v.shape).foldl (· * ·) 1

/-- A double cut to an integer. -/
def integerOf (x : Float) : Except Fault Int :=
  if x.isNaN then throw .noInteger
  else if x.isInf then throw .tooLarge
  else pure (Binary64.truncate x)

/-- A value as an integer; fractions are cut off and numerals read. -/
def toInt : Value → Except Fault Int
  | bool b => pure b.toInt
  | int n => pure n
  | float x => integerOf x
  | text s => match Numeral.toInt? s with
    | some n => pure n
    | Option.none => throw .notANumber
  | other (.bytes s) => match Numeral.toInt? (String.ofList s) with
    | some n => pure n
    | Option.none => throw .notANumber
  | tensor t => match t.data with
    | [x] => integerOf x
    | _ => throw .wrongKind
  | _ => throw .wrongKind

/-- A value as one double; an array only if it has a single entry. -/
def toFloat : Value → Except Fault Float
  | none => throw .wrongKind
  | tensor t => match t.data with
    | [x] => pure x
    | _ => throw .wrongKind
  | list _ | tuple _ | sparse _ => throw .wrongKind
  | v => double v

end Value

end Transcription
