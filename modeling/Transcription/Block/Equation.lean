import Transcription.Block.Kind
import Transcription.Block.Operators
import Transcription.Diagram.Dimensions
import Transcription.Poly.System

namespace Transcription

namespace Equation

/-- The width of one input among `length` rows: a scalar is repeated, a vector has a row each. -/
def inputColumns {α : Type} [Scalar α] (length width : Nat) (scale : α) : Matrix α :=
  if width = 1 then ⟨1, List.replicate length (Row.compact [(0, scale)])⟩
  else ⟨width, (List.range width).map fun i => Row.compact [(i, scale)]⟩

/-- The inputs side by side, each times its scale. -/
def broadcast {α : Type} [Scalar α] (length : Nat) : List (Nat × α) → Matrix α
  | [] => Matrix.zero length 0
  | (w, a) :: rest => (inputColumns length w a).beside (broadcast length rest)

/-- The common length of the inputs that are no scalars, or 1. -/
def vectorLength (widths : List Int) : Except Fault Int :=
  match (widths.filter (· != 1)).eraseDups with
  | [] => pure 1
  | [n] => pure n
  | ns => throw (.unsupported (.lengths (ns.mergeSort (· ≤ ·))))

def nat (n : Int) : Except Fault Nat := if n < 0 then throw .negativeSize else pure n.toNat

def constantRow {α : Type} [Scalar α] (n : Nat) (a : α) : Row α :=
  Row.ofDense (List.replicate n a)

def column {α : Type} [Scalar α] (as : List α) : Matrix α := Matrix.ofDense 1 (as.map fun a => [a])

def diagonalOf {α : Type} [Scalar α] (as : List α) : List (Row α) :=
  as.zipIdx.map fun (a, i) => Row.compact [(i, a)]

def scalars {α : Type} [Scalar α] (xs : List Float) : List α := xs.map Scalar.ofFloat

end Equation

namespace Diagram

variable {α : Type} [Scalar α]

open Equation

def inputWidths (d : Diagram) (i : Nat) : Except Fault (List Int) :=
  (d.inports i).mapM d.portWidth

def outputWidth (d : Diagram) (i : Nat) : Except Fault Int := do
  return sumWidths (← (d.outports i).mapM d.portWidth)

/-- The name under which the rule of a block is found. -/
def ruleName (b : Block) : String := if b.reference = some polyReference then polyReference else b.type

def onlyWidth (d : Diagram) (i : Nat) : Except Fault Int := do
  match ← d.inputWidths i with
  | [w] => return w
  | _ => throw .inportCount

/-- Sums with signs. A single vector input into a scalar output adds up its elements. -/
def sumExpression (d : Diagram) (i : Nat) : Except Fault (System α) := do
  let widths ← d.inputWidths i
  let ops ← Operators.parse (d.param i "Inputs" (.text "++")) widths.length ['+', '-']
  let signs := ops.map fun c => if c = '+' then (1 : α) else -1
  let n ← nat (sumWidths widths)
  let identity : Matrix α := Matrix.identity n
  if widths.length = 1 && (← d.outputWidth i) = 1 then
    System.ofMatrices identity ⟨n, [constantRow n (signs.headD 1)]⟩
  else
    let length ← nat (← vectorLength widths)
    if widths.isEmpty then throw .indexOutside
    System.ofMatrices identity (broadcast length ((← widths.mapM nat).zip signs))

/-- Products with exponents. A single vector input into a scalar output multiplies its elements. -/
def productExpression (d : Diagram) (i : Nat) : Except Fault (System α) := do
  let kind := d.param i "Multiplication" (.text "Element-wise(.*)")
  if !(← kind.isWord "Element-wise(.*)") then throw (.unsupported (.multiplication kind))
  let widths ← d.inputWidths i
  let ops ← Operators.parse (d.param i "Inputs" (.text "2")) widths.length ['*', '/']
  let exponents := ops.map fun c => if c = '*' then (1 : α) else -1
  let n ← nat (sumWidths widths)
  if widths.length = 1 && (← d.outputWidth i) = 1 then
    System.ofMatrices ⟨n, [constantRow n (exponents.headD 1)]⟩ (Matrix.identity 1)
  else
    let length ← nat (← vectorLength widths)
    if widths.isEmpty then throw .indexOutside
    System.ofMatrices (broadcast length ((← widths.mapM nat).zip exponents)) (Matrix.identity length)

/-- Constants: every value is a multiple of the constant monomial. -/
def constantExpression (d : Diagram) (i : Nat) : Except Fault (System α) := do
  let value ← (d.param i "Value" (.float 1)).tensor?
  let width ← d.outputWidth i
  if value.size = 1 then let _ ← nat width
  match value.spread? width.toNat with
  | some xs => System.ofMatrices (Matrix.zero 1 0) (column (scalars xs))
  | none => throw (.unsupported (.constantLength value.size width))

/-- Gains: an input times the gain, either of them repeated to the length of the other. -/
def gainExpression (d : Diagram) (i : Nat) : Except Fault (System α) := do
  let kind := d.param i "Multiplication" (.text "Element-wise(K.*u)")
  if !(← kind.isWord "Element-wise(K.*u)") then throw (.unsupported (.gainMultiplication kind))
  let gain ← (d.param i "Gain" (.float 1)).tensor?
  let width ← d.onlyWidth i
  let n ← nat width
  let identity : Matrix α := Matrix.identity n
  if n = 1 then System.ofMatrices identity (column (scalars gain.data))
  else match gain.spread? n with
    | some xs => System.ofMatrices identity ⟨n, diagonalOf (scalars xs)⟩
    | none => throw (.unsupported (.gainLength gain.size width))

/-- Biases: an input plus a multiple of the constant monomial, which comes last. -/
def biasExpression (d : Diagram) (i : Nat) : Except Fault (System α) := do
  let bias ← (d.param i "Bias" (.float 0)).tensor?
  let width ← d.onlyWidth i
  let n ← nat width
  match bias.spread? n with
  | some xs =>
    let identity : Matrix α := Matrix.identity n
    System.ofMatrices (Matrix.stack n [identity, Matrix.zero 1 n])
      (identity.beside (column (scalars xs)))
  | none => throw (.unsupported (.biasLength bias.size width))

/-- A parameter as a matrix: a number is one entry and a vector one row. No entry may lie outside. -/
def matrixParam (d : Diagram) (i : Nat) (name : String) : Except Fault (Matrix α) := do
  let m ← match d.param i name .none with
    | .sparse m => pure m
    | v => match (← v.tensor?).matrix? with
      | some m => pure m
      | none => throw .wrongKind
  if !m.isWithin then throw .columnOutside
  return ⟨m.cols, m.rows.map fun r => r.map fun (c, x) => (c, Scalar.ofFloat x)⟩

def polyExpression (d : Diagram) (i : Nat) : Except Fault (System α) := do
  let tensorOf (name : String) : Except Fault Unit := match d.param i name .none with
    | .sparse _ => pure ()
    | v => do let _ ← v.tensor?
  tensorOf "P"
  tensorOf "K"
  System.ofMatrices (← d.matrixParam i "P") (← d.matrixParam i "K")

/-- The block types that have a rule, in alphabetical order. -/
def supportedTypes : List String :=
  ["Add", "Bias", "Constant", "Gain", polyReference, "Product", "Sum"]

def expression (d : Diagram) (i : Nat) : Except Fault (System α) :=
  match ruleName (d.block i) with
  | "Sum" | "Add" => d.sumExpression i
  | "Product" => d.productExpression i
  | "Constant" => d.constantExpression i
  | "Gain" => d.gainExpression i
  | "Bias" => d.biasExpression i
  | "Polyblock" => d.polyExpression i
  | name => throw (.unsupported (.blockType name))

/-- The equations `expression - output = 0` of a block over its inputs, then its outputs. -/
def equations (d : Diagram) (i : Nat) : Except Fault (System α) := do
  let s : System α ← d.expression i
  let inputs := sumWidths (← d.inputWidths i)
  let outputs ← d.outputWidth i
  if (s.width : Int) != inputs then throw (.unsupported (.inputColumns s.width inputs))
  if (s.equations.length : Int) != outputs then
    throw (.unsupported (.values s.equations.length outputs))
  s.appendOutputs outputs.toNat

end Diagram

end Transcription
