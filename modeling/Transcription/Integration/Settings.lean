import Transcription.Block.Kind
import Transcription.Integration.Tableau

namespace Transcription

structure Settings (α : Type) where
  horizon : Nat
  stepSize : α
  /-- The name of the method, or `None` when there are no stages. -/
  method : String
  tableau : Option (Tableau α)
  hold : Hold
  warnings : List String

namespace Settings

variable {α : Type} [Scalar α]

/-- A number of steps: a positive integer, or a number equal to one. -/
def horizonOf (v : Value) : Except Fault Nat := do
  let n ← v.toInt
  if !(← (Value.int n).same v) || n < 1 then throw (.horizonNotPositive v)
  return n.toNat

def holdOf (v : Value) : Except Fault Hold := do
  if ← v.isWord "ZOH" then return .zeroOrder
  if ← v.isWord "FOH" then return .firstOrder
  throw (.defaultHold v)

/-- Checks settings in the order of the horizon, the step size, the hold and the method. -/
def ofValues (horizon : Value) (stepSize : Float) (method : Value)
    (supply : Option (Tableau.Supply α)) (hold : Value) : Except Fault (Settings α) := do
  let steps ← horizonOf horizon
  if !(0 < stepSize) then throw (.stepSize stepSize)
  let hold ← holdOf hold
  let tableau ← Tableau.ofMethod method supply
  return {
    horizon := steps
    stepSize := Scalar.ofFloat stepSize
    method := if tableau.isSome then method.plain else "None"
    tableau, hold
    warnings := (Tableau.warning? method).toList }

def stages (s : Settings α) : Nat := (s.tableau.map (·.stages)).getD 0

end Settings

end Transcription
