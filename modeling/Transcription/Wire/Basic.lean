import Transcription.Diagram.Basic
import Transcription.Phase
import Transcription.Scalar

namespace Transcription

/-- A scalar that an outport carries at a step. Before aliases are resolved every wire is a net of its own;
`rawCost` is the cost put on the wire itself, and `cost` that of its net once nets are merged. -/
structure Wire (α : Type) [Scalar α] where
  /-- The place of the block that the wire leaves. -/
  block : Nat
  port : Port
  /-- The place of the scalar in the signal of its port. -/
  sub : Nat
  net : Nat
  /-- The wire that this one carries the signal of. -/
  aliasOf : Option Int := none
  lower : ByPhase (Limit α) := .constant .negInf
  upper : ByPhase (Limit α) := .constant .posInf
  cost : ByPhase α := .constant 0
  rawCost : ByPhase α := .constant 0
  state : Bool := false
  input : Bool := false
  external : Bool := false
  /-- The phases the wire is live in. -/
  phases : PhaseSet := {}

namespace Wire

variable {α : Type} [Scalar α]

/-- Narrows the bounds of a phase; a wider bound changes nothing. -/
def tighten (w : Wire α) (p : MajorPhase) (lower upper : Limit α) : Wire α :=
  { w with
    lower := w.lower.set p ((w.lower.get p).max lower)
    upper := w.upper.set p ((w.upper.get p).min upper) }

def addCost (w : Wire α) (p : MajorPhase) (weight : α) : Wire α :=
  { w with
    rawCost := w.rawCost.set p (w.rawCost.get p + weight)
    cost := w.cost.set p (w.cost.get p + weight) }

/-- The phases in which no number lies within the bounds. -/
def emptyPhases (w : Wire α) : List MajorPhase :=
  MajorPhase.all.filter fun p => (w.upper.get p).lt (w.lower.get p)

/-- The name of a wire: the path of its block, its port and its place in the signal. -/
def label (w : Wire α) (path : Nat → String) : String :=
  s!"{path w.port.block}:{w.port.number}[{w.sub}]"

end Wire

end Transcription
