import Transcription.Horizon.Step
import Transcription.Scalar

namespace Transcription

structure Entry (α : Type) where
  net : Nat
  /-- The step, from 1 on; of a minor entry, the step at which its interval starts. -/
  step : Nat
  /-- 0 for a major entry, or the stage from 1 on. -/
  stage : Nat
  lower : Limit α
  upper : Limit α
  cost : α
  /-- The variable that the entry is a value of. -/
  index : Nat

structure Grid (α : Type) where
  steps : Nat
  stages : Nat
  /-- The phases that every net is live in. -/
  live : List PhaseSet
  entries : List (Entry α)
  /-- The step and net of each major entry. -/
  slots : List (Nat × Nat)
  /-- The variable of each major entry. -/
  labels : List Nat
  majorCount : Nat
  /-- The nets that are live in the stages of an interval. -/
  minorNets : List Nat
  lower : List (Limit α)
  upper : List (Limit α)
  cost : List α

namespace Grid

variable {α : Type}

def intervals (g : Grid α) : Nat := if g.stages = 0 then 0 else g.steps - 1

def size (g : Grid α) : Nat := g.majorCount + g.intervals * g.stages * g.minorNets.length

/-- The place of a net at a step among the major entries. -/
def entry? (g : Grid α) (net step : Nat) : Option Nat := g.slots.idxOf? (step, net)

/-- The variable of a net at a step. -/
def index? (g : Grid α) (net step : Nat) : Option Nat :=
  (g.entry? net step).bind fun e => g.labels[e]?

/-- The first variable of a stage of an interval, when every stage has `minors` of them. -/
def stageBase (majorCount stages minors interval stage : Nat) : Nat :=
  majorCount + ((interval - 1) * stages + (stage - 1)) * minors

/-- The variable of a net at a stage of an interval, both counted from 1. -/
def minorIndex? (g : Grid α) (net interval stage : Nat) : Option Nat :=
  (g.minorNets.idxOf? net).bind fun rank =>
    if 1 ≤ interval && interval ≤ g.intervals && 1 ≤ stage && stage ≤ g.stages then
      some (stageBase g.majorCount g.stages g.minorNets.length interval stage + rank)
    else none

def entriesAt (g : Grid α) (index : Nat) : List (Entry α) :=
  g.entries.filter fun e => e.index = index

/-- The variables of some nets, one row per net with a variable for every step it is live at. -/
def indexMatrix (g : Grid α) (nets : List Nat) : List (List (Option Nat)) :=
  nets.map fun net => (stepsFrom 1 g.steps).map fun t => g.index? net t

end Grid

end Transcription
