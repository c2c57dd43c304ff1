import Transcription.Block.Equation
import Transcription.Block.Table
import Transcription.Noted

namespace Transcription.Diagram

variable {α : Type} [Scalar α]

def isOn (v : Value) : Except Fault Bool :=
  match v with
  | .bool b => pure b
  | v => v.isWord "on"

/-- The parameter that switches a sink on in a phase. -/
def phaseParam : MajorPhase → String
  | .initial => "initial_step"
  | .intermediate => "intermediate_step"
  | .final => "final_step"

/-- The phases that a sink applies to; it is switched on where nothing is said. -/
def sinkPhases (d : Diagram) (i : Nat) : Except Fault PhaseSet := do
  let on ← MajorPhase.all.filterM fun p => isOn (d.param i (phaseParam p) (.text "on"))
  return .ofList (on.map Phase.major)

/-- An input from outside: its windows, and how it is held between steps. -/
def boundaryRecord (d : Diagram) (hold : Hold) (i : Nat) (kind : BlockKind) :
    Except Fault (TracedBlock α) := do
  let (period, offset) ← Period.ofValue (d.param i "move_blocking_info" .none)
  let hold ← match d.param i "interpType" .none with
    | .none => pure hold
    | v => Hold.ofValue v
  return { source := i, kind, period, offset, hold := some hold }

/-- A primitive block; an operation without a polynomial form is noted and has no equations. -/
def primitiveRecord (d : Diagram) (i : Nat) : Noted α (TracedBlock α) :=
  match d.equations i with
  | .ok system => pure { source := i, kind := .primitive, system }
  | .error (.unsupported operation) => do
    Noted.note (.unsupported operation) (d.path i)
    return { source := i, kind := .primitive }
  | .error e => Noted.ofResult (throw e)

/-- The record of a block; `hold` is that of inputs that do not say how they are held. -/
def record (d : Diagram) (hold : Hold) (i : Nat) : Noted α (TracedBlock α) := do
  let kind := BlockKind.of (d.block i)
  match kind with
  | .primitive => d.primitiveRecord i
  | .input | .external => d.boundaryRecord hold i kind
  | .delay => return { source := i, kind, hold := some .zeroOrder }
  | .bound | .cost => return { source := i, kind, sinkPhases := ← d.sinkPhases i }
  | _ => return { source := i, kind }

end Transcription.Diagram
