import Transcription.Integration.Coupling

namespace Transcription

inductive Share where
  | phase (p : Phase)
  | coupling
  deriving DecidableEq, Repr

def Share.name : Share → String
  | phase p => p.name
  | coupling => "coupling"

structure Equalities (α : Type) where
  system : System α
  /-- The equations of all blocks over all nets. -/
  step : System α
  /-- The equations over the nets that are live in a phase. -/
  phases : List (Phase × System α)
  /-- The number of rows that each share comes to. -/
  counts : List (Share × Nat)

namespace Network

variable {α : Type} [Scalar α]

/-- The equations of a block over all nets, if it has some and they fit its wires. -/
def netSystem? (n : Network α) (b : TracedBlock α) : Except Fault (Option (System α)) := do
  let nets := (b.inputs ++ b.outputs).map n.wires.netOf
  if b.kind = .primitive && !b.system.isEmpty && nets.length = b.system.width then
    return some (← b.system.relabel nets n.wires.netCount)
  else return none

/-- The equations of all blocks over all nets. -/
def stepSystem (n : Network α) : Except Fault (System α) := do
  let systems ← n.blocks.blocks.mapM n.netSystem?
  System.combine n.wires.netCount (systems.filterMap id)

/-- The part of a step's system that is live at a step of a grid. -/
def trimAt (g : Grid α) (step : System α) (t : Nat) : Except Fault (System α) :=
  step.trim (stepMask g.live g.steps t)

/-- The parts of the first, the middle and the last steps. A lone step has one part only, and two
steps have no middle. -/
def majorPhases (g : Grid α) (step : System α) : Except Fault (List (MajorPhase × System α)) := do
  let initial ← trimAt g step 1
  if g.steps = 1 then return [(.initial, initial)]
  let final ← trimAt g step g.steps
  let middle ← if 2 < g.steps then trimAt g step 2 else pure (System.empty 0)
  return [(.initial, initial), (.intermediate, middle), (.final, final)]

/-- How many steps a part stands for. -/
def copies (g : Grid α) : MajorPhase → Nat
  | .intermediate => g.steps - 2
  | _ => 1

/-- The parts of all steps side by side, before entries are merged. -/
def unfolded (g : Grid α) (parts : List (MajorPhase × System α)) : System α :=
  System.directSum (parts.map fun (p, s) => match p with
    | .intermediate => s.replicate (copies g p)
    | _ => s)

/-- Notes every integrator that no stages integrate. -/
def noteIdle (n : Network α) (g : Grid α) : Noted α Unit :=
  if g.stages = 0 then
    ((n.blocks.ofKinds [.integrator]).map (·.2)).forM fun b =>
      Noted.note .idleIntegrator (n.path b)
  else pure ()

/-- The equalities of a network over a grid, in which a step is `dt` long. The part of the equations that is
live at middle steps is repeated for each of them, the steps are placed side by side, and entries that share
a variable are merged. Stages repeat the part that is live in them, and rows couple them with the steps. -/
def equalities (n : Network α) (g : Grid α) (tableau : Option (Tableau α)) (dt : α) :
    Noted α (Equalities α) := do
  let step ← n.stepSystem
  let parts ← majorPhases g step
  let major ← (unfolded g parts).relabel g.labels g.majorCount
  let phases := parts.map fun (p, s) => (Phase.major p, s)
  let counts := parts.map fun (p, s) => (Share.phase (.major p), copies g p * s.equations.length)
  n.noteIdle g
  if g.stages = 0 then return { system := major, step, phases, counts }
  match tableau.filter fun t => t.stages = g.stages with
  | none => Noted.ofResult (throw .tableauMismatch)
  | some t =>
    let part ← step.trim (minorMask g.live)
    let minor := part.replicate (g.intervals * g.stages)
    let rows ← n.couplingRows g t dt
    let system ← System.combine g.size [System.directSum [major, minor], ← rows.system]
    return {
      system, step
      phases := phases ++ [(.minor, part)]
      counts := counts ++
        [(.phase .minor, minor.equations.length), (.coupling, rows.rows.length)] }

end Network

end Transcription
