import Transcription.Integration.Settings
import Transcription.Network.Trace
import Transcription.Program.Basic

namespace Transcription

inductive Stage where
  | discovery
  | canonicalization
  | propagation
  | expansion
  | assembly
  | program
  deriving DecidableEq, Repr

namespace Stage

/-- The short name by which a stage is asked for. -/
def key : Stage → String
  | discovery => "discover"
  | canonicalization => "canonicalize"
  | propagation => "phases"
  | expansion => "expand"
  | assembly => "assemble"
  | program => "nlp"

/-- The name under which the time of a stage is listed. -/
def title : Stage → String
  | discovery => "Graph discovery"
  | canonicalization => "Canonicalization"
  | propagation => "Phase propagation"
  | expansion => "Horizon expansion"
  | assembly => "Polynomial assembly"
  | program => "NLP assembly"

def all : List Stage := [discovery, canonicalization, propagation, expansion, assembly, program]

def ofKey? (s : String) : Option Stage := all.find? fun g => g.key = s

def upTo (g : Stage) : List Stage := all.take (all.idxOf g + 1)

end Stage

structure RunOptions (α : Type) where
  horizon : Int
  stepSize : α
  hold : Hold
  /-- The tableau, or why there is none. -/
  tableau : Except Fault (Option (Tableau α))
  /-- Whether intervals have stages, where the tableau is not to say so. -/
  minor : Option Bool := none
  /-- The phases of every net, where they are not to be worked out. -/
  live : Option (List PhaseSet) := none
  /-- The number of stages, where the tableau is not to say so. -/
  stages : Option Nat := none
  /-- The last stage to be run. -/
  last : Stage := .program

structure Run (α : Type) [Scalar α] where
  traced : Option (Network α) := none
  /-- The number of nets, and the network with its nets merged. -/
  merged : Option (Nat × Network α) := none
  live : Option (List PhaseSet) := none
  grid : Option (Grid α) := none
  equalities : Option (Equalities α) := none
  program : Option (Program α) := none
  diagnostics : List (Diagnostic α) := []
  failure : Option (Stage × Fault) := none

namespace Run

variable {α : Type} [Scalar α]

/-- Adds the outcome of a stage, and goes on if it is not the last one. -/
def step {β : Type} (o : RunOptions α) (stage : Stage) (outcome : Noted α β) (keep : β → Run α → Run α)
    (next : β → Run α → Run α) (r : Run α) : Run α :=
  let r := { r with diagnostics := r.diagnostics ++ outcome.notes }
  match outcome.result with
  | .error e => { r with failure := some (stage, e) }
  | .ok b => if o.last = stage then keep b r else next b (keep b r)

def mergeWires (n : Network α) : Noted α (Nat × Network α) := do
  let (count, wires) ← n.wires.canonicalize n.diagram.path
  return (count, { n with wires })

/-- The tableau and the phases of every net. -/
def propagate (o : RunOptions α) (n : Network α) : Noted α (Option (Tableau α) × List PhaseSet) := do
  let tableau ← o.tableau
  return (tableau, n.liveness (o.minor.getD tableau.isSome))

/-- Runs all stages up to the last one asked for. -/
def ofDiagram (o : RunOptions α) (d : Diagram) : Run α :=
  step o .discovery (d.trace o.hold) (fun n r => { r with traced := some n })
    (fun n => step o .canonicalization (mergeWires n) (fun m r => { r with merged := some m })
      fun (_, n) => step o .propagation (propagate o n) (fun p r => { r with live := some p.2 })
        fun (tableau, live) =>
          let n := n.withLiveness live
          let stages := o.stages.getD ((tableau.map (·.stages)).getD 0)
          step o .expansion (n.expand (o.live.getD live) o.horizon stages)
            (fun g r => { r with grid := some g })
            fun g => step o .assembly (n.equalities g tableau o.stepSize)
              (fun e r => { r with equalities := some e })
              fun e => step o .program (Noted.ofResult (Program.build n g e.system))
                (fun p r => { r with program := some p }) fun _ r => r) {}

/-- The options of a full run under given settings. -/
def optionsOf (s : Settings α) : RunOptions α :=
  { horizon := s.horizon, stepSize := s.stepSize, hold := s.hold, tableau := pure s.tableau }

def stages (r : Run α) : List Stage :=
  match r.failure with
  | some (g, _) => g.upTo
  | none => Stage.all

end Run

end Transcription
