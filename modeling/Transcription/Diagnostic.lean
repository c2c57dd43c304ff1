import Transcription.Fault
import Transcription.Phase

namespace Transcription

inductive DiagnosticKind where
  | unsupported
  | aliasCycle
  | infeasibleBound
  | structural
  deriving DecidableEq, Repr

namespace DiagnosticKind

def name : DiagnosticKind → String
  | unsupported => "unsupported"
  | aliasCycle => "alias-cycle"
  | infeasibleBound => "infeasible-bound"
  | structural => "structure"

def all : List DiagnosticKind := [unsupported, aliasCycle, infeasibleBound, structural]

def ofName (s : String) : Except Fault DiagnosticKind :=
  match all.find? fun k => k.name = s with
  | some k => pure k
  | none => throw (.diagnosticKind s)

end DiagnosticKind

/-- The rows that tie the stages of an interval to its ends. -/
inductive Coupling where
  | increment
  | stage
  | firstOrder
  | zeroOrder
  deriving DecidableEq, Repr

def Coupling.name : Coupling → String
  | increment => "Runge-Kutta"
  | stage => "Runge-Kutta stage"
  | firstOrder => "first-order hold"
  | zeroOrder => "zero-order hold"

inductive Finding (α : Type) where
  | unsupported (operation : Unsupported)
  /-- Following aliases from a wire leads back to it. -/
  | aliasCycle (wire : Nat)
  /-- A net is bounded below above where it is bounded above, in each of these phases. -/
  | emptyInterval (net : Nat) (phases : List (MajorPhase × Limit α × Limit α))
  /-- Steps that were merged have bounds that exclude one another. -/
  | mergedInterval (index : Nat) (lower upper : Limit α)
  | boundLength (parameter : String) (size signals : Nat)
  | outputCount (wires : Nat) (outputs : Int)
  | inputCount (wires : Nat) (inputs : Int)
  | foreignOutput (wire : Nat)
  | systemWidth (columns : Nat) (signals : Int)
  | delayInput (step : Nat)
  | missingCoupling (coupling : Coupling)
  | idleIntegrator
  /-- A remark in words of its own. -/
  | remark (kind : DiagnosticKind) (text : String)

structure Diagnostic (α : Type) where
  finding : Finding α
  block : Option String := none

namespace Finding

variable {α : Type}

def kind : Finding α → DiagnosticKind
  | unsupported _ => .unsupported
  | aliasCycle _ => .aliasCycle
  | emptyInterval .. => .infeasibleBound
  | mergedInterval .. => .infeasibleBound
  | remark k _ => k
  | _ => .structural

def limitText : Limit Float → String
  | .negInf => "-inf"
  | .finite x => Numeral.ofFloat x
  | .posInf => "inf"

def phaseText : MajorPhase × Limit Float × Limit Float → String
  | (p, lower, upper) => s!"{p.name} ({limitText lower} > {limitText upper})"

def message : Finding Float → String
  | unsupported operation => operation.message
  | aliasCycle i => s!"Alias cycle through variable {i} collapsed to one variable"
  | emptyInterval net phases =>
    s!"Variable {net} has lower bound above upper bound at the " ++
      s!"{commaSeparated (phases.map phaseText)} step"
  | mergedInterval i lower upper =>
    s!"Horizon variable {i} has lower bound {limitText lower} above upper " ++
      s!"bound {limitText upper} after merging across steps"
  | boundLength parameter size signals => s!"Bound {parameter} of length {size} on {signals} signals"
  | outputCount wires outputs => s!"{wires} output variables for {outputs} outputs"
  | inputCount wires inputs => s!"{wires} input variables for {inputs} inputs"
  | foreignOutput wire => s!"Output variable {wire} belongs to another block"
  | systemWidth columns signals => s!"Local constraint has {columns} columns for {signals} signals"
  | delayInput step => s!"Delay output at step {step} has no input at step {step - 1}"
  | missingCoupling c => s!"Missing variable for {c.name} coupling"
  | idleIntegrator =>
    "Integrator has no effect without a multi-stage integration method " ++
      "and a horizon of at least 2"
  | remark _ text => text

end Finding

namespace Diagnostic

def kind {α : Type} (d : Diagnostic α) : DiagnosticKind := d.finding.kind

def message (d : Diagnostic Float) : String := d.finding.message

/-- The line that a diagnostic is listed with. -/
def line (d : Diagnostic Float) : String :=
  match d.block with
  | none => s!"[{d.kind.name}] {d.message}"
  | some b => s!"[{d.kind.name}] {b}: {d.message}"

end Diagnostic

end Transcription
