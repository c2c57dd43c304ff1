import Transcription.Diagram.Edit

namespace Transcription

inductive BlockKind where
  | primitive
  | bound
  | cost
  | input
  | external
  | delay
  | integrator
  | mux
  | demux
  | subsystemBoundary
  | route
  deriving DecidableEq, Repr

namespace BlockKind

def name : BlockKind → String
  | primitive => "primitive"
  | bound => "bound"
  | cost => "cost"
  | input => "input"
  | external => "external"
  | delay => "delay"
  | integrator => "integrator"
  | mux => "mux"
  | demux => "demux"
  | subsystemBoundary => "subsystem-boundary"
  | route => "route"

def all : List BlockKind :=
  [primitive, bound, cost, input, external, delay, integrator, mux, demux, subsystemBoundary, route]

def ofName? (s : String) : Option BlockKind := all.find? fun k => k.name = s

/-- Kinds whose outputs are signals of other blocks. -/
def isReroute : BlockKind → Bool
  | mux | demux | subsystemBoundary | route => true
  | _ => false

/-- Kinds at which a model ends: their values come from outside. -/
def isBoundary : BlockKind → Bool
  | input | external => true
  | _ => false

/-- Kinds from which a model is traced back. -/
def isSink : BlockKind → Bool
  | bound | cost => true
  | _ => false

/-- Kinds whose outputs carry over from step to step. -/
def isState : BlockKind → Bool
  | delay | integrator => true
  | _ => false

/-- The kind of a block by its reference, and by its type where the reference says nothing. -/
def of (b : Diagram.Block) : BlockKind :=
  let isOneOf (rs : List String) : Bool := (b.reference.map rs.contains).getD false
  if isOneOf [Diagram.boundReference] then bound
  else if isOneOf [Diagram.costReference] then cost
  else if isOneOf Diagram.inputReferences then input
  else if isOneOf Diagram.externalReferences then external
  else if isOneOf [Diagram.polyReference] then primitive
  else if b.type = "SubSystem" && b.reference.isNone then subsystemBoundary
  else if b.type = "Inport" && b.parent.isSome then subsystemBoundary
  else match b.type with
    | "From" => route
    | "Mux" => mux
    | "Demux" => demux
    | "UnitDelay" => delay
    | "Integrator" => integrator
    | _ => primitive

end BlockKind

/-- How the value of an input is continued between two steps. -/
inductive Hold where
  | zeroOrder
  | firstOrder
  deriving DecidableEq, Repr

namespace Hold

def name : Hold → String
  | zeroOrder => "Zero-Order Hold"
  | firstOrder => "First-Order Hold"

/-- A hold from its short or its full name. -/
def ofValue (v : Value) : Except Fault Hold :=
  if !v.isKey then throw .wrongKind
  else match v with
    | .text "ZOH" | .text "Zero-Order Hold" => pure zeroOrder
    | .text "FOH" | .text "First-Order Hold" => pure firstOrder
    | v => throw (.holdType v)

end Hold

end Transcription
