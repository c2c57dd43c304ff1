import Transcription.Diagram.Basic
import Transcription.Value.Tensor

namespace Transcription

namespace Dims

/-- Dimensions from a declaration: a width, or the full list. -/
def ofValue : Value → Except Fault Dims
  | .list vs => vs.mapM Value.toInt
  | .tuple vs => vs.mapM Value.toInt
  | .tensor t => match t.shape with
    | [_] => t.data.mapM Value.integerOf
    | _ => throw .wrongKind
  | .none => throw .wrongKind
  | .sparse _ => throw .wrongKind
  | v => do return [1, ← v.toInt]

end Dims

namespace Diagram

def boundReference : String := "Bound"
def costReference : String := "DiscreteCost"
def inputReferences : List String := ["InputFromWorkspace", "InputFromSimulink"]
def externalReferences : List String := ["ExternalFromWorkspace", "ExternalFromSimulink"]
def polyReference : String := "Polyblock"

/-- The ports of a library block, which follow its reference. -/
def referencePorts? (reference : String) : Option (Int × Int) :=
  if reference = boundReference || reference = costReference then some (1, 0)
  else if reference = polyReference then some (1, 1)
  else if inputReferences.contains reference || externalReferences.contains reference then some (0, 1)
  else none

/-- The ports of a block of a built-in type. -/
def typePorts (type : String) : Int × Int :=
  match type with
  | "Inport" | "From" | "Constant" => (0, 1)
  | "Outport" | "Goto" => (1, 0)
  | "Sum" | "Add" | "Product" | "Mux" => (2, 1)
  | "Gain" | "Bias" | "UnitDelay" | "Integrator" => (1, 1)
  | "Demux" => (1, 2)
  | _ => (0, 0)

/-- A block to be added. Ports that are not given have the number usual for its kind. -/
structure Draft where
  name : String
  type : String := "SubSystem"
  reference : Option String := none
  parent : Option Nat := none
  inports : Option Int := none
  outports : Option Int := none
  outDims : Option (List Value) := none
  params : List (String × Value) := []

def Draft.ports (b : Draft) : Int × Int :=
  let (i, o) := (b.reference.bind referencePorts?).getD (typePorts b.type)
  (b.inports.getD i, b.outports.getD o)

/-- The number of the next port block of a type in a subsystem. -/
def nextPort (d : Diagram) (type : String) (parent : Option Nat) : Nat :=
  (d.blocks.toList.filter fun b => b.parent = parent && b.type = type).length + 1

/-- The parameters of a block; a port block without a number gets the next one. -/
def Draft.numbered (d : Diagram) (b : Draft) : List (String × Value) :=
  let params := collectNamed b.params
  if (b.type = "Inport" || b.type = "Outport") && (params.lookup "Port").isNone then
    setNamed "Port" (.int (d.nextPort b.type b.parent)) params
  else params

def emptyDiagram (name : String) (workspace : List (String × Value)) : Diagram :=
  { name, workspace := collectNamed workspace }

/-- The path of the block that a draft makes. -/
def Draft.path (d : Diagram) (b : Draft) : String :=
  (b.parent.map d.path).getD d.name ++ "/" ++ b.name

/-- The dimensions that a draft declares, one entry per outport if it declares any. -/
def Draft.declared (d : Diagram) (b : Draft) : Except Fault (List (Option Dims)) :=
  let outports := b.ports.2
  match b.outDims with
  | none => pure (List.replicate outports.toNat none)
  | some ds =>
    if (ds.length : Int) = outports then ds.mapM fun v => some <$> Dims.ofValue v
    else throw (.outDimsCount (b.path d) outports ds.length)

/-- The block that a draft makes, or why it makes none. -/
def Draft.block (d : Diagram) (b : Draft) : Except Fault Block := do
  return { name := b.name, type := b.type, path := b.path d, reference := b.reference
           parent := b.parent, params := b.numbered d, inports := b.ports.1.toNat
           outports := ← b.declared d }

def add (d : Diagram) (b : Draft) : Except Fault (Nat × Diagram) := do
  let block ← b.block d
  return (d.blocks.size, { d with blocks := d.blocks.push block, compiled := none })

/-- Draws a line from an outport of one block to an inport of another and returns the outport. -/
def connect (d : Diagram) (source : Nat) (sourcePort : Int) (target : Nat) (targetPort : Int) :
    Except Fault (Port × Diagram) := do
  let out ← d.port .outport source sourcePort
  let inp ← d.port .inport target targetPort
  if (d.source? inp).isSome then throw (.alreadyDriven (d.path target) inp.number)
  return (out, { d with lines := d.lines ++ [⟨out, inp⟩], compiled := none })

def setParam (d : Diagram) (i : Nat) (name : String) (v : Value) : Diagram :=
  { d with blocks := d.blocks.modify i fun b => { b with params := setNamed name v b.params } }

def setWorkspace (d : Diagram) (name : String) (v : Value) : Diagram :=
  { d with workspace := setNamed name v d.workspace }

end Diagram

end Transcription
