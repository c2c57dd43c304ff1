import Transcription.Network.Basic

namespace Transcription.Network

variable {α : Type} [Scalar α]

/-- Notes a finding at a block where a condition fails. -/
def expect (n : Network α) (b : TracedBlock α) (ok : Bool) (f : Finding α) : Noted α Unit :=
  if ok then pure () else Noted.note f (n.path b)

def totalWidth (d : Diagram) (ports : List Port) : Except Fault Int := do
  return Diagram.sumWidths (← ports.mapM d.portWidth)

/-- Compares the wires that leave a block with its outports, which are `width` wide. -/
def checkOutputs (n : Network α) (place : Nat) (b : TracedBlock α) (width : Int) : Noted α Unit := do
  n.expect b (b.outputs.length = width) (.outputCount b.outputs.length width)
  b.outputs.forM fun i =>
    n.expect b ((n.wires.wires[i]?).all fun w => w.block = place) (.foreignOutput i)

/-- Compares the wires that lead into a block with its inports, which are `width` wide. -/
def checkInputs (n : Network α) (b : TracedBlock α) (width : Int) : Noted α Unit :=
  n.expect b (b.inputs.length = width) (.inputCount b.inputs.length width)

/-- Compares the equations of a block with its signals. -/
def checkSystem (n : Network α) (b : TracedBlock α) (signals : Int) : Noted α Unit :=
  n.expect b (b.system.isEmpty || b.system.width = signals) (.systemWidth b.system.width signals)

def checkBlock (n : Network α) (place : Nat) (b : TracedBlock α) : Noted α Unit := do
  if b.kind.isReroute then return
  let outputs ← totalWidth n.diagram (n.diagram.outports b.source)
  n.checkOutputs place b outputs
  if b.kind.isBoundary then return
  let inputs ← totalWidth n.diagram (n.diagram.inports b.source)
  n.checkInputs b inputs
  n.checkSystem b (inputs + outputs)

def check (n : Network α) : Noted α Unit :=
  n.blocks.entries.forM fun (place, b) => n.checkBlock place b

end Transcription.Network
