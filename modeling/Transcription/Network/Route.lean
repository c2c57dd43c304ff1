import Transcription.Block.Kind
import Transcription.Diagram.Dimensions

namespace Transcription.Diagram

/-- A scalar of an outport: the port and the place in its signal. -/
abbrev Tap := Port × Int

/-- The scalars `start .. start + width - 1` of a port. -/
def taps (p : Port) (start width : Int) : List Tap :=
  (List.range width.toNat).map fun (i : Nat) => (p, start + i)

/-- The scalars of what drives an inport, as many as the outport `p` carries. -/
def passed (d : Diagram) (p inport : Port) : Except Fault (List Tap) := do
  let source ← d.driver inport
  return taps source 0 (← d.portWidth p)

def drivenTaps (d : Diagram) (inport : Port) : Except Fault (List Tap) := do
  let source ← d.driver inport
  return taps source 0 (← d.portWidth source)

/-- The scalars of a demultiplexer's outport, which follow those of the outports before it. -/
def splitTaps (d : Diagram) (p : Port) : Except Fault (List Tap) := do
  let source ← d.driver (← d.port .inport p.block 1)
  let before ← ((d.outports p.block).take (p.number - 1)).mapM d.portWidth
  return taps source (sumWidths before) (← d.portWidth p)

/-- The scalars that an outport of a rerouting block carries. -/
def route (d : Diagram) (p : Port) : Except Fault (List Tap) := do
  let b := d.block p.block
  let broken (reason : Broken) : Fault := .connection b.path reason
  match b.type with
  | "SubSystem" =>
    match ← d.innerPort? p.block "Outport" p.number with
    | none => throw (broken (.noOutport p.number))
    | some inner => d.passed p (← d.port .inport inner 1)
  | "Inport" =>
    let n ← (← d.required p.block "Port").toInt
    match b.parent with
    | none => throw (broken (.noInport n))
    | some parent =>
      if (d.block parent).inports < n then throw (broken (.noInport n))
      d.passed p (← d.port .inport parent n)
  | "From" =>
    match ← d.goto? p.block with
    | none => throw (broken (.noGoto (← d.required p.block "GotoTag")))
    | some goto => d.passed p (← d.port .inport goto 1)
  | "Mux" => return (← (d.inports p.block).mapM d.drivenTaps).flatten
  | _ => d.splitTaps p

end Transcription.Diagram
