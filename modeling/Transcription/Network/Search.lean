import Transcription.Block.Record
import Transcription.Frontier
import Transcription.Network.Route
import Transcription.Wire.Table

namespace Transcription

/-- A wire that carries the signal of a scalar further up. -/
structure Link where
  wire : Nat
  tap : Diagram.Tap
  deriving Repr

structure Search (α : Type) [Scalar α] where
  blocks : BlockTable α := {}
  wires : WireTable α := {}
  links : List Link := []

/-- What a visit leads to: the search, the outports that need no visit any more, and those to visit. -/
structure Visit (α : Type) [Scalar α] where
  search : Search α
  settled : List Port
  next : List Port

namespace Search

variable {α : Type} [Scalar α]

/-- Registers the outports of the block at place `i`. -/
def registerAll (d : Diagram) (i : Nat) (t : WireTable α) (ports : List Port) :
    Except Fault (WireTable α) :=
  ports.foldlM (fun t q => do return (t.addPort i q (← d.portWidth q)).2) t

/-- Links the wires from `first` on, one to each tap. -/
def linksFrom (first : Nat) (taps : List Diagram.Tap) : List Link :=
  taps.zipIdx.map fun (tap, i) => ⟨first + i, tap⟩

/-- A visit to an outport of a rerouting block. -/
def visitReroute (s : Search α) (d : Diagram) (i : Nat) (p : Port) : Except Fault (Visit α) := do
  let (first, wires) := s.wires.addPort i p (← d.portWidth p)
  let taps ← d.route p
  return ⟨{ s with wires, links := s.links ++ linksFrom first taps }, [], taps.map (·.1)⟩

/-- The first visit to an outport of any other block. -/
def visitBlock (s : Search α) (d : Diagram) (i : Nat) (b : TracedBlock α) :
    Except Fault (Visit α) := do
  let ports := d.outports b.source
  let wires ← registerAll d i s.wires ports
  let next ← if b.kind.isBoundary then pure [] else d.drivers b.source
  return ⟨{ s with wires }, ports, next⟩

def visit (s : Search α) (d : Diagram) (hold : Hold) (p : Port) : Noted α (Visit α) := do
  match s.blocks.find? p.block with
  | some (i, b) => if b.kind.isReroute then s.visitReroute d i p else return ⟨s, [], []⟩
  | none =>
    let b ← d.record hold p.block
    let i := s.blocks.size
    let s := { s with blocks := s.blocks.push b }
    if b.kind.isReroute then s.visitReroute d i p else s.visitBlock d i b

/-- The frontier after a visit to the first of its queue. -/
def advance (f : Frontier Port) (rest : List Port) (v : Visit α) : Frontier Port :=
  (({ f with queue := rest }).settleAll v.settled).offerAll v.next

/-- Visits outports until none is asked for any more. -/
def run (d : Diagram) (hold : Hold) (f : Frontier Port) (s : Search α) : Noted α (Search α) :=
  match _ : f.queue with
  | [] => pure s
  | p :: rest => do
    let v ← s.visit d hold p
    run d hold (advance f rest v) v.search
termination_by f.size
decreasing_by
  refine Nat.lt_of_le_of_lt (Nat.le_trans (Frontier.size_offerAll_le _ _)
    (Frontier.size_settleAll_le _ _)) ?_
  simp_all [Frontier.size]

/-- The sinks: bounds, then costs. -/
def sinks (d : Diagram) : List Nat :=
  d.ofReference Diagram.boundReference ++ d.ofReference Diagram.costReference

/-- Records sinks and asks for the outports that drive them. -/
def start (d : Diagram) (hold : Hold) :
    List Nat → BlockTable α → Frontier Port → Noted α (BlockTable α × Frontier Port)
  | [], t, f => pure (t, f)
  | i :: rest, t, f => do
    let b ← d.record hold i
    let drivers ← d.drivers i
    start d hold rest (t.push b) (f.offerAll drivers)

/-- Every block and wire that the sinks of a diagram depend on. -/
def ofDiagram (d : Diagram) (hold : Hold) : Noted α (Search α) := do
  let (blocks, f) ← start d hold (sinks d) {} ⟨d.allOutports, []⟩
  run d hold f { blocks }

end Search

end Transcription
