import Transcription.Network.Search

namespace Transcription

structure Network (α : Type) [Scalar α] where
  diagram : Diagram
  blocks : BlockTable α
  wires : WireTable α

namespace Network

variable {α : Type} [Scalar α]

def path (n : Network α) (b : TracedBlock α) : String := n.diagram.path b.source

/-- Makes wires aliases of the scalars they are linked to, which must have been reached. -/
def linkAliases (d : Diagram) : List Link → WireTable α → Except Fault (WireTable α)
  | [], t => pure t
  | l :: rest, t => do
    let (p, sub) := l.tap
    match t.first? p with
    | none => throw (.connection (d.path p.block) (.neverReached p.number))
    | some first =>
      if l.wire < t.size then
        linkAliases d rest (t.modify l.wire fun w => { w with aliasOf := some (first + sub) })
      else throw .indexOutside

/-- The wires into a block: those of what drives its inports. -/
def inputWires (d : Diagram) (t : WireTable α) (i : Nat) : Except Fault (List Nat) := do
  return (← d.drivers i).flatMap t.portIndices

/-- A block with its wires. Rerouting blocks and inputs from outside have none that lead in. -/
def wireBlock (d : Diagram) (t : WireTable α) (b : TracedBlock α) : Except Fault (TracedBlock α) := do
  let outputs := (d.outports b.source).flatMap t.portIndices
  let inputs ← if b.kind.isReroute || b.kind.isBoundary then pure []
    else inputWires d t b.source
  return { b with outputs, inputs }

def ofSearch (d : Diagram) (s : Search α) : Except Fault (Network α) := do
  let wires ← linkAliases d s.links s.wires
  let blocks ← s.blocks.blocks.mapM (wireBlock d wires)
  return ⟨d, ⟨blocks⟩, wires⟩

/-- Marks a wire that leaves a block of a kind. -/
def flag (k : BlockKind) (w : Wire α) : Wire α :=
  { w with
    input := w.input || k = .input
    external := w.external || k = .external
    state := w.state || k.isState }

/-- Marks the wires that leave inputs from outside and states. -/
def setFlags (n : Network α) : Network α :=
  { n with
    wires := n.blocks.blocks.foldl (fun t b => t.modifyAll b.outputs (flag b.kind)) n.wires }

/-- The values of a bound, one per wire; a lone value counts for all. Any other number of values is
noted and bounds nothing. -/
def boundValues (n : Network α) (b : TracedBlock α) (name : String) (free : Float) :
    Noted α (Option (List Float)) := do
  let t ← (n.diagram.param b.source name (.float free)).tensor?
  match t.spread? b.inputs.length with
  | some xs => return some xs
  | none =>
    Noted.note (.boundLength name t.size b.inputs.length) (n.path b)
    return none

/-- Narrows the bounds of a wire in some phases. -/
def tightenIn (phases : PhaseSet) (lower upper : Limit α) (w : Wire α) : Wire α :=
  phases.majorList.foldl (fun w p => w.tighten p lower upper) w

/-- Puts bounds on wires, one pair of values each. -/
def bindWires (phases : PhaseSet) (t : WireTable α) (wires : List Nat) (lower upper : List Float) :
    WireTable α :=
  (wires.zip (lower.zip upper)).foldl (fun t (i, lb, ub) =>
    t.modify i (tightenIn phases (.ofFloat .negInf lb) (.ofFloat .posInf ub))) t

/-- Puts the bounds of one block on the wires that lead into it. -/
def collectBound (n : Network α) (t : WireTable α) (b : TracedBlock α) :
    Noted α (WireTable α) := do
  let lower ← n.boundValues b "lb" (-Numeral.infinity)
  let upper ← n.boundValues b "ub" Numeral.infinity
  match lower, upper with
  | some lower, some upper => return bindWires b.sinkPhases t b.inputs lower upper
  | _, _ => return t

def collectBounds (n : Network α) : Noted α (Network α) := do
  let wires ← ((n.blocks.ofKinds [.bound]).map (·.2)).foldlM n.collectBound n.wires
  return { n with wires }

/-- A wire with one more unit of cost in some phases. -/
def addUnitCost (phases : PhaseSet) (w : Wire α) : Wire α :=
  phases.majorList.foldl (fun w p => w.addCost p 1) w

/-- Puts a unit of cost on every wire that leads into a cost. -/
def collectCosts (n : Network α) : Network α :=
  { n with
    wires := ((n.blocks.ofKinds [.cost]).map (·.2)).foldl
      (fun t b => t.modifyAll b.inputs (addUnitCost b.sinkPhases)) n.wires }

end Network

end Transcription
