import Transcription.Wire.Basic

namespace Transcription

structure WireTable (α : Type) [Scalar α] where
  wires : List (Wire α) := []
  /-- Where the wires of each registered outport start. -/
  firsts : List (Port × Nat) := []

namespace WireTable

variable {α : Type} [Scalar α]

def size (t : WireTable α) : Nat := t.wires.length

def first? (t : WireTable α) (p : Port) : Option Nat := t.firsts.lookup p

/-- The wires of an outport that is registered at place `first`. -/
def newWires (block : Nat) (p : Port) (width first : Nat) : List (Wire α) :=
  (List.range width).map fun sub => { block, port := p, sub, net := first + sub }

/-- Registers the wires of an outport and returns where they start. -/
def addPort (t : WireTable α) (block : Nat) (p : Port) (width : Int) : Nat × WireTable α :=
  match t.first? p with
  | some first => (first, t)
  | none =>
    let first := t.size
    (first, ⟨t.wires ++ newWires block p width.toNat first, t.firsts ++ [(p, first)]⟩)

/-- The places of the wires of an outport. -/
def portIndices (t : WireTable α) (p : Port) : List Nat :=
  match t.first? p with
  | none => []
  | some first => List.range' first ((t.wires.drop first).takeWhile fun w => w.port = p).length

def modify (t : WireTable α) (i : Nat) (f : Wire α → Wire α) : WireTable α :=
  { t with wires := t.wires.modify i f }

/-- Changes the wires at some places, one after the other. -/
def modifyAll (t : WireTable α) (places : List Nat) (f : Wire α → Wire α) : WireTable α :=
  places.foldl (fun t i => t.modify i f) t

/-- The net of the wire at a place. -/
def netOf (t : WireTable α) (i : Nat) : Nat := ((t.wires[i]?).map (·.net)).getD 0

/-- The places of the wires of a net. -/
def members (t : WireTable α) (net : Nat) : List Nat :=
  (List.range t.size).filter fun i => t.netOf i = net

def group (t : WireTable α) (net : Nat) : List (Wire α) := t.wires.filter fun w => w.net = net

/-- The nets in the order of their first wires. -/
def nets (t : WireTable α) : List Nat := (t.wires.map (·.net)).eraseDups

/-- One more than the highest net. -/
def netCount (t : WireTable α) : Nat := (t.wires.map fun w => w.net + 1).foldl max 0

/-- The places of the wires whose bounds exclude one another in some phase. -/
def infeasible (t : WireTable α) : List Nat :=
  (List.range t.size).filter fun i => (t.wires[i]?).any fun w => !w.emptyPhases.isEmpty

end WireTable

end Transcription
