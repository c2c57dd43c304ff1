import Transcription.Position

namespace Transcription

/-- The dimensions of a port: their number and each of them, or `-2`, a count, and the rows and
columns of every signal of a frame. -/
abbrev Dims := List Int

inductive Side where
  | inport
  | outport
  deriving DecidableEq, Repr

/-- A port of the block at a place in the diagram, numbered from 1. -/
structure Port where
  block : Nat
  side : Side
  number : Nat
  deriving DecidableEq, Repr

structure Line where
  source : Port
  target : Port
  deriving Repr

namespace Diagram

structure Block where
  name : String
  type : String
  path : String
  reference : Option String
  parent : Option Nat
  params : List (String × Value)
  inports : Nat
  /-- The declared dimensions of each outport. -/
  outports : List (Option Dims)

end Diagram

/-- Blocks stand in the order in which they were added, and a subsystem is the parent of the blocks inside
it. Lines stand in the order in which they were drawn. -/
structure Diagram where
  name : String
  workspace : List (String × Value)
  blocks : Array Diagram.Block := #[]
  lines : List Line := []
  /-- The dimensions of every outport, while they are those of the blocks and lines drawn. -/
  compiled : Option (List (Port × Dims)) := none

/-- Sets the value of a name, where it stands or at the end. -/
def setNamed (name : String) (v : Value) : List (String × Value) → List (String × Value)
  | [] => [(name, v)]
  | (n, w) :: rest => if n = name then (n, v) :: rest else (n, w) :: setNamed name v rest

/-- Gathers named values; the last value of a name counts. -/
def collectNamed (entries : List (String × Value)) : List (String × Value) :=
  entries.foldl (fun acc (n, v) => setNamed n v acc) []

namespace Diagram

def Block.outportCount (b : Block) : Nat := b.outports.length

def Block.param? (b : Block) (name : String) : Option Value := b.params.lookup name

instance : Inhabited Block := ⟨⟨"", "", "", none, none, [], 0, []⟩⟩

def block (d : Diagram) (i : Nat) : Block := d.blocks.getD i default

def path (d : Diagram) (i : Nat) : String := (d.block i).path

def count (d : Diagram) (i : Nat) : Side → Nat
  | .inport => (d.block i).inports
  | .outport => (d.block i).outportCount

/-- The port of a block with a number; 0 and below count back from the last. -/
def port (d : Diagram) (side : Side) (i : Nat) (number : Int) : Except Fault Port := do
  let k ← position (d.count i side) (number - 1)
  return ⟨i, side, k + 1⟩

def inports (d : Diagram) (i : Nat) : List Port :=
  (List.range (d.block i).inports).map fun k => ⟨i, .inport, k + 1⟩

def outports (d : Diagram) (i : Nat) : List Port :=
  (List.range (d.block i).outportCount).map fun k => ⟨i, .outport, k + 1⟩

def allOutports (d : Diagram) : List Port := (List.range d.blocks.size).flatMap d.outports

/-- The outport of the line that a port is on. -/
def source? (d : Diagram) (p : Port) : Option Port :=
  match p.side with
  | .inport => (d.lines.find? fun l => l.target = p).map (·.source)
  | .outport => if d.lines.any fun l => l.source = p then some p else none

/-- The inports of the line that a port is on, in the order in which they were connected. -/
def targets (d : Diagram) (p : Port) : List Port :=
  match d.source? p with
  | some s => (d.lines.filter fun l => l.source = s).map (·.target)
  | none => []

/-- The outport that drives a port, which must be connected. -/
def driver (d : Diagram) (p : Port) : Except Fault Port :=
  match d.source? p with
  | some s => pure s
  | none => throw (.connection (d.path p.block) (.inport p.number))

/-- The outports that drive the inports of a block. -/
def drivers (d : Diagram) (i : Nat) : Except Fault (List Port) := (d.inports i).mapM d.driver

/-- The subsystems a block stands in, innermost first. A parent always stands before its children,
so the place of the block is enough `fuel`. -/
def ancestors (d : Diagram) : Nat → Nat → List Nat
  | 0, _ => []
  | fuel + 1, i => match (d.block i).parent with
    | some p => p :: ancestors d fuel p
    | none => []

def isInside (d : Diagram) (i scope : Nat) : Bool := (d.ancestors i i).contains scope

/-- The blocks of a reference among some and of a type, inside a subsystem; no condition is put
where none is given. -/
def find (d : Diagram) (references : Option (List String)) (type : Option String)
    (scope : Option Nat) : List Nat :=
  (List.range d.blocks.size).filter fun i =>
    let b := d.block i
    (references.all fun rs => (b.reference.map rs.contains).getD false) &&
      (type.all fun t => b.type = t) && (scope.all fun s => d.isInside i s)

def ofReference (d : Diagram) (reference : String) : List Nat :=
  d.find (some [reference]) none none

end Diagram

end Transcription
