import Transcription.Block.Kind
import Transcription.Horizon.Window
import Transcription.Phase
import Transcription.Poly.System

namespace Transcription

/-- A block of a diagram as a transcription sees it. -/
structure TracedBlock (α : Type) where
  /-- The place of the block in its diagram. -/
  source : Nat
  kind : BlockKind
  /-- The equations over inputs, then outputs; empty unless the block is a primitive that has some. -/
  system : System α := .empty 0
  /-- The windows in which an input from outside keeps its value. -/
  period : Period := .every 1
  offset : Int := 0
  hold : Option Hold := none
  /-- The wires into and out of the block, port by port. -/
  inputs : List Nat := []
  outputs : List Nat := []
  /-- The phases that a bound or a cost applies to. -/
  sinkPhases : PhaseSet := {}

namespace TracedBlock

variable {α : Type}

/-- Whether the block keeps one value over several steps. -/
def isMoveBlocked (b : TracedBlock α) : Bool := b.kind.isBoundary && b.period.blocks

/-- A one-line account of a block, its place in the table and its path. -/
def summary (b : TracedBlock α) (place : Nat) (path : String) : String :=
  s!"Block({place}, {Quoted.encode path}, {b.kind.name})"

end TracedBlock

structure BlockTable (α : Type) where
  blocks : List (TracedBlock α) := []

namespace BlockTable

variable {α : Type}

def size (t : BlockTable α) : Nat := t.blocks.length

/-- Every block with its place in the table. -/
def entries (t : BlockTable α) : List (Nat × TracedBlock α) := (List.range t.size).zip t.blocks

/-- The block of a place in the diagram, with its place in the table. -/
def find? (t : BlockTable α) (source : Nat) : Option (Nat × TracedBlock α) :=
  t.entries.find? fun e => e.2.source = source

def push (t : BlockTable α) (b : TracedBlock α) : BlockTable α := ⟨t.blocks ++ [b]⟩

/-- Adds a block of a diagram that is not in the table yet. -/
def add (t : BlockTable α) (d : Diagram) (b : TracedBlock α) : Except Fault (BlockTable α) :=
  match t.find? b.source with
  | some _ => throw (.alreadyRecorded (d.path b.source))
  | none => pure (t.push b)

/-- The blocks of some kinds, each with its place in the table. -/
def ofKinds (t : BlockTable α) (kinds : List BlockKind) : List (Nat × TracedBlock α) :=
  t.entries.filter fun e => kinds.contains e.2.kind

end BlockTable

end Transcription
