import Transcription.Diagram.Dimensions

namespace Transcription

/-- A line as an object: the outport that it leaves and the inports that it leads to. -/
structure Sheet.Stroke where
  source : Port
  targets : List Port := []

/-- A drawing of objects that know one another. A call changes them one after the other, and what was changed
before it fails stays changed, unlike an edit of a diagram, which is made as a whole or not at all. -/
structure Sheet where
  name : String
  workspace : List (String × Value)
  blocks : Array Diagram.Block := #[]
  /-- The blocks inside a block. -/
  children : Nat → List Nat := fun _ => []
  /-- The line that a port is on. -/
  line? : Port → Option Nat := fun _ => none
  lines : List Sheet.Stroke := []
  /-- The dimensions of every outport, while they are remembered. -/
  compiled : Option Diagram.Known := none

namespace Sheet

/-- An operation on a sheet, which may fail half-way. -/
abbrev Op (β : Type) := EStateM Fault Sheet β

def Op.ofExcept {β : Type} (x : Except Fault β) : Op β := fun s =>
  match x with
  | .ok b => .ok b s
  | .error e => .error e s

def empty (name : String) (workspace : List (String × Value)) : Sheet :=
  { name, workspace := collectNamed workspace }

/-- The outport of the line that a port is on. -/
def source? (s : Sheet) (p : Port) : Option Port :=
  (s.line? p).bind fun l => (s.lines[l]?).map (·.source)

def frame (s : Sheet) : Diagram :=
  { name := s.name, workspace := s.workspace, blocks := s.blocks, compiled := s.compiled }

def inports (s : Sheet) : List Port := (List.range s.blocks.size).flatMap s.frame.inports

/-- The diagram that a sheet shows: its blocks, with a line to every inport that is on one. -/
def diagram (s : Sheet) : Diagram :=
  { s.frame with lines := s.inports.filterMap fun q => (s.source? q).map fun p => ⟨p, q⟩ }

def adopt (child : Nat) (parent : Option Nat) (s : Sheet) : Sheet :=
  { s with children := fun i => if parent = some i then s.children i ++ [child] else s.children i }

def push (b : Diagram.Block) (s : Sheet) : Sheet := { s with blocks := s.blocks.push b }

/-- A new line that leads nowhere yet. -/
def startLine (source : Port) (s : Sheet) : Sheet := { s with lines := s.lines ++ [{ source }] }

/-- Makes a line lead to one more inport. -/
def extend (l : Nat) (target : Port) (s : Sheet) : Sheet :=
  { s with lines := s.lines.modify l fun line => { line with targets := line.targets ++ [target] } }

def setLine (p : Port) (l : Nat) (s : Sheet) : Sheet :=
  { s with line? := fun q => if q = p then some l else s.line? q }

/-- Drops the dimensions that were remembered. -/
def forget (s : Sheet) : Sheet := { s with compiled := none }

def add (b : Diagram.Draft) : Op Nat := do
  let s ← get
  let block ← Op.ofExcept (b.block s.diagram)
  modify (adopt s.blocks.size b.parent)
  modify (push block)
  modify forget
  return s.blocks.size

/-- Draws a line from an outport of one block to an inport of another. A second line from an outport
goes on from the first. -/
def connect (source : Nat) (sourcePort : Int) (target : Nat) (targetPort : Int) : Op Nat := do
  let s ← get
  let out ← Op.ofExcept (s.diagram.port .outport source sourcePort)
  let inp ← Op.ofExcept (s.diagram.port .inport target targetPort)
  if (s.line? inp).isSome then throw (.alreadyDriven (s.diagram.path target) inp.number)
  let l ← match s.line? out with
    | some l => pure l
    | none => do
      modify (startLine out)
      modify (setLine out s.lines.length)
      pure s.lines.length
  modify (extend l inp)
  modify (setLine inp l)
  modify forget
  return l

/-- Works the dimensions of all outports out anew. -/
def compile : Op Unit := do
  let known ← Op.ofExcept (← get).diagram.dimensions
  modify fun s => { s with compiled := some known }

/-- The outport that drives an inport, which must be connected. -/
def driver (p : Port) : Op Port := do
  let s ← get
  match s.source? p with
  | some q => return q
  | none => throw (.connection (s.diagram.path p.block) (.inport p.number))

/-- The dimensions of an outport. They are worked out when none are remembered. -/
def outportDims (p : Port) : Op Dims := do
  if (← get).compiled.isNone then compile
  match ((← get).compiled.getD []).lookup p with
  | some ds => return ds
  | none => throw .keyMissing

/-- The dimensions of a port; an inport has those of the outport that drives it. -/
def portDims (p : Port) : Op Dims := do
  match p.side with
  | .inport => outportDims (← driver p)
  | .outport => outportDims p

def portWidth (p : Port) : Op Int := do
  return (← portDims p).width

end Sheet

inductive Call where
  | add (b : Diagram.Draft)
  | connect (source : Nat) (sourcePort : Int) (target : Nat) (targetPort : Int)
  | compile
  | dims (block : Nat) (side : Side) (number : Int)
  | width (block : Nat) (side : Side) (number : Int)

inductive Reply where
  | block (i : Nat)
  /-- A line: the outport that it leaves and the inports that it leads to. -/
  | line (source : Port) (targets : List Port)
  | done
  | dims (ds : Dims)
  | width (n : Int)

namespace Call

def draws : Call → Bool
  | add _ | connect .. => true
  | _ => false

end Call

namespace Sheet

def perform : Call → Op Reply
  | .add b => return .block (← add b)
  | .connect source sourcePort target targetPort => do
    let l ← connect source sourcePort target targetPort
    match (← get).lines[l]? with
    | some line => return .line line.source line.targets
    | none => throw .indexOutside
  | .compile => do
    compile
    return .done
  | .dims i side number => do
    let p ← Op.ofExcept ((← get).diagram.port side i number)
    return .dims (← portDims p)
  | .width i side number => do
    let p ← Op.ofExcept ((← get).diagram.port side i number)
    return .width (← portWidth p)

/-- The reply to a call and the sheet after it, also after one that fails. -/
def call (s : Sheet) (c : Call) : Except Fault Reply × Sheet :=
  match perform c s with
  | .ok r s => (.ok r, s)
  | .error e s => (.error e, s)

def after (s : Sheet) (cs : List Call) : Sheet := cs.foldl (fun s c => (s.call c).2) s

end Sheet

namespace Diagram

/-- The same call on a diagram that is edited as a whole. -/
def perform (d : Diagram) : Call → Except Fault (Reply × Diagram)
  | .add b => do
    let (i, d) ← d.add b
    return (.block i, d)
  | .connect source sourcePort target targetPort => do
    let (out, d) ← d.connect source sourcePort target targetPort
    return (.line out (d.targets out), d)
  | .compile => do return (.done, ← d.compile)
  | .dims i side number => do
    let (ds, d) ← d.queryDims (← d.port side i number)
    return (.dims ds, d)
  | .width i side number => do
    let (ds, d) ← d.queryDims (← d.port side i number)
    return (.width ds.width, d)

/-- The reply to a call and the diagram after it; a call that fails changes nothing. -/
def call (d : Diagram) (c : Call) : Except Fault Reply × Diagram :=
  match d.perform c with
  | .ok (r, d) => (.ok r, d)
  | .error e => (.error e, d)

def after (d : Diagram) (cs : List Call) : Diagram := cs.foldl (fun d c => (d.call c).2) d

end Diagram

end Transcription
