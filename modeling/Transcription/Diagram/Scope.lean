import Transcription.Diagram.Edit
import Transcription.Value.Literal

namespace Transcription.Diagram

/-- The value of a parameter, if the block has it. A text names a workspace variable or is a literal;
any other text stands for itself. -/
def param? (d : Diagram) (i : Nat) (name : String) : Option Value :=
  ((d.block i).param? name).map fun v => match v with
    | .text s => ((d.workspace.lookup s).or (Value.literal? s)).getD v
    | v => v

def param (d : Diagram) (i : Nat) (name : String) (default : Value) : Value :=
  (d.param? i name).getD default

/-- The value of a parameter that the block must have. -/
def required (d : Diagram) (i : Nat) (name : String) : Except Fault Value :=
  match d.param? i name with
  | some v => pure v
  | none => throw (.missingParameter (d.path i) name)

/-- The first block of a list with the port number `n`. -/
def firstNumbered (d : Diagram) (n : Int) : List Nat → Except Fault (Option Nat)
  | [] => pure none
  | i :: rest => do
    if (← (← d.required i "Port").toInt) = n then pure (some i) else firstNumbered d n rest

/-- The `Inport` or `Outport` block inside a subsystem that stands for its port `n`. -/
def innerPort? (d : Diagram) (subsystem : Nat) (type : String) (n : Int) :
    Except Fault (Option Nat) :=
  d.firstNumbered n ((List.range d.blocks.size).filter fun i =>
    (d.block i).parent = some subsystem && (d.block i).type = type)

/-- Whether the tags of two blocks are one variable of the workspace. -/
def sharesTag (d : Diagram) (i j : Nat) : Bool :=
  match (d.block i).param? "GotoTag", (d.block j).param? "GotoTag" with
  | some (.text s), some (.text t) => s = t && (d.workspace.lookup s).isSome
  | _, _ => false

/-- Whether the tag of a block is equal to `tag`, that of the block `other`. -/
def hasTag (d : Diagram) (i other : Nat) (tag : Value) : Except Fault Bool := do
  let t ← d.required i "GotoTag"
  if d.sharesTag i other then t.sameItself else t.same tag

/-- The `Goto` block with the tag of a `From` block, one of the same subsystem before all others. -/
def goto? (d : Diagram) (fromBlock : Nat) : Except Fault (Option Nat) := do
  let tag ← d.required fromBlock "GotoTag"
  let compared ← (d.find none (some "Goto") none).mapM fun i => return (i, ← d.hasTag i fromBlock tag)
  let candidates := (compared.filter (·.2)).map (·.1)
  let near := candidates.find? fun i => (d.block i).parent = (d.block fromBlock).parent
  return near.or candidates.head?

end Transcription.Diagram
