import Transcription.Network.Check

namespace Transcription

namespace Network

variable {α : Type} [Scalar α]

/-- The network of a diagram whose dimensions are worked out. -/
def traceMeasured (d : Diagram) (hold : Hold) : Noted α (Network α) := do
  let search ← Search.ofDiagram d hold
  let wired ← ofSearch d search
  let bounded ← wired.setFlags.collectBounds
  let network := bounded.collectCosts
  network.check
  return network

end Network

namespace Diagram

/-- The diagram with its dimensions, or the diagram as it is when they cannot be worked out. -/
def prepared (d : Diagram) : Diagram :=
  match d.measured with
  | .ok m => m
  | .error _ => d

/-- The network that the sinks of a diagram depend on. -/
def trace {α : Type} [Scalar α] (d : Diagram) (hold : Hold) : Noted α (Network α) :=
  Network.traceMeasured d.prepared hold

/-- Whether some port of a list is one whose width can be asked for. -/
def anyWidth (d : Diagram) (ports : List Port) : Bool :=
  match ports with
  | [] => false
  | p :: _ => p.side = .outport || (d.source? p).isSome

/-- Whether working out the equations of a block gets as far as asking for the width of a port. -/
def asksWidth (d : Diagram) (i : Nat) : Bool :=
  let inputs := d.anyWidth (d.inports i)
  let outputs := d.anyWidth (d.outports i)
  let isTensor (name : String) (default : Float) : Bool :=
    (d.param i name (.float default)).tensor?.isOk
  let isWord (text : String) : Bool :=
    (d.param i "Multiplication" (.text text)).isWord text matches .ok true
  match ruleName (d.block i) with
  | "Sum" | "Add" => inputs
  | "Product" => isWord "Element-wise(.*)" && inputs
  | "Constant" => isTensor "Value" 1 && outputs
  | "Gain" => isWord "Element-wise(K.*u)" && isTensor "Gain" 1 && inputs
  | "Bias" => isTensor "Bias" 0 && inputs
  | "Polyblock" => (d.polyExpression i : Except Fault (System Float)).isOk && (inputs || outputs)
  | _ => false

/-- Whether tracing gets as far as asking for the width of a port. -/
def asksWidthInTrace (d : Diagram) (hold : Hold) : Bool :=
  let start : Noted Float _ := Search.start d hold (Search.sinks d) {} ⟨d.allOutports, []⟩
  match start.result with
  | .error _ => false
  | .ok (_, f) =>
    match f.queue.find? fun p => !(BlockKind.of (d.block p.block)).isSink with
    | some p => (d.record hold p.block : Noted Float _).result.isOk || d.asksWidth p.block
    | none => (Search.sinks d).any fun i => d.anyWidth (d.outports i)

/-- The diagram after the equations of a block were worked out: it remembers its dimensions if they
were needed. -/
def afterEquations (d : Diagram) (i : Nat) : Diagram := if d.asksWidth i then d.prepared else d

def afterTrace (d : Diagram) (hold : Hold) : Diagram :=
  if d.asksWidthInTrace hold then d.prepared else d

end Diagram

end Transcription
