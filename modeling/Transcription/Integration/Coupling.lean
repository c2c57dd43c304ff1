import Transcription.Horizon.Expansion
import Transcription.Integration.Tableau

namespace Transcription.Network

variable {α : Type} [Scalar α]

abbrev Terms (α : Type) := List (Int × α)

/-- One row over variables that may be missing. A row with a missing one is noted and left out. -/
def couplingRow (n : Network α) (b : TracedBlock α) (kind : Coupling) (columns : List (Option Nat))
    (coefficients : List α) : Noted α (List (Terms α)) :=
  match columns.mapM id with
  | some vs => pure [(vs.map Int.ofNat).zip coefficients]
  | none => do
    Noted.note (.missingCoupling kind) (n.path b)
    return []

def rowsOf {β : Type} (xs : List β) (rows : β → Noted α (List (Terms α))) :
    Noted α (List (Terms α)) := do
  return (← xs.mapM rows).flatten

/-- The slope at every stage of an interval. -/
def slopes (g : Grid α) (slope k : Nat) : List (Option Nat) :=
  (stepsFrom 1 g.stages).map (g.minorIndex? slope k)

/-- The scalars of a state: the net of each output with the net of its input. -/
def stateNets (n : Network α) (b : TracedBlock α) : List (Nat × Nat) :=
  (b.outputs.zip b.inputs).map fun (o, i) => (n.wires.netOf o, n.wires.netOf i)

/-- The steps of an integrator across every interval. -/
def incrementRows (n : Network α) (g : Grid α) (t : Tableau α) (dt : α) (b : TracedBlock α) :
    Noted α (List (Terms α)) :=
  rowsOf (n.stateNets b) fun (state, slope) =>
    rowsOf (stepsFrom 1 g.intervals) fun k =>
      n.couplingRow b .increment (g.index? state k :: g.index? state (k + 1) :: slopes g slope k)
        (1 :: -1 :: t.weights.map (dt * ·))

/-- The values of an integrator at the stages in which it is live. -/
def stageRows (n : Network α) (g : Grid α) (t : Tableau α) (dt : α) (b : TracedBlock α) :
    Noted α (List (Terms α)) :=
  rowsOf ((n.stateNets b).filter fun e => g.minorNets.contains e.1) fun (state, slope) =>
    rowsOf (stepsFrom 1 g.intervals) fun k =>
      rowsOf (stepsFrom 1 g.stages) fun s =>
        n.couplingRow b .stage (g.index? state k :: g.minorIndex? state k s :: slopes g slope k)
          (1 :: -1 :: (t.coupling.getD (s - 1) []).map (dt * ·))

/-- A net that is held between steps. -/
structure Held (α : Type) where
  net : Nat
  hold : Hold
  block : TracedBlock α

/-- Every net that is live in the stages and comes from outside or out of a delay, once each. -/
def heldNets (n : Network α) (g : Grid α) : List (Held α) :=
  let blocks := n.blocks.blocks.filter fun b => b.kind.isBoundary || b.kind = .delay
  let all := blocks.flatMap fun b => b.outputs.map fun i =>
    { net := n.wires.netOf i, hold := b.hold.getD .zeroOrder, block := b : Held α }
  (all.filter fun h => g.minorNets.contains h.net).foldl
    (fun found h => if found.any fun f => f.net = h.net then found else found ++ [h]) []

/-- The value of a held net at a stage. -/
def holdRow (n : Network α) (g : Grid α) (t : Tableau α) (h : Held α) (k s : Nat) :
    Noted α (List (Terms α)) :=
  let now := g.index? h.net k
  let stage := g.minorIndex? h.net k s
  match h.hold with
  | .firstOrder =>
    let c := t.times.getD (s - 1) 0
    n.couplingRow h.block .firstOrder [now, g.index? h.net (k + 1), stage] [1 - c, c, -1]
  | .zeroOrder => n.couplingRow h.block .zeroOrder [now, stage] [1, -1]

def holdRows (n : Network α) (g : Grid α) (t : Tableau α) (hold : Hold) : Noted α (List (Terms α)) :=
  rowsOf ((n.heldNets g).filter fun h => h.hold = hold) fun h =>
    rowsOf (stepsFrom 1 g.intervals) fun k => rowsOf (stepsFrom 1 g.stages) fun s =>
      n.holdRow g t h k s

/-- All coupling rows. For a state `x` with slope `f`, a held value `u`, a step size `dt`, interval `k` and
stage `s` they are
- `x k - x (k + 1) + dt * Σ s, b s * f k s = 0` across the interval,
- `x k + dt * Σ j, a s j * f k j - X k s = 0` at a stage,
- `(1 - c s) * u k + c s * u (k + 1) - U k s = 0` for a first-order hold,
- `u k - U k s = 0` for a zero-order hold, which is also that of a delay. -/
def couplingRows (n : Network α) (g : Grid α) (t : Tableau α) (dt : α) : Noted α (LinearRows α) := do
  let integrators := (n.blocks.ofKinds [.integrator]).map (·.2)
  let increments ← rowsOf integrators (n.incrementRows g t dt)
  let stages ← rowsOf integrators (n.stageRows g t dt)
  let firstOrder ← n.holdRows g t .firstOrder
  let zeroOrder ← n.holdRows g t .zeroOrder
  return (increments ++ stages ++ firstOrder ++ zeroOrder).foldl LinearRows.add { width := g.size }

end Transcription.Network
