import Transcription.Horizon.Grid
import Transcription.Network.Liveness

namespace Transcription.Network

variable {α : Type} [Scalar α]

/-- The largest of some values; the first counts among equal ones. -/
def largest : List α → α
  | [] => 0
  | a :: as => as.foldl Scalar.maxOf a

/-- The entry of a net at a step, with the bounds and cost of its wires in the step's phases. Its
variable is not settled yet. -/
def majorEntry (n : Network α) (steps : Nat) (slot : Nat × Nat) : Except Fault (Entry α) :=
  let (t, net) := slot
  match n.wires.group net with
  | [] => throw .keyMissing
  | w :: _ =>
    let phases := (stepPhases t steps).majorList
    pure {
      net, step := t, stage := 0, index := 0
      lower := (phases.map w.lower.get).foldl Limit.max .negInf
      upper := (phases.map w.upper.get).foldl Limit.min .posInf
      cost := largest (phases.map w.cost.get) }

/-- Pairs an output of a delay at a step with its input one step before. -/
def delayJoin (n : Network α) (slots : List (Nat × Nat)) (b : TracedBlock α) (output input t : Nat) :
    Noted α (List (Nat × Nat)) :=
  match slots.idxOf? (t, output) with
  | none => pure []
  | some later =>
    match slots.idxOf? (t - 1, input) with
    | some earlier => pure [(later, earlier)]
    | none => do
      Noted.note (.delayInput t) (n.path b)
      return []

/-- The entries that a delay makes equal. -/
def delayJoins (n : Network α) (slots : List (Nat × Nat)) (steps : Nat) (b : TracedBlock α) :
    Noted α (List (Nat × Nat)) := do
  let pairs := b.outputs.zip b.inputs
  let joins ← pairs.mapM fun (o, i) =>
    (stepsFrom 2 steps).mapM (n.delayJoin slots b (n.wires.netOf o) (n.wires.netOf i))
  return joins.flatten.flatten

/-- Pairs every entry with the first one of its window. -/
def windowJoins (es : List (Int × Nat)) : List (Nat × Nat) :=
  es.filterMap fun (window, e) => (es.lookup window).bind fun first =>
    if first = e then none else some (first, e)

/-- The entries of a net with the windows of the steps they stand at. -/
def windowed (slots : List (Nat × Nat)) (steps : Nat) (b : TracedBlock α) (net : Nat) :
    List (Int × Nat) :=
  (stepsFrom 1 steps).filterMap fun t =>
    (slots.idxOf? (t, net)).map fun e => (b.period.window b.offset t, e)

/-- The entries that a block from outside makes equal. -/
def blockingJoins (n : Network α) (slots : List (Nat × Nat)) (steps : Nat) (b : TracedBlock α) :
    List (Nat × Nat) :=
  if b.isMoveBlocked then
    b.outputs.flatMap fun i => windowJoins (windowed slots steps b (n.wires.netOf i))
  else []

/-- All entries that share variables, pair by pair. -/
def joins (n : Network α) (slots : List (Nat × Nat)) (steps : Nat) :
    Noted α (List (Nat × Nat)) := do
  let delays ← ((n.blocks.ofKinds [.delay]).map (·.2)).mapM (n.delayJoins slots steps)
  return delays.flatten ++ n.blocks.blocks.flatMap (n.blockingJoins slots steps)

/-- The variable of each of `size` entries, numbered by the first entries. -/
def sharedLabels (size : Nat) (pairs : List (Nat × Nat)) : List Nat :=
  (pairs.foldl (fun p e => (p.union e.1 e.2).2) (Partition.discrete size)).labels.1

def sharing (entries : List (Entry α)) (i : Nat) : List (Entry α) :=
  entries.filter fun e => e.index = i

def sharedLower (es : List (Entry α)) : Limit α := (es.map (·.lower)).foldl Limit.max .negInf

def sharedUpper (es : List (Entry α)) : Limit α := (es.map (·.upper)).foldl Limit.min .posInf

/-- Notes a variable whose bounds exclude one another although those of each of its entries do not. -/
def noteMerged (entries : List (Entry α)) (i : Nat) : Noted α Unit :=
  let es := sharing entries i
  let lower := sharedLower es
  let upper := sharedUpper es
  if upper.lt lower && 1 < es.length && es.all fun e => !e.upper.lt e.lower then
    Noted.note (.mergedInterval i lower upper) none
  else pure ()

/-- The entries of some nets at the stages of every interval. They are free and cost nothing. -/
def minorEntries (majorCount steps stages : Nat) (nets : List Nat) : List (Entry α) :=
  (stepsFrom 1 (steps - 1)).flatMap fun k => (stepsFrom 1 stages).flatMap fun s =>
    nets.zipIdx.map fun (net, rank) => {
      net, step := k, stage := s, lower := .negInf, upper := .posInf, cost := 0
      index := Grid.stageBase majorCount stages nets.length k s + rank }

/-- The grid of a network over a horizon, with intervals of `stages` stages if there are any. An output of a
delay shares the variable of its input one step before, and an input from outside keeps its variable for a
window of steps. What shares a variable has the narrowest bounds and the sum of the costs. -/
def expand (n : Network α) (live : List PhaseSet) (horizon : Int) (stages : Nat) :
    Noted α (Grid α) := do
  if horizon < 1 then Noted.ofResult (throw (.horizonTooShort horizon))
  let steps := horizon.toNat
  let slots := liveSlots live steps
  let drafts ← Noted.ofResult (slots.mapM (n.majorEntry steps))
  let pairs ← n.joins slots steps
  let labels := sharedLabels slots.length pairs
  let majors := List.zipWith (fun (e : Entry α) i => { e with index := i }) drafts labels
  let majorCount := (labels.map (· + 1)).foldl max 0
  let indices := List.range majorCount
  indices.forM (noteMerged majors)
  let stages := if steps < 2 then 0 else stages
  let minorNets := if stages = 0 then [] else marked (minorMask live)
  let minors := minorEntries majorCount steps stages minorNets
  return {
    steps, stages, live, slots, labels, majorCount, minorNets
    entries := majors ++ minors
    lower := indices.map (fun i => sharedLower (sharing majors i)) ++ minors.map (·.lower)
    upper := indices.map (fun i => sharedUpper (sharing majors i)) ++ minors.map (·.upper)
    cost := indices.map (fun i => Scalar.sum ((sharing majors i).map (·.cost))) ++
      minors.map (·.cost) }

end Transcription.Network
