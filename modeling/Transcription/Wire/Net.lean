import Transcription.Noted
import Transcription.Partition
import Transcription.Wire.Table

namespace Transcription

/-- Joins every element with the one it points at, in order. Gives the elements whose pointer joined
nothing, and the classes unless a pointer leads outside. -/
def followAliases : List (Nat × Option Int) → Partition → List Nat × Except Fault Partition
  | [], p => ([], pure p)
  | (_, none) :: rest, p => followAliases rest p
  | (i, some target) :: rest, p =>
    match position p.size target with
    | .error e => ([], .error e)
    | .ok j =>
      let (joined, p) := p.union i j
      let (closed, result) := followAliases rest p
      (if joined then closed else i :: closed, result)

/-- The elements at which a cycle of pointers closes, and the number of each element's class. -/
def resolveAliases (pointers : List (Option Int)) : List Nat × Except Fault (List Nat) :=
  let start := Partition.discrete pointers.length
  let (closed, result) := followAliases ((List.range pointers.length).zip pointers) start
  (closed, result.map fun p => p.labels.1)

namespace WireTable

variable {α : Type} [Scalar α]

/-- Gives every wire the net at its place in a list. -/
def renumber (t : WireTable α) (nets : List Nat) : WireTable α :=
  { t with wires := List.zipWith (fun w c => { w with net := c }) t.wires nets }

/-- The largest lower bound of a group of wires in every phase. -/
def groupLower (ws : List (Wire α)) : ByPhase (Limit α) :=
  .build fun p => (ws.map fun w => w.lower.get p).foldl Limit.max .negInf

/-- The smallest upper bound of a group of wires in every phase. -/
def groupUpper (ws : List (Wire α)) : ByPhase (Limit α) :=
  .build fun p => (ws.map fun w => w.upper.get p).foldl Limit.min .posInf

/-- The costs of a group of wires added up. -/
def groupCost (ws : List (Wire α)) : ByPhase α :=
  .build fun p => Scalar.sum (ws.map fun w => w.rawCost.get p)

def share (ws : List (Wire α)) (w : Wire α) : Wire α :=
  { w with
    lower := groupLower ws
    upper := groupUpper ws
    cost := groupCost ws
    state := ws.any (·.state)
    input := ws.any (·.input)
    external := ws.any (·.external) }

def merge (t : WireTable α) : WireTable α :=
  { t with wires := t.wires.map fun w => share (t.group w.net) w }

/-- The diagnostic of a net whose bounds exclude one another. -/
def noteEmpty (t : WireTable α) (path : Nat → String) (net : Nat) : Noted α Unit :=
  match t.group net with
  | [] => pure ()
  | w :: _ =>
    let phases := w.emptyPhases.map fun p => (p, w.lower.get p, w.upper.get p)
    if phases.isEmpty then pure () else Noted.note (.emptyInterval net phases) (w.label path)

/-- Resolves the aliases: the number of nets, and the table with nets numbered by their first wires
and their wires merged. -/
def canonicalize (t : WireTable α) (path : Nat → String) : Noted α (Nat × WireTable α) := do
  let (closed, result) := resolveAliases (t.wires.map (·.aliasOf))
  closed.forM fun i => Noted.note (.aliasCycle i) ((t.wires[i]?).map fun w => w.label path)
  let labels ← result
  let merged := (t.renumber labels).merge
  merged.nets.forM (merged.noteEmpty path)
  return (labels.eraseDups.length, merged)

end WireTable

end Transcription
