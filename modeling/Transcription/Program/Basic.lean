import Transcription.Program.Equalities
import Transcription.Program.Rows

namespace Transcription

/-- A polynomial optimisation problem: a cost row to be minimised, inequalities `≤ 0` and equalities `= 0`.
The combined system lists the three below one another, each with monomials of its own. -/
structure Program (α : Type) where
  cost : System α
  inequalities : System α
  equalities : System α
  combined : System α
  lower : List (Limit α)
  upper : List (Limit α)
  costs : List α
  /-- The variables that come from inputs, from externals, and those that start a state. -/
  inputs : List Bool
  externals : List Bool
  states : List Bool
  /-- The names of each variable. -/
  names : List (List String)

namespace Program

variable {α : Type} [Scalar α]

/-- The name of a wire at a step and stage. -/
def wireName (d : Diagram) (w : Wire α) (step stage : Nat) : String :=
  s!"{d.path w.port.block}.out{w.port.number}.t{step}.idx{w.sub + 1}.minor{stage}"

/-- The names of an entry, one for each wire of its net. -/
def entryNames (n : Network α) (e : Entry α) : List String :=
  (n.wires.group e.net).map fun w => wireName n.diagram w e.step e.stage

def variableNames (n : Network α) (g : Grid α) (i : Nat) : List String :=
  ((g.entriesAt i).flatMap (entryNames n)).eraseDups

def splitNames : List Char → List (List Char)
  | [] => [[]]
  | c :: cs =>
    if c = ';' then [] :: splitNames cs
    else match splitNames cs with
      | [] => [[c]]
      | s :: rest => (c :: s) :: rest

/-- A list of names as one name of several parts. -/
def joinNames (names : List String) : String := ";".intercalate names

/-- The parts of a name, each of which is a name itself. -/
def nameParts (name : String) : List String := (splitNames name.toList).map String.ofList

/-- The variables some entry of which has a wire of a kind. -/
def flagged (n : Network α) (g : Grid α) (entryOk : Entry α → Bool) (wireOk : Wire α → Bool) :
    List Bool :=
  (List.range g.size).map fun i =>
    (g.entriesAt i).any fun e => entryOk e && (n.wires.group e.net).any wireOk

/-- The program of a network over a grid. -/
def build (n : Network α) (g : Grid α) (equalities : System α) : Except Fault (Program α) := do
  let cost := costRow g.cost
  let inequalities := boundRows g.lower g.upper
  let combined ← System.combine g.size [cost, inequalities, equalities]
  return {
    cost, inequalities, equalities, combined
    lower := g.lower, upper := g.upper, costs := g.cost
    inputs := flagged n g (fun _ => true) (·.input)
    externals := flagged n g (fun _ => true) (·.external)
    states := flagged n g (fun e => e.step = 1 && e.stage = 0) (·.state)
    names := (List.range g.size).map (variableNames n g) }

def size (p : Program α) : Nat := p.combined.width

/-- The name of each variable, its names joined. -/
def fullNames (p : Program α) : List String := p.names.map joinNames

/-- The variables whose bounds exclude one another. -/
def infeasible (p : Program α) : List Nat :=
  (List.range p.lower.length).filter fun i =>
    (p.upper.getD i .posInf).lt (p.lower.getD i .negInf)

/-- The variable of a name, or of one part of a name. -/
def index? (p : Program α) (name : String) : Option Nat :=
  p.fullNames.findIdx? fun full => (nameParts full).contains name

def index (p : Program α) (name : String) : Except Fault Nat :=
  match p.index? name with
  | some i => pure i
  | none => throw (.noVariable name)

/-- A value for every variable: the last one given under a name of it, or `fill`. -/
def point (p : Program α) (fill : α) (values : List (String × α)) : Except Fault (List α) :=
  values.foldlM (fun x (name, a) => do return x.set (← p.index name) a)
    (List.replicate p.size fill)

/-- Where sections of given lengths start and end one after the other. -/
def ranges : Nat → List Nat → List Nat
  | _, [] => []
  | start, n :: rest => start :: (start + n) :: ranges (start + n) rest

/-- The cost, the inequalities and the equalities, as the combined system lists them. -/
def sections (p : Program α) : List (System α) := [p.cost, p.inequalities, p.equalities]

/-- The start and end of each section among the monomials. -/
def monomialRanges (p : Program α) : List Nat := ranges 0 (p.sections.map (·.monomials.length))

/-- The start and end of each section among the rows. -/
def rowRanges (p : Program α) : List Nat := ranges 0 (p.sections.map (·.equations.length))

end Program

end Transcription
