import Transcription.Run

namespace Transcription.Report

inductive Colour where
  | red
  | green
  | yellow

def Colour.code : Colour → String
  | red => "31"
  | green => "32"
  | yellow => "33"

def escape (code : String) : String := "\x1b[" ++ code ++ "m"

def plain (s : String) : String := s ++ escape "0"

def coloured (c : Colour) (s : String) : String := escape c.code ++ s ++ escape "0"

def bold (c : Colour) (s : String) : String := escape "1" ++ coloured c s

def rule : String := String.ofList (List.replicate 81 '-')

def padLeft (n : Nat) (s : String) : String :=
  String.ofList (List.replicate (n - s.length) ' ') ++ s

def padRight (n : Nat) (s : String) : String :=
  s ++ String.ofList (List.replicate (n - s.length) ' ')

/-- A line of two columns, the second one flush right. -/
def row (name value : String) : String := padRight 28 name ++ " " ++ padLeft 10 value

def banner : List String :=
  ["",
    "                 _____ _       _   _   _ _     ____",
    "                |  ___| | __ _| |_| \\ | | |   |  _ \\",
    "                | |_  | |/ _` | __|  \\| | |   | |_) |",
    "                |  _| | | (_| | |_| |\\  | |___|  __/",
    "                |_|   |_|\\__,_|\\__|_| \\_|_____|_|",
    rule,
    "                  Block diagram to polynomial NLP flattening",
    rule,
    ""]

/-- The time of a stage, given as the text of its milliseconds. -/
def timing (stage : Stage) (milliseconds : String) : String :=
  row stage.title milliseconds ++ " ms"

def total (milliseconds : String) : String := "Total Flattening Time: " ++ milliseconds ++ " ms"

/-- The counts of a program and of the network that it was made from. -/
def summary (s : Settings Float) (nets : Nat) (n : Network Float) (p : Program Float) :
    List String :=
  [plain rule,
    row "Model" n.diagram.name,
    row "Horizon" (toString s.horizon),
    row "Integration" s.method,
    row "Blocks" (toString n.blocks.size),
    row "Step variables" (toString n.wires.size),
    row "Canonical variables" (toString nets),
    row "NLP variables" (toString p.size),
    row "Equality rows" (toString p.equalities.equations.length),
    row "Inequality rows" (toString p.inequalities.equations.length),
    row "Cost terms" (toString p.cost.monomials.length),
    plain rule]

/-- Bounds that exclude one another are shown in red, all other diagnostics in yellow. -/
def diagnosticLine (d : Diagnostic Float) : String :=
  coloured (if d.kind = .infeasibleBound then .red else .yellow) ("  " ++ d.line)

def diagnosticLines (ds : List (Diagnostic Float)) : List String :=
  if ds.isEmpty then [coloured .green "No modelling problems found"]
  else bold .yellow s!"{ds.length} modelling problem(s):" :: ds.map diagnosticLine

/-- The account of a run that came to a program. `milliseconds` gives the time of each stage, and
`diagnostics` are those of this run and of all before it. -/
def lines (s : Settings Float) (r : Run Float) (diagnostics : List (Diagnostic Float))
    (milliseconds : Stage → String) (totalMilliseconds : String) : List String :=
  match r.merged, r.program with
  | some (_, n), some p =>
    banner ++ Stage.all.map (fun g => timing g (milliseconds g)) ++
      summary s n.wires.netCount n p ++ diagnosticLines diagnostics ++
      [plain rule, total totalMilliseconds]
  | _, _ => banner

end Transcription.Report
