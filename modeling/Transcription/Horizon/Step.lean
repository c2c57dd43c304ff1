import Transcription.Phase

namespace Transcription

/-- The phases of step `t` of `steps`. A lone step is the first and the last at once. -/
def stepPhases (t steps : Int) : PhaseSet :=
  if steps = 1 then ⟨true, false, true, false⟩
  else if t = 1 then ⟨true, false, false, false⟩
  else if t = steps then ⟨false, false, true, false⟩
  else ⟨false, true, false, false⟩

/-- The nets that are live at step `t`, marked among all of them. -/
def stepMask (live : List PhaseSet) (steps t : Nat) : List Bool :=
  live.map fun phases => phases.meets (stepPhases t steps)

/-- The nets that are live in the stages of an interval, marked among all of them. -/
def minorMask (live : List PhaseSet) : List Bool := live.map (·.minor)

/-- The places that are marked. -/
def marked (mask : List Bool) : List Nat :=
  (List.range mask.length).filter fun i => mask.getD i false

def stepsFrom (first last : Nat) : List Nat := List.range' first (last + 1 - first)

/-- Every net at every step that it is live at: step by step, in the order of nets. -/
def liveSlots (live : List PhaseSet) (steps : Nat) : List (Nat × Nat) :=
  (stepsFrom 1 steps).flatMap fun t => (marked (stepMask live steps t)).map fun net => (t, net)

end Transcription
