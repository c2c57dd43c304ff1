import Mathlib
import Transcription.Program.Equalities
import Transcription.Proofs.Exact
import Transcription.Proofs.Horizon.Expansion
import Transcription.Proofs.Poly.Trim

namespace Transcription

def allSteps (live : List PhaseSet) (steps : Nat) : List Bool :=
  ((stepsFrom 1 steps).map (stepMask live steps)).flatten

theorem length_masks (live : List PhaseSet) (steps : Nat) (ts : List Nat) :
    (ts.map (stepMask live steps)).flatten.length = ts.length * live.length := by
  induction ts with
  | nil => simp
  | cons t ts ih =>
    rw [List.map_cons, List.flatten_cons, List.length_append, ih, length_stepMask, List.length_cons,
      Nat.succ_mul, Nat.add_comm]

theorem marked_masks (live : List PhaseSet) (steps last : Nat) :
    marked ((stepsFrom 1 last).map (stepMask live steps)).flatten =
      (stepsFrom 1 last).flatMap fun t =>
        (marked (stepMask live steps t)).map fun net => (t - 1) * live.length + net := by
  induction last with
  | zero => rfl
  | succ last ih =>
    rw [← stepsFrom_append (show 1 ≤ last + 1 by omega) (by omega), stepsFrom_self,
      List.map_append, List.flatten_append, marked_append, ih, List.flatMap_append, length_masks,
      length_stepsFrom]
    simp [Nat.add_comm]

/-- The columns that are kept are the slots, in order. -/
theorem marked_allSteps (live : List PhaseSet) (steps : Nat) :
    marked (allSteps live steps) =
      (liveSlots live steps).map fun s => (s.1 - 1) * live.length + s.2 := by
  rw [allSteps, marked_masks, liveSlots, List.map_flatMap]
  refine List.flatMap_congr fun t _ => ?_
  rw [List.map_map]
  rfl

namespace Network

variable {α : Type} [Scalar α]

def stepParts (live : List PhaseSet) (steps : Nat) (step : System α) : List (System α) :=
  (stepsFrom 1 steps).map fun t => step.trimmed (stepMask live steps t)

theorem stepParts_two {live : List PhaseSet} {steps : Nat} (h : 2 ≤ steps) (step : System α) :
    stepParts live steps step = step.trimmed (stepMask live steps 1) ::
      (List.replicate (steps - 2) (step.trimmed (stepMask live steps 2)) ++
        [step.trimmed (stepMask live steps steps)]) := by
  have hsplit : stepsFrom 1 steps = 1 :: (stepsFrom 2 (steps - 1) ++ [steps]) := by
    have hlast := stepsFrom_append (show 2 ≤ steps - 1 + 1 by omega)
      (show steps - 1 ≤ steps by omega)
    rw [show steps - 1 + 1 = steps by omega, stepsFrom_self] at hlast
    rw [hlast, ← List.singleton_append, ← stepsFrom_self 1]
    exact (stepsFrom_append (by omega) (by omega)).symm
  have hmiddle : (stepsFrom 2 (steps - 1)).map (fun t => step.trimmed (stepMask live steps t)) =
      List.replicate (steps - 2) (step.trimmed (stepMask live steps 2)) := by
    rw [List.eq_replicate_iff]
    refine ⟨by rw [List.length_map, length_stepsFrom]; omega, List.forall_mem_map.mpr fun t ht => ?_⟩
    have := mem_stepsFrom.mp ht
    rw [stepMask_middle live (by omega) (by omega)]
  rw [stepParts, hsplit, List.map_cons, List.map_append, hmiddle]
  rfl

def phaseParts (live : List PhaseSet) (steps : Nat) (step : System α) :
    List (MajorPhase × System α) :=
  let part (t : Nat) := step.trimmed (stepMask live steps t)
  if steps = 1 then [(.initial, part 1)]
  else [(.initial, part 1), (.intermediate, if 2 < steps then part 2 else .empty 0),
    (.final, part steps)]

theorem majorPhases_eq {g : Grid α} {step : System α} (hw : step.width = g.live.length) :
    majorPhases g step = .ok (phaseParts g.live g.steps step) := by
  have htrim (t : Nat) : trimAt g step t = .ok (step.trimmed (stepMask g.live g.steps t)) :=
    System.trim_eq (by rw [length_stepMask, hw])
  simp only [majorPhases, phaseParts, htrim, bind, Except.bind]
  split
  · rfl
  · split <;> rfl

/-- The parts of the phases, repeated, are what is kept at each step. -/
theorem unfolded_eq {g : Grid α} (step : System α) (h₁ : 1 ≤ g.steps) :
    unfolded g (phaseParts g.live g.steps step) =
      System.directSum (stepParts g.live g.steps step) := by
  unfold unfolded phaseParts
  rcases Nat.lt_or_eq_of_le h₁ with h₂ | h₁
  · rw [if_neg (by omega), stepParts_two h₂, System.directSum_cons, System.directSum_append,
      ← System.replicate_eq_directSum]
    simp only [List.map_cons, List.map_nil, copies, System.directSum_cons, System.directSum_nil]
    split
    · rfl
    · rw [show g.steps - 2 = 0 by omega, System.replicate_zero, System.replicate_zero]
  · rw [if_pos h₁.symm, ← h₁]
    rfl

/-- Restricting a step for each phase and repeating it gives, matrix for matrix, the restriction of as
many copies as there are steps. Its columns are the major entries, in order, so that each column has
one label. -/
theorem unfolded_eq_trim_replicate {n : Network α} {live : List PhaseSet} {step : System α}
    {steps : Nat} (stages : Nat) (hs : step.Proper) (hw : step.width = live.length)
    (h₁ : 1 ≤ steps) (hn : ∀ net < live.length, n.wires.group net ≠ []) :
    ∃ g parts, (n.expand live steps stages).result = .ok g ∧ majorPhases g step = .ok parts ∧
      (step.replicate steps).trim (allSteps live steps) = .ok (unfolded g parts) ∧
      marked (allSteps live steps) = (g.entries.filter fun e => e.stage = 0).map
        (fun e => (e.step - 1) * step.width + e.net) ∧
      g.labels = (g.entries.filter fun e => e.stage = 0).map (·.index) ∧
      g.labels.length = (unfolded g parts).width := by
  obtain ⟨g, hg⟩ := exists_expand stages h₁ hn
  have he := expands hg
  have hsteps := he.steps_eq
  have hlive := he.live_eq
  have hparts := unfolded_eq (g := g) step (by omega)
  have hmasks : ∀ mask ∈ (stepsFrom 1 steps).map (stepMask live steps), mask.length = step.width :=
    List.forall_mem_map.mpr fun t _ => by rw [length_stepMask, hw]
  have hlen : ((stepsFrom 1 steps).map (stepMask live steps)).length = steps := by
    rw [List.length_map, length_stepsFrom, Nat.add_sub_cancel]
  have hne : (stepsFrom 1 steps).map (stepMask live steps) ≠ [] :=
    List.ne_nil_of_length_pos (by omega)
  have hcopies := System.trimmed_copies hs hne hmasks
  rw [hlen, List.map_map] at hcopies
  have hall : (allSteps live steps).length = (step.replicate steps).width := by
    rw [allSteps, length_masks, length_stepsFrom, Nat.add_sub_cancel, ← hw]
    rfl
  have hunfolded : unfolded g (phaseParts g.live g.steps step) =
      (step.replicate steps).trimmed (allSteps live steps) := by
    rw [hparts, hlive, hsteps]
    exact hcopies.symm
  refine ⟨g, _, hg, majorPhases_eq (by rw [hw, hlive]), ?_, ?_, he.indices_eq.symm, ?_⟩
  · rw [System.trim_eq hall, hunfolded]
  · rw [marked_allSteps, ← he.slots_eq, ← he.entries_eq, List.map_map, hw]
    rfl
  · have hslots := congrArg List.length (marked_allSteps live steps)
    rw [length_marked, List.length_map] at hslots
    rw [he.length_labels, he.slots_eq, hunfolded, System.width_trimmed, hslots]

def twoNets : Network ℚ :=
  ⟨{ name := "two", workspace := [] }, {},
    { wires := [{ block := 0, port := ⟨0, .outport, 1⟩, sub := 0, net := 0 },
        { block := 1, port := ⟨1, .outport, 1⟩, sub := 0, net := 1 }] }⟩

def twoEquations : System ℚ :=
  ⟨2, [[(0, 1)], [(1, 1)], [(0, 2)]], [[(0, 1), (1, -1)], [(2, 2), (1, -1)]]⟩

/-- Over four steps, the second of two nets being live at the first and the last step only. -/
theorem unfolded_eq_trim_replicate_two :
    ∃ g parts, (twoNets.expand [.majors, ⟨true, false, true, false⟩] (4 : Nat) 0).result = .ok g ∧
      majorPhases g twoEquations = .ok parts ∧
      (twoEquations.replicate 4).trim (allSteps [.majors, ⟨true, false, true, false⟩] 4) =
        .ok (unfolded g parts) ∧
      marked (allSteps [.majors, ⟨true, false, true, false⟩] 4) =
        (g.entries.filter fun e => e.stage = 0).map
          (fun e => (e.step - 1) * twoEquations.width + e.net) ∧
      g.labels = (g.entries.filter fun e => e.stage = 0).map (·.index) ∧
      g.labels.length = (unfolded g parts).width := by
  refine unfolded_eq_trim_replicate 0 ⟨?_, ?_⟩ rfl (by decide) ?_
  · simp [twoEquations, Row.Within]
  · simp [twoEquations, Row.Within, or_imp, forall_and]
  · intro net hnet
    have : net = 0 ∨ net = 1 := by
      simp only [List.length_cons, List.length_nil] at hnet
      omega
    rcases this with rfl | rfl <;> simp [twoNets, WireTable.group]

end Network

end Transcription
