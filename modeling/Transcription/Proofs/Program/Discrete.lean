import Transcription.Proofs.Program.Sharing
import Transcription.Proofs.Program.Stages
import Transcription.Proofs.Program.Unfolding

namespace Transcription

theorem length_liveSlots (live : List PhaseSet) (steps last : Nat) :
    ((stepsFrom 1 last).flatMap fun t => (marked (stepMask live steps t)).map fun net => (t, net)).length =
      ((stepsFrom 1 last).map fun t => (stepMask live steps t).count true).sum := by
  simp [List.length_flatMap, length_marked]

/-- The slot of a live net stands behind those of the steps before and of the nets before. -/
theorem getElem?_liveSlots {live : List PhaseSet} {steps t net : Nat} (h₁ : 1 ≤ t) (ht : t ≤ steps)
    (hk : (stepMask live steps t).getD net false = true) :
    (liveSlots live steps)[((stepMask live steps t).take net).count true +
      ((stepsFrom 1 (t - 1)).map fun u => (stepMask live steps u).count true).sum]? = some (t, net) := by
  have hsplit : stepsFrom 1 steps = stepsFrom 1 (t - 1) ++ ([t] ++ stepsFrom (t + 1) steps) := by
    have hfirst : stepsFrom 1 steps = stepsFrom 1 (t - 1) ++ stepsFrom (t - 1 + 1) steps :=
      (stepsFrom_append (by omega) (by omega)).symm
    have hlast : stepsFrom t steps = stepsFrom t t ++ stepsFrom (t + 1) steps :=
      (stepsFrom_append (by omega) ht).symm
    rw [hfirst, Nat.sub_add_cancel h₁, hlast, stepsFrom_self]
  have hrank := getElem?_marked hk
  have hlt := (List.getElem?_eq_some_iff.mp hrank).1
  rw [liveSlots, hsplit, List.flatMap_append, List.flatMap_append, List.flatMap_singleton,
    List.getElem?_append_right (by rw [length_liveSlots]; omega), length_liveSlots, Nat.add_sub_cancel,
    List.getElem?_append_left (by rw [List.length_map]; exact hlt), List.getElem?_map, hrank]
  rfl

theorem kept_eq_liveAt {live : List PhaseSet} {steps t : Nat} (h₁ : 1 ≤ t) (ht : t ≤ steps) :
    System.Kept (stepMask live steps t) = LiveAt live steps t := by
  funext net
  apply propext
  constructor
  · intro h
    exact ⟨h₁, ht, kept_stepMask.mp h⟩
  · intro h
    exact kept_stepMask.mpr h.2.2

namespace Network

variable {α : Type}

section Columns

variable [Scalar α]

theorem getElem?_stepParts {live : List PhaseSet} {steps i : Nat} {step part : System α} :
    (stepParts live steps step)[i]? = some part ↔
      i < steps ∧ step.trimmed (stepMask live steps (i + 1)) = part := by
  rw [stepParts, List.getElem?_map, Option.map_eq_some_iff]
  constructor
  · intro h
    obtain ⟨t, ht, hp⟩ := h
    have hlt := (List.getElem?_eq_some_iff.mp ht).1
    rw [length_stepsFrom] at hlt
    rw [getElem?_stepsFrom (by omega)] at ht
    cases ht
    refine ⟨by omega, ?_⟩
    rw [Nat.add_comm]
    exact hp
  · intro h
    obtain ⟨hi, hp⟩ := h
    exact ⟨i + 1, by rw [getElem?_stepsFrom (by omega), Nat.add_comm], hp⟩

theorem offset_stepParts (live : List PhaseSet) {steps i : Nat} (hi : i ≤ steps) (step : System α) :
    System.offset (stepParts live steps step) i =
      ((stepsFrom 1 i).map fun t => (stepMask live steps t).count true).sum := by
  have htake : (stepsFrom 1 steps).take i = stepsFrom 1 i := by
    rw [stepsFrom, stepsFrom, Nat.add_sub_cancel, Nat.add_sub_cancel, List.take_range'_of_length_ge hi]
  rw [System.offset, stepParts, ← List.map_take, htake, List.map_map]
  exact congrArg List.sum (List.map_congr_left fun t _ => System.width_trimmed _ _)

def majorSystem (g : Grid α) (step : System α) : System α :=
  (System.directSum (stepParts g.live g.steps step)).moved g.labels g.majorCount

variable {n : Network α} {live : List PhaseSet} {steps stages : Nat} {minor : Bool} {g : Grid α}
  {step : System α}

theorem Expands.length_columns (h : n.Expands live steps stages g) (step : System α) :
    g.labels.length = (System.directSum (stepParts g.live g.steps step)).width := by
  have hoffset := offset_stepParts live (Nat.le_refl steps) step
  rw [System.offset, List.take_of_length_le (by simp [stepParts, length_stepsFrom])] at hoffset
  rw [h.length_labels, h.slots_eq, System.width_directSum, h.live_eq, h.steps_eq, hoffset,
    ← length_liveSlots]
  rfl

/-- The variable of a net stands at its column of the part of a step. -/
theorem Expands.index?_column (h : n.Expands live steps stages g) {i net : Nat} (hi : i < steps)
    (hnet : System.Kept (stepMask live steps (i + 1)) net) (step : System α) :
    g.index? net (i + 1) = some (g.labels.getD (((stepMask live steps (i + 1)).take net).count true +
      System.offset (stepParts live steps step) i) 0) := by
  have hslot := getElem?_liveSlots (Nat.le_add_left 1 i) (Nat.succ_le_of_lt hi) hnet
  rw [Nat.add_sub_cancel, ← offset_stepParts live (Nat.le_of_lt hi) step] at hslot
  have hlt := (List.getElem?_eq_some_iff.mp hslot).1
  rw [← h.slots_eq, ← h.length_labels] at hlt
  rw [h.index?_eq hslot, List.getD_eq_getElem _ _ hlt, List.getElem?_eq_getElem hlt]

theorem residual_of_proper {s : System α} {z : List α} (h : z.length = s.width) :
    s.residual z = .ok (s.residualAt (System.point z)) := System.residual_of_length h

theorem proper_stepParts (live : List PhaseSet) (steps : Nat) (step : System α) :
    ∀ s ∈ stepParts live steps step, s.Proper :=
  List.forall_mem_map.mpr fun _ _ => System.proper_trimmed step _

theorem Expands.proper_majorSystem (h : n.Expands live steps stages g) (step : System α) :
    (majorSystem g step).Proper :=
  System.Proper.moved (.directSum (proper_stepParts _ _ step)) (h.length_columns step)
    fun _ hc => h.labels_lt hc

theorem Expands.relabel_unfolded (h : n.Expands live steps stages g) (h₁ : 1 ≤ steps)
    (step : System α) : (unfolded g (phaseParts g.live g.steps step)).relabel g.labels g.majorCount =
      .ok (majorSystem g step) := by
  rw [unfolded_eq step (by rw [h.steps_eq]; exact h₁)]
  exact System.relabel_eq (h.length_columns step) fun c hc => h.labels_lt hc

theorem result_noteIdle (n : Network α) (g : Grid α) : (n.noteIdle g).result = .ok () := by
  unfold noteIdle
  split
  · exact Noted.result_forM fun b _ => rfl
  · rfl

def majorCounts (g : Grid α) (step : System α) : List (Share × Nat) :=
  (phaseParts g.live g.steps step).map fun q =>
    (.phase (.major q.1), copies g q.1 * q.2.equations.length)

/-- Without stages the equalities are those of the steps, whatever is noted. -/
theorem Expands.exists_equalities (h : n.Expands live steps stages g) (h₁ : 1 ≤ steps)
    (hstep : n.stepSystem = .ok step) (hwidth : step.width = g.live.length) (hstages : g.stages = 0)
    (tableau : Option (Tableau α)) (dt : α) : ∃ e : Equalities α,
      (n.equalities g tableau dt).result = .ok e ∧ e.step = step ∧ e.counts = majorCounts g step ∧
        e.system = majorSystem g step := by
  let parts := phaseParts g.live g.steps step
  let e : Equalities α := {
    system := majorSystem g step
    step
    phases := parts.map fun q => (Phase.major q.1, q.2)
    counts := majorCounts g step }
  refine ⟨e, ?_, rfl, rfl, rfl⟩
  apply Noted.result_bind.mpr ⟨step, hstep, ?_⟩
  apply Noted.result_bind.mpr ⟨parts, majorPhases_eq hwidth, ?_⟩
  apply Noted.result_bind.mpr ⟨_, h.relabel_unfolded h₁ step, ?_⟩
  apply Noted.result_bind.mpr ⟨(), result_noteIdle n g, ?_⟩
  rw [if_pos hstages]
  rfl

end Columns

section Values

variable [LinearOrder α] [ExactScalar α] {n : Network α} {live : List PhaseSet} {steps stages : Nat}
  {minor : Bool} {g : Grid α} {step : System α}

theorem OnGrid.exists_stepSystem (h : n.OnGrid minor live steps stages g) :
    ∃ step, n.stepSystem = .ok step ∧ step.Proper ∧ step.width = g.live.length := by
  obtain ⟨step, hstep, hproper, hwidth, _⟩ := stepSystem_eq h.wired
  exact ⟨step, hstep, hproper, by rw [hwidth, h.expands.live_eq, h.count]⟩

theorem OnGrid.keepsInputs (h : n.OnGrid minor live steps stages g) {t : Nat} (h₁ : 1 ≤ t)
    (ht : t ≤ steps) : n.KeepsInputs (stepMask live steps t) := by
  intro k b hb hk o ho hl i hi
  rw [kept_eq_liveAt h₁ ht] at hl ⊢
  exact h.closed.liveAt_inputs hb hk ho hl hi

/-- The part of a step reads, at the variables of a point, the values that the step has there. -/
theorem OnGrid.reads_step (h : n.OnGrid minor live steps stages g) {z : List α}
    (hz : g.majorCount ≤ z.length) {i : Nat} (hi : i < steps)
    (hr : n.RegularOn (LiveAt live steps (i + 1)) (g.reading z (i + 1))) (step : System α) :
    n.Reads (stepMask live steps (i + 1)) (g.reading z (i + 1)) fun c =>
      System.point z (g.labels.getD (c + System.offset (stepParts live steps step) i) 0) := by
  have hlive : System.Kept (stepMask live steps (i + 1)) = LiveAt live steps (i + 1) :=
    kept_eq_liveAt (Nat.le_add_left 1 i) (Nat.succ_le_of_lt hi)
  refine ⟨h.keepsInputs (Nat.le_add_left 1 i) (Nat.succ_le_of_lt hi), fun net hnet => ?_,
    fun net hnet => ?_, ?_⟩
  · rw [hlive] at hnet
    exact (h.expands.isSome_reading hz (i + 1) net).mpr hnet
  · rw [Grid.reading, h.expands.index?_column hi hnet step, Option.bind_some, System.point]
    simp
  · rw [hlive]
    exact hr

/-- At the variables of a point, the parts of all steps side by side are regular. -/
theorem OnGrid.regular_stepParts (h : n.OnGrid minor live steps stages g)
    (hstep : n.stepSystem = .ok step) {z : List α} (hz : g.majorCount ≤ z.length)
    (hr : ∀ t, n.RegularOn (LiveAt live steps t) (g.reading z t)) :
    (System.directSum (stepParts live steps step)).Regular fun c =>
      System.point z (g.labels.getD c 0) := by
  apply System.regular_directSum (proper_stepParts live steps step)
  intro i s hs
  obtain ⟨hi, rfl⟩ := getElem?_stepParts.mp hs
  exact (vanishes_stepSystem h.wired hstep (h.reads_step hz hi (hr (i + 1)) step)).1

/-- At the variables of a point, the equalities of all steps hold exactly when all outputs of
primitives have the values of their expressions. -/
theorem OnGrid.vanishes_majorSystem (h : n.OnGrid minor live steps stages g)
    (hstep : n.stepSystem = .ok step) {z : List α} (hz : g.majorCount ≤ z.length)
    (hr : ∀ t, n.RegularOn (LiveAt live steps t) (g.reading z t)) :
    (majorSystem g step).Vanishes (System.point z) ↔
      ∀ t, n.Solved (LiveAt live steps t) (g.reading z t) := by
  have hpart (i : Nat) (hi : i < steps) :=
    (vanishes_stepSystem h.wired hstep (h.reads_step hz hi (hr (i + 1)) step)).2
  have hlive (i : Nat) (hi : i < steps) :
      System.Kept (stepMask live steps (i + 1)) = LiveAt live steps (i + 1) :=
    kept_eq_liveAt (Nat.le_add_left 1 i) (Nat.succ_le_of_lt hi)
  rw [majorSystem, h.expands.live_eq, h.expands.steps_eq,
    System.vanishes_moved (h.regular_stepParts hstep hz hr),
    System.vanishes_directSum (proper_stepParts live steps step)]
  constructor
  · intro hv t k b j o hcomp
    obtain ⟨h₁, ht, _⟩ := hcomp.isAlive
    obtain ⟨i, rfl⟩ : ∃ i, t = i + 1 := ⟨t - 1, by omega⟩
    have hi : i < steps := by omega
    rw [← hlive i hi] at hcomp
    exact (hpart i hi).mp (hv i _ (getElem?_stepParts.mpr ⟨hi, rfl⟩)) k b j o hcomp
  · intro hsolved i s hs
    obtain ⟨hi, rfl⟩ := getElem?_stepParts.mp hs
    apply (hpart i hi).mpr
    rw [hlive i hi]
    exact hsolved (i + 1)

/-- Without stages the equalities are those of the steps. -/
theorem OnGrid.exists_equalities (h : n.OnGrid minor live steps 0 g) (tableau : Option (Tableau α))
    (dt : α) : ∃ (e : Equalities α) (step : System α),
      (n.equalities g tableau dt).result = .ok e ∧ n.stepSystem = .ok step ∧ e.step = step ∧
        e.system = majorSystem g step := by
  obtain ⟨step, hstep, _, hwidth⟩ := h.exists_stepSystem
  have hstages : g.stages = 0 := by
    rw [h.expands.stages_eq]
    split <;> rfl
  obtain ⟨e, he, hkept, _, hsystem⟩ :=
    h.expands.exists_equalities h.steps_pos hstep hwidth hstages tableau dt
  exact ⟨e, step, he, hstep, hkept, hsystem⟩

end Values

end Network

/-- Without a tableau, the points of the equalities are the assignments to the live nets that delays
carry and windows keep, and their residual is zero exactly when all outputs of primitives that are
live have the values of their expressions. -/
theorem Run.equalities_without_stages {α : Type} [LinearOrder α] [ExactScalar α] {d : Diagram}
    {hold : Hold} {steps count : Nat} {dt : α} {n : Network α}
    (hnotes : (d.trace hold : Noted α (Network α)).notes = [])
    (hmerged : (Run.ofDiagram (.full steps dt hold none) d).merged = some (count, n))
    (hsingle : n.SingleSourced) (hsteps : 1 ≤ steps) :
    ∃ (live : List PhaseSet) (g : Grid α) (e : Equalities α),
      (Run.ofDiagram (.full steps dt hold none) d).live = some live ∧
      (Run.ofDiagram (.full steps dt hold none) d).grid = some g ∧
      (Run.ofDiagram (.full steps dt hold none) d).equalities = some e ∧ live = n.liveness false ∧
      ∃ φ : {z : List α // z.length = g.majorCount} ≃
          {v : Assignment live steps α // n.Continues v.value},
        ∀ z, (∀ t net, (φ z).1.value t net = (g.index? net t).bind fun i => z.1[i]?) ∧
          ∃ rs, e.system.residual z.1 = .ok rs ∧
            ((∀ t, n.RegularOn (LiveAt live steps t) ((φ z).1.value t)) →
              ((∀ r ∈ rs, r = 0) ↔ ∀ t, n.Solved (LiveAt live steps t) ((φ z).1.value t))) := by
  obtain ⟨g, hg, hrun⟩ := Run.exists_onGrid hnotes hmerged hsingle hsteps
  obtain ⟨e, step, he, hstep, _, hsystem⟩ := hg.exists_equalities none dt
  obtain ⟨hlive, hgrid, hequalities⟩ := hrun e he
  obtain ⟨φ, hφ⟩ := hg.expands.exists_equiv hg.closed
  refine ⟨_, g, e, hlive, hgrid, hequalities, rfl, φ, fun z => ?_⟩
  have hread : (φ z).1.value = g.reading z.1 := hφ z
  have hwidth : z.1.length = e.system.width := z.2.trans (by rw [hsystem]; rfl)
  refine ⟨fun t net => by rw [hread]; rfl, _, Network.residual_of_proper hwidth, fun hr => ?_⟩
  rw [hread] at hr ⊢
  rw [hsystem]
  exact hg.vanishes_majorSystem hstep z.2.ge hr

/-- The running total over three steps. -/
theorem Run.equalities_without_stages_total :
    (RunningTotal.diagram.trace .firstOrder : Noted ℚ _).notes = [] ∧
      (Run.ofDiagram (.full 3 (1 / 2 : ℚ) .firstOrder none) RunningTotal.diagram).merged =
        some (4, RunningTotal.network) ∧ RunningTotal.network.SingleSourced ∧ 1 ≤ 3 ∧
      ∃ (live : List PhaseSet) (g : Grid ℚ) (e : Equalities ℚ),
        (Run.ofDiagram (.full 3 (1 / 2 : ℚ) .firstOrder none) RunningTotal.diagram).live = some live ∧
        (Run.ofDiagram (.full 3 (1 / 2 : ℚ) .firstOrder none) RunningTotal.diagram).grid = some g ∧
        (Run.ofDiagram (.full 3 (1 / 2 : ℚ) .firstOrder none) RunningTotal.diagram).equalities =
          some e ∧ live = RunningTotal.network.liveness false ∧
        ∃ φ : {z : List ℚ // z.length = g.majorCount} ≃
            {v : Assignment live 3 ℚ // RunningTotal.network.Continues v.value},
          ∀ z, (∀ t net, (φ z).1.value t net = (g.index? net t).bind fun i => z.1[i]?) ∧
            ∃ rs, e.system.residual z.1 = .ok rs ∧
              ((∀ t, RunningTotal.network.RegularOn (LiveAt live 3 t) ((φ z).1.value t)) →
                ((∀ r ∈ rs, r = 0) ↔
                  ∀ t, RunningTotal.network.Solved (LiveAt live 3 t) ((φ z).1.value t))) :=
  have hnotes := congrArg Noted.notes RunningTotal.trace_diagram
  have hmerged := RunningTotal.merged_diagram 3 (1 / 2) none
  ⟨hnotes, hmerged, RunningTotal.singleSourced_network, by decide,
    Run.equalities_without_stages hnotes hmerged RunningTotal.singleSourced_network (by decide)⟩

end Transcription
