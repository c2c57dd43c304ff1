import Transcription.Proofs.Integration.Coupling
import Transcription.Proofs.Program.Discrete

namespace Transcription

namespace Network

variable {α : Type} [Scalar α] {n : Network α} {live : List PhaseSet} {steps stages : Nat} {g : Grid α}

theorem Linked.exists_netSystem (h : n.Linked) {k : Nat} {b : TracedBlock α}
    (hb : n.block? k = some b) :
    ∃ o, n.netSystem? b = .ok o ∧ ∀ u, o = some u → u.width = n.wires.netCount := by
  unfold netSystem?
  dsimp only
  split
  case isTrue hfits =>
    simp only [Bool.and_eq_true, decide_eq_true_eq] at hfits
    have hnets : ∀ c ∈ (b.inputs ++ b.outputs).map n.wires.netOf, c < n.wires.netCount :=
      List.forall_mem_map.mpr fun i hi => h.netOf_lt hb hi
    rw [System.relabel_eq hfits.2 hnets]
    exact ⟨_, rfl, fun u hu => by cases hu; rfl⟩
  case isFalse => exact ⟨none, rfl, fun u hu => nomatch hu⟩

theorem Linked.exists_stepSystem (h : n.Linked) :
    ∃ step, n.stepSystem = .ok step ∧ step.width = n.wires.netCount := by
  have hblock (b : TracedBlock α) (hb : b ∈ n.blocks.blocks) : ∃ k, n.block? k = some b :=
    List.mem_iff_getElem?.mp hb
  obtain ⟨os, hos⟩ : ∃ os, n.blocks.blocks.mapM n.netSystem? = .ok os := except_mapM_ok fun b hb => by
    obtain ⟨k, hk⟩ := hblock b hb
    obtain ⟨o, ho, _⟩ := h.exists_netSystem hk
    exact ⟨o, ho⟩
  refine ⟨System.stacked n.wires.netCount (os.filterMap id), ?_, rfl⟩
  rw [stepSystem, hos]
  apply System.combine_eq
  intro u hu
  obtain ⟨o, ho, hou⟩ := List.mem_filterMap.mp hu
  obtain ⟨b, hb, hs⟩ := except_mapM_mem hos ho
  obtain ⟨k, hk⟩ := hblock b hb
  obtain ⟨o', ho', hwidth⟩ := h.exists_netSystem hk
  exact (hwidth u ((Except.ok.inj (ho'.symm.trans hs)).trans hou)).le

section Variables

variable {k s net i : Nat}

theorem add_mul_lt {a b m l : Nat} (ha : a < m) (hb : b < l) : a * l + b < m * l := by
  have := Nat.mul_le_mul_right l (Nat.succ_le_of_lt ha)
  rw [Nat.succ_mul] at this
  omega

omit [Scalar α] in
/-- Without stages all variables are those of the steps. -/
theorem majorCount_eq_size (h : g.stages = 0) : g.majorCount = g.size := by
  simp [Grid.size, Grid.intervals, h]

/-- A grid has the stages of the tableau that it was laid out for, or none. -/
theorem Expands.stages_cases {tableau : Option (Tableau α)}
    (h : n.Expands live steps ((tableau.map (·.stages)).getD 0) g) :
    g.stages = 0 ∨ ∃ t, tableau = some t ∧ g.stages = t.stages ∧ g.stages ≠ 0 ∧ 2 ≤ steps := by
  have hstages := h.stages_eq
  split at hstages
  case isTrue => exact .inl hstages
  case isFalse hsteps =>
    by_cases hz : g.stages = 0
    · exact .inl hz
    · cases tableau with
      | none => exact absurd hstages hz
      | some t => exact .inr ⟨t, rfl, hstages, hz, Nat.le_of_not_lt hsteps⟩

theorem Expands.index?_lt (h : n.Expands live steps stages g) (hi : g.index? net k = some i) :
    i < g.size := by
  obtain ⟨e, _, he⟩ := h.index?_eq_some.mp hi
  exact Nat.lt_of_lt_of_le (h.labels_lt (List.mem_of_getElem? he)) (Nat.le_add_right _ _)

omit [Scalar α] in
theorem minorIndex?_lt (hi : g.minorIndex? net k s = some i) : i < g.size := by
  obtain ⟨rank, hrank, hi⟩ := Option.bind_eq_some_iff.mp hi
  have hlt := (List.idxOf?_eq_some_iff.mp hrank).1
  split at hi
  case isFalse => cases hi
  case isTrue hrange =>
    simp only [Bool.and_eq_true, decide_eq_true_eq] at hrange
    obtain ⟨⟨⟨h₁, hk⟩, h₂⟩, hs⟩ := hrange
    cases hi
    have hcopy : (k - 1) * g.stages + (s - 1) < g.intervals * g.stages :=
      add_mul_lt (by omega) (by omega)
    have := add_mul_lt hcopy hlt
    rw [Grid.stageBase, Grid.size]
    omega

omit [Scalar α] in
theorem slopes_lt (g : Grid α) (slope k : Nat) :
    ∀ c ∈ slopes g slope k, ∀ i, c = some i → i < g.size := by
  intro c hc
  obtain ⟨s, _, rfl⟩ := List.mem_map.mp hc
  exact fun _ => minorIndex?_lt

/-- The variables of a step across an interval are those of the grid. -/
theorem Expands.increment_lt (h : n.Expands live steps stages g) (state slope k : Nat) :
    ∀ c ∈ g.index? state k :: g.index? state (k + 1) :: slopes g slope k, ∀ i, c = some i →
      i < g.size :=
  List.forall_mem_cons.mpr ⟨fun _ => h.index?_lt,
    List.forall_mem_cons.mpr ⟨fun _ => h.index?_lt, slopes_lt g slope k⟩⟩

/-- So are those of a stage, -/
theorem Expands.stage_lt (h : n.Expands live steps stages g) (state slope k s : Nat) :
    ∀ c ∈ g.index? state k :: g.minorIndex? state k s :: slopes g slope k, ∀ i, c = some i →
      i < g.size :=
  List.forall_mem_cons.mpr ⟨fun _ => h.index?_lt,
    List.forall_mem_cons.mpr ⟨fun _ => minorIndex?_lt, slopes_lt g slope k⟩⟩

/-- and those of a hold. -/
theorem Expands.hold_lt (h : n.Expands live steps stages g) (t : Tableau α) (held : Held α)
    (k s : Nat) : ∀ c ∈ (holdTerms g t held k s).1, ∀ i, c = some i → i < g.size := by
  have hindex (j i : Nat) (hi : g.index? held.net j = some i) : i < g.size := h.index?_lt hi
  have hminor (i : Nat) (hi : g.minorIndex? held.net k s = some i) : i < g.size := minorIndex?_lt hi
  unfold holdTerms
  cases held.hold with
  | firstOrder =>
    exact List.forall_mem_cons.mpr ⟨hindex _, List.forall_mem_cons.mpr ⟨hindex _,
      List.forall_mem_singleton.mpr hminor⟩⟩
  | zeroOrder => exact List.forall_mem_cons.mpr ⟨hindex _, List.forall_mem_singleton.mpr hminor⟩

theorem Couples.within (h : n.Expands live steps stages g) {t : Tableau α} {dt : α} {r : Terms α}
    (hr : n.Couples g t dt r) : ∀ e ∈ r, 0 ≤ e.1 ∧ e.1 < g.size := by
  cases hr with
  | increment _ _ hr => exact hr.within (h.increment_lt _ _ _)
  | stage _ _ _ _ hr => exact hr.within (h.stage_lt _ _ _ _)
  | held _ _ _ hr => exact hr.within (h.hold_lt _ _ _ _)

end Variables

def minorSystem (g : Grid α) (step : System α) : System α :=
  (step.trimmed (minorMask g.live)).replicate (g.intervals * g.stages)

theorem proper_minorSystem (g : Grid α) (step : System α) : (minorSystem g step).Proper := by
  rw [minorSystem, System.replicate_eq_directSum]
  apply System.Proper.directSum
  intro s hs
  rw [List.eq_of_mem_replicate hs]
  exact System.proper_trimmed _ _

theorem Expands.width_sides (h : n.Expands live steps stages g) (hs : g.stages ≠ 0)
    (step : System α) : ((majorSystem g step).join (minorSystem g step)).width = g.size := by
  change g.majorCount + g.intervals * g.stages * (step.trimmed (minorMask g.live)).width = _
  rw [System.width_trimmed, Grid.size, h.minorNets_eq, if_neg hs, length_marked, h.live_eq]

theorem Expands.proper_sides (h : n.Expands live steps stages g) (step : System α) :
    ((majorSystem g step).join (minorSystem g step)).Proper :=
  (h.proper_majorSystem step).join (proper_minorSystem g step)

/-- The polynomials of the steps come first, then those of the stages and those of linear rows. -/
theorem Expands.polynomials_sides (h : n.Expands live steps stages g) (step : System α)
    {linear : System α} (hl : linear.Proper) :
    (System.stacked g.size [(majorSystem g step).join (minorSystem g step), linear]).polynomials =
      (majorSystem g step).polynomials ++
        ((minorSystem g step).polynomials.map (Poly.shift g.majorCount) ++ linear.polynomials) := by
  have hsides : ∀ s ∈ [(majorSystem g step).join (minorSystem g step), linear], s.Proper :=
    List.forall_mem_cons.mpr ⟨h.proper_sides step, List.forall_mem_singleton.mpr hl⟩
  rw [System.polynomials_stacked hsides, List.flatMap_cons, List.flatMap_singleton,
    System.polynomials_join (h.proper_majorSystem step), List.append_assoc]
  rfl

omit [Scalar α] in
theorem filter_tableau {t : Tableau α} (h : g.stages = t.stages) :
    ((some t).filter fun t => t.stages = g.stages) = some t := by
  rw [Option.filter_some, h, if_pos (decide_eq_true rfl)]

/-- With stages the equalities are those of the steps and the stages, and the coupling rows that are
gathered. -/
theorem Expands.exists_coupled {t : Tableau α} (h : n.Expands live steps stages g) (h₁ : 1 ≤ steps)
    {step : System α} (hstep : n.stepSystem = .ok step) (hwidth : step.width = g.live.length)
    (hstages : g.stages = t.stages) (hpos : g.stages ≠ 0) {rows : List (Terms α)} {dt : α}
    (hrows : (n.couplingRows g t dt).result = .ok (rows.foldl LinearRows.add { width := g.size }))
    (hcouples : ∀ r ∈ rows, n.Couples g t dt r) :
    ∃ (e : Equalities α) (linear : System α), (n.equalities g (some t) dt).result = .ok e ∧
      e.counts = majorCounts g step ++ [(.phase .minor, (minorSystem g step).equations.length),
        (.coupling, rows.length)] ∧
      linear.Proper ∧ linear.width = g.size ∧ linear.polynomials = rows.map LinearRows.poly ∧
        e.system = .stacked g.size [(majorSystem g step).join (minorSystem g step), linear] := by
  obtain ⟨linear, hlinear, hproper, hlinearWidth, hpoly⟩ :=
    LinearRows.exists_polynomials fun r hr => Couples.within h (hcouples r hr)
  let system := System.stacked g.size [(majorSystem g step).join (minorSystem g step), linear]
  have hsystem : System.combine g.size
      [System.directSum [majorSystem g step, minorSystem g step], linear] = .ok system := by
    rw [System.directSum_cons, System.directSum_singleton]
    apply System.combine_eq
    exact List.forall_mem_cons.mpr ⟨(h.width_sides hpos step).le,
      List.forall_mem_singleton.mpr hlinearWidth.le⟩
  let parts := phaseParts g.live g.steps step
  let part := step.trimmed (minorMask g.live)
  let linearRows := rows.foldl LinearRows.add { width := g.size }
  let e : Equalities α := {
    system, step
    phases := (parts.map fun q => (Phase.major q.1, q.2)) ++ [(.minor, part)]
    counts := majorCounts g step ++ [(.phase .minor, (minorSystem g step).equations.length),
      (.coupling, linearRows.rows.length)] }
  have hlength : linearRows.rows.length = rows.length := by
    rw [show linearRows = _ from LinearRows.foldl_add rows _, List.nil_append, List.length_map]
  have htrim : step.trim (minorMask g.live) = .ok part :=
    System.trim_eq (by rw [length_minorMask, hwidth])
  refine ⟨e, linear, ?_, by rw [← hlength], hproper, hlinearWidth, hpoly, rfl⟩
  apply Noted.result_bind.mpr ⟨step, hstep, ?_⟩
  apply Noted.result_bind.mpr ⟨parts, majorPhases_eq hwidth, ?_⟩
  apply Noted.result_bind.mpr ⟨_, h.relabel_unfolded h₁ step, ?_⟩
  apply Noted.result_bind.mpr ⟨(), result_noteIdle n g, ?_⟩
  rw [if_neg hpos]
  simp only [filter_tableau hstages]
  apply Noted.result_bind.mpr ⟨part, htrim, ?_⟩
  apply Noted.result_bind.mpr ⟨_, hrows, ?_⟩
  apply Noted.result_bind.mpr ⟨linear, hlinear, ?_⟩
  exact Noted.result_bind.mpr ⟨system, hsystem, rfl⟩

section Notes

variable {step : System α} {dt : α} {e : Diagnostic α}

/-- Integrators that no stages integrate are noted with the equalities. -/
theorem Expands.notes_idle (h : n.Expands live steps stages g) (h₁ : 1 ≤ steps)
    (hstep : n.stepSystem = .ok step) (hwidth : step.width = g.live.length)
    (tableau : Option (Tableau α)) (dt : α) (he : e ∈ (n.noteIdle g).notes) :
    e ∈ (n.equalities g tableau dt).notes := by
  unfold equalities
  apply Noted.mem_notes_next (b := step) hstep
  apply Noted.mem_notes_next (b := phaseParts g.live g.steps step) (majorPhases_eq hwidth)
  apply Noted.mem_notes_next (b := majorSystem g step) (h.relabel_unfolded h₁ step)
  exact Noted.mem_notes_bind he

/-- So are coupling rows that lack a variable. -/
theorem Expands.notes_coupling (h : n.Expands live steps stages g) (h₁ : 1 ≤ steps)
    (hstep : n.stepSystem = .ok step) (hwidth : step.width = g.live.length) {t : Tableau α}
    (hstages : g.stages = t.stages) (hpos : g.stages ≠ 0) (dt : α)
    (he : e ∈ (n.couplingRows g t dt).notes) : e ∈ (n.equalities g (some t) dt).notes := by
  unfold equalities
  apply Noted.mem_notes_next (b := step) hstep
  apply Noted.mem_notes_next (b := phaseParts g.live g.steps step) (majorPhases_eq hwidth)
  apply Noted.mem_notes_next (b := majorSystem g step) (h.relabel_unfolded h₁ step)
  apply Noted.mem_notes_next (b := ()) (result_noteIdle n g)
  rw [if_neg hpos]
  simp only [filter_tableau hstages]
  apply Noted.mem_notes_next (b := step.trimmed (minorMask g.live))
    (System.trim_eq (by rw [length_minorMask, hwidth]))
  exact Noted.mem_notes_bind he

end Notes

end Network

end Transcription
