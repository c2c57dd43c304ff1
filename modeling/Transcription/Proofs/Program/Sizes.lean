import Transcription.Proofs.Program.Completion

namespace Transcription

variable {α : Type} [Scalar α]

/-- Settings that are accepted have a step. -/
theorem Settings.one_le_horizon {horizon method hold : Value} {stepSize : Float}
    {supply : Option (Tableau.Supply α)} {s : Settings α}
    (h : ofValues horizon stepSize method supply hold = .ok s) : 1 ≤ s.horizon := by
  unfold ofValues at h
  obtain ⟨steps, hsteps, h⟩ := except_bind_eq_ok.mp h
  have hpos : 1 ≤ steps := by
    unfold horizonOf at hsteps
    obtain ⟨n, _, hsteps⟩ := except_bind_eq_ok.mp hsteps
    obtain ⟨same, _, hsteps⟩ := except_bind_eq_ok.mp hsteps
    dsimp only at hsteps
    split at hsteps
    · cases hsteps
    · rename_i hn
      cases hsteps
      simp only [Bool.or_eq_true, decide_eq_true_eq, not_or] at hn
      omega
  split at h
  · cases h
  · obtain ⟨_, _, h⟩ := except_bind_eq_ok.mp h
    obtain ⟨_, _, h⟩ := except_bind_eq_ok.mp h
    cases h
    exact hpos

theorem System.proper_of_trim {s t : System α} {keep : List Bool} (h : s.trim keep = .ok t) :
    t.Proper := by
  by_cases hlength : keep.length = s.width
  · rw [trim_eq hlength] at h
    cases h
    exact proper_trimmed s keep
  · rw [trim, if_neg hlength] at h
    cases h

theorem System.proper_of_relabel {s t : System α} {targets : List Nat} {n : Nat} (hs : s.Proper)
    (h : s.relabel targets n = .ok t) : t.Proper ∧ t.width = n := by
  have hlength : targets.length = s.width := by
    by_contra hne
    rw [relabel, if_neg hne] at h
    cases h
  have hwithin : ∀ c ∈ targets, c < n := by
    rw [relabel, if_pos hlength] at h
    split at h
    · rename_i hall
      simpa using hall
    · cases h
  rw [relabel_eq hlength hwithin] at h
  cases h
  exact ⟨hs.moved hlength hwithin, rfl⟩

namespace Network

/-- The equations of the blocks that were traced stay within their wires. -/
theorem proper_traceMeasured {d : Diagram} {hold : Hold} {n : Network α}
    (h : (traceMeasured d hold).result = .ok n) : ∀ b ∈ n.blocks.blocks, b.system.Proper := by
  obtain ⟨search, wired, hsearch, hwired, _, hkept, _⟩ := exists_wired h
  intro b hb
  obtain ⟨b₀, hb₀, hw⟩ := exists_wires_of_mem hwired (hkept ▸ hb)
  obtain ⟨_, hrec⟩ := (Search.sound_ofDiagram hsearch).recorded b₀ hb₀
  rw [hw.system_eq]
  exact Diagram.proper_record hrec

variable {n : Network α} {live : List PhaseSet} {steps stages : Nat} {g : Grid α} {step : System α}

theorem Linked.proper_netSystem (h : n.Linked) {k : Nat} {b : TracedBlock α}
    (hb : n.block? k = some b) (hproper : b.system.Proper) {u : System α}
    (hu : n.netSystem? b = .ok (some u)) : u.Proper := by
  unfold netSystem? at hu
  dsimp only at hu
  split at hu
  case isTrue hfits =>
    simp only [Bool.and_eq_true, decide_eq_true_eq] at hfits
    have hnets : ∀ c ∈ (b.inputs ++ b.outputs).map n.wires.netOf, c < n.wires.netCount :=
      List.forall_mem_map.mpr fun i hi => h.netOf_lt hb hi
    rw [System.relabel_eq hfits.2 hnets] at hu
    cases hu
    exact hproper.moved hfits.2 hnets
  case isFalse => cases hu

theorem Linked.proper_stepSystem (h : n.Linked) (hproper : ∀ b ∈ n.blocks.blocks, b.system.Proper)
    (hstep : n.stepSystem = .ok step) : step.Proper := by
  unfold stepSystem at hstep
  obtain ⟨os, hos, hcombine⟩ := except_bind_eq_ok.mp hstep
  have hsystems : ∀ u ∈ os.filterMap id, u.Proper ∧ u.width ≤ n.wires.netCount := by
    intro u hu
    obtain ⟨_, ho, rfl⟩ := List.mem_filterMap.mp hu
    obtain ⟨b, hb, hs⟩ := except_mapM_mem hos ho
    obtain ⟨k, hk⟩ := List.mem_iff_getElem?.mp hb
    obtain ⟨o, ho, hwidth⟩ := h.exists_netSystem hk
    exact ⟨h.proper_netSystem hk (hproper b hb) hs,
      (hwidth u (Except.ok.inj (ho.symm.trans hs))).le⟩
  rw [System.combine_eq fun u hu => (hsystems u hu).2] at hcombine
  cases hcombine
  exact .stacked hsystems

/-- What the equalities of a grid are made of, stage by stage. -/
theorem equalities_eq_ok {tableau : Option (Tableau α)} {dt : α} {e : Equalities α}
    (h : (n.equalities g tableau dt).result = .ok e) :
    ∃ parts major, n.stepSystem = .ok e.step ∧ majorPhases g e.step = .ok parts ∧
      (unfolded g parts).relabel g.labels g.majorCount = .ok major ∧
      ((g.stages = 0 ∧ e.system = major ∧ e.phases = parts.map fun q => (Phase.major q.1, q.2)) ∨
        (g.stages ≠ 0 ∧ ∃ (part linear : System α) (rows : LinearRows α),
          e.step.trim (minorMask g.live) = .ok part ∧ rows.system = .ok linear ∧
          System.combine g.size
            [System.directSum [major, part.replicate (g.intervals * g.stages)], linear] = .ok e.system ∧
          e.phases = (parts.map fun q => (Phase.major q.1, q.2)) ++ [(.minor, part)])) := by
  unfold equalities at h
  obtain ⟨step, hstep, h⟩ := Noted.result_bind.mp h
  obtain ⟨parts, hparts, h⟩ := Noted.result_bind.mp h
  obtain ⟨major, hmajor, h⟩ := Noted.result_bind.mp h
  obtain ⟨_, _, h⟩ := Noted.result_bind.mp h
  dsimp only at h
  split at h
  · rename_i hstages
    cases h
    exact ⟨parts, major, hstep, hparts, hmajor, .inl ⟨hstages, rfl, rfl⟩⟩
  · rename_i hstages
    split at h
    · cases h
    · obtain ⟨part, hpart, h⟩ := Noted.result_bind.mp h
      obtain ⟨rows, _, h⟩ := Noted.result_bind.mp h
      obtain ⟨linear, hlinear, h⟩ := Noted.result_bind.mp h
      obtain ⟨system, hsystem, h⟩ := Noted.result_bind.mp h
      cases h
      exact ⟨parts, major, hstep, hparts, hmajor,
        .inr ⟨hstages, part, linear, rows, hpart, hlinear, hsystem, rfl⟩⟩

theorem proper_majorPhases {parts : List (MajorPhase × System α)} (h : majorPhases g step = .ok parts) :
    ∀ q ∈ parts, q.2.Proper := by
  unfold majorPhases at h
  obtain ⟨initial, hinitial, h⟩ := except_bind_eq_ok.mp h
  split at h
  · cases h
    exact List.forall_mem_singleton.mpr (System.proper_of_trim hinitial)
  · obtain ⟨final, hfinal, h⟩ := except_bind_eq_ok.mp h
    have hlast := System.proper_of_trim hfinal
    have hfirst := System.proper_of_trim hinitial
    split at h
    · obtain ⟨middle, hmiddle, h⟩ := except_bind_eq_ok.mp h
      cases h
      exact List.forall_mem_cons.mpr ⟨hfirst, List.forall_mem_cons.mpr
        ⟨System.proper_of_trim hmiddle, List.forall_mem_singleton.mpr hlast⟩⟩
    · cases h
      exact List.forall_mem_cons.mpr ⟨hfirst, List.forall_mem_cons.mpr
        ⟨System.proper_empty 0, List.forall_mem_singleton.mpr hlast⟩⟩

/-- The equalities of a grid keep the equations of all blocks, and the parts of a step that they are
made of refer to nothing beyond themselves. -/
theorem parts_equalities {tableau : Option (Tableau α)} {dt : α} {e : Equalities α}
    (h : (n.equalities g tableau dt).result = .ok e) :
    n.stepSystem = .ok e.step ∧ ∀ q ∈ e.phases, q.2.Proper := by
  obtain ⟨parts, major, hstep, hparts, _, hcases⟩ := equalities_eq_ok h
  have hphases : ∀ q ∈ parts.map (fun q => (Phase.major q.1, q.2)), q.2.Proper :=
    List.forall_mem_map.mpr (proper_majorPhases hparts)
  refine ⟨hstep, ?_⟩
  rcases hcases with ⟨_, _, heq⟩ | ⟨_, part, _, _, hpart, _, _, heq⟩
  · exact heq ▸ hphases
  · rw [heq]
    exact List.forall_mem_append.mpr
      ⟨hphases, List.forall_mem_singleton.mpr (System.proper_of_trim hpart)⟩

/-- The equalities of a grid are over its variables and refer to nothing beyond themselves. -/
theorem proper_equalities {tableau : Option (Tableau α)} {dt : α} {e : Equalities α}
    (h : (n.equalities g tableau dt).result = .ok e) : e.system.Proper ∧ e.system.width = g.size := by
  obtain ⟨parts, major, _, hparts, hmajor, hcases⟩ := equalities_eq_ok h
  have hphases := proper_majorPhases hparts
  have hcopies (s : System α) (hs : s.Proper) (k : Nat) : (s.replicate k).Proper := by
    rw [System.replicate_eq_directSum]
    exact .directSum fun t ht => List.eq_of_mem_replicate ht ▸ hs
  have hunfolded : (unfolded g parts).Proper := by
    refine .directSum (List.forall_mem_map.mpr fun q hq => ?_)
    obtain ⟨p, s⟩ := q
    cases p
    case intermediate => exact hcopies s (hphases _ hq) _
    all_goals exact hphases _ hq
  obtain ⟨hproper, hwidth⟩ := System.proper_of_relabel hunfolded hmajor
  rcases hcases with ⟨hstages, heq, _⟩ | ⟨_, part, linear, rows, hpart, hlinear, hsystem, _⟩
  · exact heq ▸ ⟨hproper, hwidth.trans (majorCount_eq_size hstages)⟩
  · obtain ⟨heq, hwidths⟩ := System.combine_eq_ok hsystem
    rw [heq]
    refine ⟨.stacked fun s hs => ⟨?_, hwidths s hs⟩, rfl⟩
    rcases List.mem_pair.mp hs with rfl | rfl
    · exact .directSum (List.forall_mem_cons.mpr ⟨hproper,
        List.forall_mem_singleton.mpr (hcopies part (System.proper_of_trim hpart) _)⟩)
    · exact LinearRows.proper_system hlinear

/-- The entries of a grid are those of its steps, then those of its stages. -/
theorem entries_expand (h : (n.expand live steps stages).result = .ok g) :
    ∃ majors : List (Entry α), (∀ e ∈ majors, e.stage = 0) ∧
      g.entries = majors ++ minorEntries g.majorCount g.steps g.stages g.minorNets := by
  unfold expand at h
  by_cases hpos : (steps : Int) < 1
  · rw [if_pos hpos] at h
    cases h
  simp only [if_neg hpos, Int.toNat_natCast] at h
  obtain ⟨drafts, hd, h⟩ := Noted.result_bind.mp h
  obtain ⟨pairs, hp, h⟩ := Noted.result_bind.mp h
  obtain ⟨_, _, h⟩ := Noted.result_bind.mp h
  rw [result_joins] at hp
  cases hp
  obtain ⟨_, _, hstage⟩ := majors_eq (except_mapM_eq_ok.mp hd)
    (length_sharedLabels (joinPairs_lt n _ steps))
  cases h
  exact ⟨_, hstage, rfl⟩

theorem mem_entries_expand (h : (n.expand live steps stages).result = .ok g) {e : Entry α}
    (he : e ∈ g.entries) :
    e.stage = 0 ∨ e ∈ (minorEntries g.majorCount g.steps g.stages g.minorNets : List (Entry α)) := by
  obtain ⟨majors, hstage, hentries⟩ := entries_expand h
  rw [hentries] at he
  exact (List.mem_append.mp he).imp_left (hstage e)

/-- The entries of stages have variables after those of the steps, as many as the grid counts. -/
theorem minorEntries_lt {g : Grid α} {e : Entry α}
    (he : e ∈ (minorEntries g.majorCount g.steps g.stages g.minorNets : List (Entry α))) :
    e.net ∈ g.minorNets ∧ e.index < g.size := by
  simp only [minorEntries, List.mem_flatMap, List.mem_map] at he
  obtain ⟨k, hk, s, hs, ⟨net, rank⟩, hnet, rfl⟩ := he
  have hrank := List.mem_zipIdx_iff_getElem?.mp hnet
  have hlt := (List.getElem?_eq_some_iff.mp hrank).1
  obtain ⟨h₁, hk⟩ := mem_stepsFrom.mp hk
  obtain ⟨h₂, hs⟩ := mem_stepsFrom.mp hs
  have hstages : g.stages ≠ 0 := by omega
  have hcopy : (k - 1) * g.stages + (s - 1) < (g.steps - 1) * g.stages :=
    add_mul_lt (by omega) (by omega)
  have := add_mul_lt hcopy hlt
  refine ⟨List.mem_of_getElem? hrank, ?_⟩
  dsimp only
  rw [Grid.stageBase, Grid.size, Grid.intervals, if_neg hstages]
  omega

/-- Every entry has a variable of the grid, and a net that wires are on. -/
theorem Laid.entries (h : n.Laid live steps stages g) {phases : List PhaseSet}
    (hg : ((n.withLiveness phases).expand live steps stages).result = .ok g) {e : Entry α}
    (he : e ∈ g.entries) : e.index < g.size ∧ n.wires.group e.net ≠ [] := by
  rcases mem_entries_expand hg he with hstage | hminor
  · have hmajor : e ∈ g.majors := List.mem_filter.mpr ⟨he, decide_eq_true hstage⟩
    have hlabel : e.index ∈ g.labels := h.expands.indices_eq ▸ List.mem_map_of_mem hmajor
    obtain ⟨w, hw⟩ := h.weighs.entered e hmajor
    refine ⟨Nat.lt_of_lt_of_le (h.expands.labels_lt hlabel) (Nat.le_add_right _ _), ?_⟩
    exact List.ne_nil_of_mem (List.mem_of_mem_head? hw.first)
  · obtain ⟨hnet, hindex⟩ := minorEntries_lt hminor
    refine ⟨hindex, h.netted.group_ne_nil ?_⟩
    rw [h.expands.minorNets_eq] at hnet
    split at hnet
    · cases hnet
    · rw [← h.count, ← length_minorMask live]
      exact (List.mem_range.mp (List.mem_filter.mp hnet).1)

end Network

namespace Program

/-- A program over `size` variables: the combined system and its three sections refer to no variable
and no monomial that they do not have, and there is a bound on either side, a cost, a mark of each sort
and a list of names for every variable. -/
structure Fits (p : Program α) (size : Nat) : Prop where
  systems : ∀ s ∈ p.combined :: p.sections, s.Proper ∧ s.width = size
  lower : p.lower.length = size
  upper : p.upper.length = size
  costs : p.costs.length = size
  inputs : p.inputs.length = size
  externals : p.externals.length = size
  states : p.states.length = size
  names : p.names.length = size

omit [Scalar α] in
theorem within_singleton {n c : Nat} {a : α} (h : c < n) : Row.Within n [(c, a)] :=
  List.forall_mem_singleton.mpr h

theorem proper_costRow (costs : List α) : (costRow costs).Proper := by
  unfold costRow
  dsimp only
  split
  · refine ⟨List.forall_mem_map.mpr fun e he => within_singleton ?_,
      List.forall_mem_singleton.mpr (List.forall_mem_map.mpr fun e he => ?_)⟩
    · have := List.mem_zipIdx_iff_getElem?.mp (List.mem_filter.mp he).1
      exact (List.getElem?_eq_some_iff.mp this).1
    · rw [List.length_map]
      exact (List.getElem?_eq_some_iff.mp (List.mem_zipIdx_iff_getElem?.mp he)).1
  · split
    · exact ⟨List.forall_mem_singleton.mpr (List.forall_mem_nil _),
        List.forall_mem_singleton.mpr (List.forall_mem_nil _)⟩
    · exact System.proper_empty 0

theorem column_lt {lower upper : List (Limit α)} (h : upper.length = lower.length) {b : Bound α}
    (hb : b ∈ bounds lower upper) : b.column < lower.length := by
  have hlimit (limits : List (Limit α)) (e : Nat × α) (he : e ∈ finiteLimits limits) :
      e.1 < limits.length := by
    obtain ⟨⟨l, i⟩, hl, he⟩ := List.mem_filterMap.mp he
    obtain ⟨a, _, rfl⟩ := Option.map_eq_some_iff.mp he
    exact (List.getElem?_eq_some_iff.mp (List.mem_zipIdx_iff_getElem?.mp hl)).1
  rcases List.mem_append.mp hb with hb | hb
  · obtain ⟨e, he, rfl⟩ := List.mem_map.mp hb
    exact h ▸ hlimit upper e he
  · obtain ⟨e, he, rfl⟩ := List.mem_map.mp hb
    exact hlimit lower e he

theorem proper_boundRows {lower upper : List (Limit α)} (h : upper.length = lower.length) :
    (boundRows lower upper).Proper := by
  unfold boundRows
  dsimp only
  split
  · exact System.proper_empty _
  · refine ⟨List.forall_mem_append.mpr ⟨List.forall_mem_map.mpr fun b hb => ?_,
      List.forall_mem_singleton.mpr (List.forall_mem_nil _)⟩, List.forall_mem_map.mpr fun e he => ?_⟩
    · exact within_singleton (column_lt h hb)
    · have hlt := (List.getElem?_eq_some_iff.mp (List.mem_zipIdx_iff_getElem?.mp he)).1
      simp only [List.length_append, List.length_map, List.length_singleton]
      intro t ht
      have ht := List.mem_of_mem_filter ht
      simp only [List.mem_cons, List.not_mem_nil, or_false] at ht
      rcases ht with rfl | rfl
      · exact Nat.lt_succ_of_lt hlt
      · exact Nat.lt_succ_self _

/-- The sections of a program refer to nothing beyond themselves, over the variables of the grid. -/
theorem proper_sections {g : Grid α} {equalities : System α} (hlower : g.lower.length = g.size)
    (hupper : g.upper.length = g.size) (hcost : g.cost.length = g.size) (hproper : equalities.Proper)
    (hwidth : equalities.width = g.size) :
    ∀ s ∈ [costRow g.cost, boundRows g.lower g.upper, equalities], s.Proper ∧ s.width = g.size := by
  refine List.forall_mem_cons.mpr ⟨⟨proper_costRow _, ?_⟩, List.forall_mem_cons.mpr
    ⟨⟨proper_boundRows ?_, ?_⟩, List.forall_mem_singleton.mpr ⟨hproper, hwidth⟩⟩⟩
  · rw [width_costRow, hcost]
  · rw [hlower, hupper]
  · rw [width_boundRows, hlower]

/-- A program fits the grid that it is built over. -/
theorem fits_build {n m : Network α} {live : List PhaseSet} {steps stages : Nat} {g : Grid α}
    {equalities : System α} {p : Program α} (h : n.Laid live steps stages g)
    (hproper : equalities.Proper) (hwidth : equalities.width = g.size)
    (hp : build m g equalities = .ok p) : p.equalities = equalities ∧ p.Fits g.size := by
  obtain ⟨combined, hcombined, hp⟩ := except_bind_eq_ok.mp hp
  have hsections := proper_sections h.weighs.length_lower h.weighs.length_upper h.weighs.length_cost
    hproper hwidth
  rw [System.combine_eq fun s hs => (hsections s hs).2.le] at hcombined
  cases hcombined
  cases hp
  refine ⟨rfl, ?_⟩
  have hmarks (entryOk : Entry α → Bool) (wireOk : Wire α → Bool) :
      (flagged m g entryOk wireOk).length = g.size := by rw [flagged, List.length_map, List.length_range]
  exact {
    systems := List.forall_mem_cons.mpr
      ⟨⟨.stacked fun s hs => ⟨(hsections s hs).1, (hsections s hs).2.le⟩, rfl⟩, hsections⟩
    lower := h.weighs.length_lower
    upper := h.weighs.length_upper
    costs := h.weighs.length_cost
    inputs := hmarks _ _
    externals := hmarks _ _
    states := hmarks _ _
    names := by rw [List.length_map, List.length_range] }

end Program

namespace Run

open Network

/-- Once a diagram is traced and its wires merge, no later stage of a run fails, under any settings
with a step. All parts that the run comes to are over the variables of its grid, and the wires of every
block lie on nets that it has. -/
theorem exists_fitting {d : Diagram} {s : Settings α} {n₀ n : Network α} {count : Nat}
    (ht : (d.trace s.hold : Noted α (Network α)).result = .ok n₀)
    (hm : (mergeWires n₀).result = .ok (count, n)) (h₁ : 1 ≤ s.horizon) :
    (ofDiagram (optionsOf s) d).failure = none ∧
      (ofDiagram (optionsOf s) d).live = some (n.liveness s.tableau.isSome) ∧
      ∃ g e p, (ofDiagram (optionsOf s) d).grid = some g ∧
        (ofDiagram (optionsOf s) d).equalities = some e ∧
        (ofDiagram (optionsOf s) d).program = some p ∧
        (∀ x ∈ g.entries, x.index < g.size ∧ n.wires.group x.net ≠ []) ∧
        e.step.Proper ∧ e.step.width = n.wires.netCount ∧ (∀ q ∈ e.phases, q.2.Proper) ∧
        p.equalities = e.system ∧
        p.Fits (g.majorCount + g.intervals * g.stages * g.minorNets.length) ∧
        ∀ k b, n.block? k = some b → ∀ i ∈ b.inputs ++ b.outputs,
          i < n.wires.size ∧ n.wires.netOf i < n.wires.netCount := by
  obtain ⟨hnetted, _, hblocks⟩ := netted_mergeWires (d := d.prepared) ht hm
  obtain ⟨g, hlaid, hg⟩ := hnetted.exists_laid s.tableau.isSome h₁ (stagesOf s.tableau)
  obtain ⟨e, he, hassembles, _⟩ := hlaid.exists_assembled s.tableau s.stepSize
  obtain ⟨p, hp, _⟩ := hlaid.exists_program
    (m := n.withLiveness (n.liveness s.tableau.isSome)) hassembles.width_eq
  have he' : ((n.withLiveness (n.liveness s.tableau.isSome)).equalities g s.tableau s.stepSize).result =
      .ok e := by rw [equalities_withLiveness, he]
  have hrun : ofDiagram (optionsOf s) d = _ := ofDiagram_eq ht hm hg he' hp
  obtain ⟨hstep, hphases⟩ := parts_equalities he
  obtain ⟨_, hstep', hwidth⟩ := hnetted.exists_stepSystem
  obtain rfl := Except.ok.inj (hstep.symm.trans hstep')
  have hproper := hnetted.proper_stepSystem (hblocks ▸ proper_traceMeasured ht) hstep
  obtain ⟨hequalities, hfits⟩ := Program.fits_build hlaid hassembles.proper hassembles.width_eq hp
  rw [hrun]
  exact ⟨rfl, rfl, g, e, p, rfl, rfl, rfl, fun x hx => hlaid.entries hg hx, hproper, hwidth, hphases,
    hequalities, hfits, fun k b hb i hi => ⟨hnetted.inside k b hb i hi, hnetted.netOf_lt hb hi⟩⟩

/-- The running total over three steps, each interval with one stage. -/
theorem exists_fitting_total :
    let s : Settings ℚ := {
      horizon := 3, stepSize := 1 / 2, method := "Euler", tableau := some .euler
      hold := .firstOrder, warnings := [] }
    let n := RunningTotal.network
    (RunningTotal.diagram.trace s.hold : Noted ℚ (Network ℚ)).result = .ok RunningTotal.traced ∧
      (mergeWires RunningTotal.traced).result = .ok (4, n) ∧ 1 ≤ s.horizon ∧
      (ofDiagram (optionsOf s) RunningTotal.diagram).failure = none ∧
      (ofDiagram (optionsOf s) RunningTotal.diagram).live = some (n.liveness s.tableau.isSome) ∧
      ∃ g e p, (ofDiagram (optionsOf s) RunningTotal.diagram).grid = some g ∧
        (ofDiagram (optionsOf s) RunningTotal.diagram).equalities = some e ∧
        (ofDiagram (optionsOf s) RunningTotal.diagram).program = some p ∧
        (∀ x ∈ g.entries, x.index < g.size ∧ n.wires.group x.net ≠ []) ∧
        e.step.Proper ∧ e.step.width = n.wires.netCount ∧ (∀ q ∈ e.phases, q.2.Proper) ∧
        p.equalities = e.system ∧
        p.Fits (g.majorCount + g.intervals * g.stages * g.minorNets.length) ∧
        ∀ k b, n.block? k = some b → ∀ i ∈ b.inputs ++ b.outputs,
          i < n.wires.size ∧ n.wires.netOf i < n.wires.netCount := by
  intro s n
  have ht := congrArg Noted.result RunningTotal.trace_diagram
  exact ⟨ht, rfl, by decide, exists_fitting ht rfl (by decide)⟩

end Run

end Transcription
