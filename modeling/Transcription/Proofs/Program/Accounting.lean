import Transcription.Proofs.Program.Determination

namespace Transcription

def Share.isMajor : Share → Bool
  | .phase (.major _) => true
  | _ => false

namespace Network

variable {α : Type}

section Counts

variable [Scalar α] {g : Grid α}

theorem filter_majorCounts (g : Grid α) (step : System α) :
    (majorCounts g step).filter (fun c => c.1.isMajor) = majorCounts g step := by
  refine List.filter_eq_self.mpr fun c hc => ?_
  obtain ⟨q, _, rfl⟩ := List.mem_map.mp hc
  rfl

/-- The counts of the steps add up to the rows of the steps. -/
theorem sum_majorCounts (step : System α) (h₁ : 1 ≤ g.steps) :
    ((majorCounts g step).map (·.2)).sum = (majorSystem g step).equations.length := by
  have hparts : (majorSystem g step).equations =
      (unfolded g (phaseParts g.live g.steps step)).equations := by
    rw [unfolded_eq step h₁]
    rfl
  rw [hparts, unfolded, System.length_directSum, majorCounts, List.map_map, List.map_map]
  refine congrArg List.sum (List.map_congr_left fun q _ => ?_)
  obtain ⟨p, s⟩ := q
  cases p with
  | intermediate => exact (System.length_replicate s _).symm
  | initial | final => exact Nat.one_mul _

end Counts

section Variables

variable [LinearOrder α] [ExactScalar α] {n : Network α} {live : List PhaseSet} {steps stages : Nat}
  {minor : Bool} {g : Grid α}

theorem nodup_majorVariables (h : (n.leaving [.primitive]).Nodup) :
    (n.majorVariables live steps).Nodup := Determined.nodup_eachStep fun _ => h.filter _

/-- Nets at the steps are entries of the grid. -/
theorem perm_majorVariables (n : Network α) (live : List PhaseSet) (steps : Nat)
    (h : (n.leaving [.primitive]).Nodup) :
    (n.majorVariables live steps).Perm (((liveSlots live steps).filter fun e =>
      (n.leaving [.primitive]).contains e.2).map fun e => .atStep e.1 e.2) := by
  refine (List.perm_ext_iff_of_nodup (nodup_majorVariables h) ?_).mpr fun v => ?_
  · refine ((nodup_liveSlots live steps).filter _).map fun e f he => ?_
    exact Prod.ext (Determined.atStep.inj he).1 (Determined.atStep.inj he).2
  · simp only [mem_majorVariables, List.mem_map, List.mem_filter, Prod.exists, mem_liveSlots,
      List.contains_iff_mem]
    exact exists_congr fun t => exists_congr fun net => by rw [and_comm, eq_comm]

def restVariables (n : Network α) (live : List PhaseSet) (g : Grid α) : List Determined :=
  n.minorVariables g ++ n.coupled live g

/-- Primitives, integrators and holds together determine every net of the stages once. -/
theorem OnStages.perm_restVariables (h : n.OnStages live steps stages g) (hi : n.Issued)
    (hsource : ∀ net < n.wires.netCount, ∃ i, n.Sources net i) :
    (n.restVariables live g).Perm (Determined.atStages g.intervals g.stages g.minorNets ++
      Determined.acrossAll g.intervals ((n.leaving [.integrator]).filter (LiveSomewhere live ·))) := by
  obtain ⟨hnodup, hheld, _⟩ := List.nodup_append.mp (nodup_leavingAll h.wired.toLinked h.single)
  obtain ⟨hprimitive, _, _⟩ := List.nodup_append.mp hnodup
  have hnets := Determined.perm_atStages g.intervals g.stages (h.perm_minorNets hi hsource)
  have hcopies := Determined.perm_eachCopy g.intervals g.stages
    (hprimitive.filter (g.minorNets.contains ·))
  have hholds := Determined.perm_atStages g.intervals g.stages (perm_heldBy g hheld)
  rw [Determined.atStages_append, Determined.atStages_append] at hnets
  rw [Determined.atStages_append] at hholds
  rw [restVariables, minorVariables, coupled, ← Multiset.coe_eq_coe]
  simp only [← Multiset.coe_eq_coe, ← Multiset.coe_add] at hnets hcopies hholds ⊢
  rw [hcopies, ← hnets, ← hholds]
  abel

theorem restVariables_eq_nil (n : Network α) (live : List PhaseSet) (h : g.stages = 0) :
    n.restVariables live g = [] ∧ Determined.atStages g.intervals g.stages g.minorNets ++
      Determined.acrossAll g.intervals ((n.leaving [.integrator]).filter (LiveSomewhere live ·)) =
        [] := by
  have hintervals : g.intervals = 0 := if_pos h
  have hstages (nets : List Nat) : Determined.atStages g.intervals g.stages nets = [] :=
    List.eq_nil_of_length_eq_zero (by rw [Determined.length_atStages, hintervals]; simp)
  have hacross (nets : List Nat) : Determined.acrossAll g.intervals nets = [] :=
    List.eq_nil_of_length_eq_zero (by rw [Determined.length_acrossAll, hintervals, Nat.zero_mul])
  have hcopies (nets : List Nat) : Determined.eachCopy g.intervals g.stages nets = [] :=
    List.eq_nil_of_length_eq_zero (by rw [Determined.length_eachCopy, hintervals]; simp)
  rw [restVariables, minorVariables, coupled, hcopies, hacross, hstages, hstages, hstages, hstages]
  exact ⟨rfl, rfl⟩

end Variables

section Rows

variable [LinearOrder α] [ExactScalar α] {n : Network α} {live : List PhaseSet} {steps stages : Nat}
  {minor : Bool} {g : Grid α}

/-- The rows of the equalities are those that determine some variables: first `major`, at the steps,
then `rest`. Residuals are their values, and the counts of the shares add up to them. -/
structure Defines (n : Network α) (g : Grid α) (tableau : Option (Tableau α)) (dt : α)
    (e : Equalities α) (major rest : List Determined) : Prop where
  rows : List.Forall₂ (n.RowOf g tableau dt) (major ++ rest) e.system.polynomials
  residual : ∀ z : List α, z.length = g.size →
    e.system.residual z = .ok (e.system.polynomials.map fun p => p.valueAt (System.point z))
  counts : (e.counts.map (·.2)).sum = e.system.equations.length
  majors : ((e.counts.filter fun c => c.1.isMajor).map (·.2)).sum = major.length

/-- Every variable that is computed has exactly one row. At the steps those are the live nets that
leave primitives; at the stages all nets that are live in them; and across the intervals the live nets
that leave integrators. -/
structure Accounts (n : Network α) (live : List PhaseSet) (steps : Nat) (g : Grid α)
    (tableau : Option (Tableau α)) (dt : α) (e : Equalities α) (major rest : List Determined) :
    Prop extends n.Defines g tableau dt e major rest where
  nodup : (major ++ rest).Nodup
  mem_major : ∀ v, v ∈ major ↔
    ∃ t net, v = .atStep t net ∧ LiveAt live steps t net ∧ net ∈ n.leaving [.primitive]
  mem_rest : ∀ v, v ∈ rest ↔
    (∃ k s net, v = .atStage k s net ∧ (1 ≤ k ∧ k ≤ g.intervals) ∧ (1 ≤ s ∧ s ≤ g.stages) ∧
      net ∈ g.minorNets) ∨
    ∃ k net, v = .across k net ∧ (1 ≤ k ∧ k ≤ g.intervals) ∧ net ∈ n.leaving [.integrator] ∧
      LiveSomewhere live net

theorem Defines.length {tableau : Option (Tableau α)} {dt : α} {e : Equalities α}
    {major rest : List Determined} (h : n.Defines g tableau dt e major rest) :
    e.system.equations.length = (major ++ rest).length := by
  rw [h.rows.length_eq, System.length_polynomials]

theorem residual_polynomials {s : System α} {z : List α} (h : z.length = s.width) :
    s.residual z = .ok (s.polynomials.map fun p => p.valueAt (System.point z)) := by
  rw [residual_of_proper h, System.residualAt_polynomials]

/-- Without stages all rows are those of the steps. -/
theorem OnGrid.exists_defined (h : n.OnGrid minor live steps stages g) (hstages : g.stages = 0)
    (tableau : Option (Tableau α)) (dt : α) : ∃ e, (n.equalities g tableau dt).result = .ok e ∧
      n.Defines g tableau dt e (n.majorVariables live steps) (n.restVariables live g) := by
  obtain ⟨step, hstep, _, hwidth⟩ := h.exists_stepSystem
  obtain ⟨e, he, _, hcounts, hsystem⟩ :=
    h.expands.exists_equalities h.steps_pos hstep hwidth hstages tableau dt
  have hmajor := h.forall₂_majorSystem hstep tableau dt
  have hsum := sum_majorCounts step (h.expands.steps_eq.symm ▸ h.steps_pos : 1 ≤ g.steps)
  have hsize := majorCount_eq_size hstages
  rw [(n.restVariables_eq_nil live hstages).1]
  refine ⟨e, he, ?_, fun z hz => ?_, ?_, ?_⟩
  · rw [hsystem, List.append_nil]
    exact hmajor
  · rw [hsystem]
    exact residual_polynomials (hz.trans hsize.symm)
  · rw [hcounts, hsystem, hsum]
  · rw [hcounts, filter_majorCounts, hsum, hmajor.length_eq, System.length_polynomials]

/-- With stages the rows of the stages and those of the tableau follow. -/
theorem OnStages.exists_defined {t : Tableau α} (h : n.OnStages live steps t.stages g)
    (hpaired : n.Paired) (dt : α) : ∃ e, (n.equalities g (some t) dt).result = .ok e ∧
      n.Defines g (some t) dt e (n.majorVariables live steps) (n.restVariables live g) := by
  obtain ⟨step, hstep, _, hwidth⟩ := h.exists_stepSystem
  obtain ⟨rows, hrows, hlisted⟩ := h.exists_listed hpaired dt
  have hcouples : ∀ r ∈ rows, n.Couples g t dt r := fun r hr => by
    obtain ⟨v, _, hv⟩ := forall₂_exists_left hlisted hr
    exact hv.couples
  have hpos : g.stages ≠ 0 := by
    rw [h.stages_eq]
    exact Nat.ne_of_gt h.stages_pos
  obtain ⟨e, linear, he, hcounts, hproper, _, hpoly, hsystem⟩ :=
    h.expands.exists_coupled h.steps_pos hstep hwidth h.stages_eq hpos hrows hcouples
  have hmajor := h.forall₂_majorSystem hstep (some t) dt
  have hminor := h.forall₂_minorSystem hstep (some t) dt
  have hcoupling : List.Forall₂ (n.RowOf g (some t) dt) (n.coupled live g) linear.polynomials := by
    rw [hpoly, List.forall₂_map_right_iff]
    exact hlisted.imp fun v r hv => hv.rowOf h
  have hpolynomials := h.expands.polynomials_sides step hproper
  rw [← hsystem] at hpolynomials
  have hsum := sum_majorCounts step (h.expands.steps_eq.symm ▸ h.steps_pos : 1 ≤ g.steps)
  refine ⟨e, he, ?_, fun z hz => ?_, ?_, ?_⟩
  · rw [hpolynomials, restVariables]
    exact List.rel_append hmajor (List.rel_append (List.forall₂_map_right_iff.mpr hminor) hcoupling)
  · apply residual_polynomials
    rw [hz, hsystem]
    rfl
  · rw [hcounts, List.map_append, List.sum_append, hsum, ← System.length_polynomials e.system,
      hpolynomials, hpoly]
    simp [System.length_polynomials]
  · rw [hcounts, List.filter_append, filter_majorCounts, hmajor.length_eq, System.length_polynomials,
      ← hsum]
    simp [Share.isMajor]

/-- Rows that define the nets of the stages and the steps across the intervals account for all. -/
theorem OnGrid.accounts (h : n.OnGrid minor live steps stages g) {tableau : Option (Tableau α)} {dt : α}
    {e : Equalities α} (hd : n.Defines g tableau dt e (n.majorVariables live steps)
      (n.restVariables live g))
    (hrest : (n.restVariables live g).Perm (Determined.atStages g.intervals g.stages g.minorNets ++
      Determined.acrossAll g.intervals ((n.leaving [.integrator]).filter (LiveSomewhere live ·)))) :
    n.Accounts live steps g tableau dt e (n.majorVariables live steps) (n.restVariables live g) := by
  have hprimitive : (n.leaving [.primitive]).Nodup :=
    h.wired.toLinked.nodup_leaving h.single (by decide)
  have hintegrator : (n.leaving [.integrator]).Nodup :=
    h.wired.toLinked.nodup_leaving h.single (by decide)
  have hminor : g.minorNets.Nodup := by
    rw [h.expands.minorNets_eq]
    split
    · exact List.nodup_nil
    · exact nodup_marked _
  have hmem (v : Determined) : v ∈ n.restVariables live g ↔ _ := hrest.mem_iff
  simp only [List.mem_append, Determined.mem_atStages, Determined.mem_acrossAll, List.mem_filter,
    decide_eq_true_eq] at hmem
  refine { hd with nodup := ?_, mem_major := fun v => mem_majorVariables, mem_rest := hmem }
  refine (nodup_majorVariables hprimitive).append (hrest.nodup_iff.mpr ?_) fun v hv hv' => ?_
  · refine (Determined.nodup_atStages hminor).append
      (Determined.nodup_acrossAll (hintegrator.filter _)) fun v hv hv' => ?_
    obtain ⟨_, _, _, rfl, _⟩ := Determined.mem_atStages.mp hv
    obtain ⟨_, _, hv', _⟩ := Determined.mem_acrossAll.mp hv'
    cases hv'
  · obtain ⟨_, _, rfl, _⟩ := mem_majorVariables.mp hv
    rcases (hmem _).mp hv' with ⟨_, _, _, hv', _⟩ | ⟨_, _, hv', _⟩ <;> cases hv'

/-- The equalities of a grid account for all variables that are computed. -/
theorem OnGrid.exists_accounts {tableau : Option (Tableau α)}
    (h : n.OnGrid tableau.isSome live steps ((tableau.map (·.stages)).getD 0) g) (hi : n.Issued)
    (hsource : ∀ net < n.wires.netCount, ∃ i, n.Sources net i) (hpaired : n.Paired) (dt : α) :
    ∃ e major rest, (n.equalities g tableau dt).result = .ok e ∧
      n.Accounts live steps g tableau dt e major rest ∧ e.system.equations.length =
        (g.slots.filter fun e => (n.leaving [.primitive]).contains e.2).length +
          g.intervals * g.stages * g.minorNets.length +
            g.intervals * ((n.leaving [.integrator]).filter (LiveSomewhere live ·)).length := by
  obtain ⟨e, he, hd, hrest⟩ : ∃ e, (n.equalities g tableau dt).result = .ok e ∧
      n.Defines g tableau dt e (n.majorVariables live steps) (n.restVariables live g) ∧
      (n.restVariables live g).Perm (Determined.atStages g.intervals g.stages g.minorNets ++
        Determined.acrossAll g.intervals ((n.leaving [.integrator]).filter (LiveSomewhere live ·))) := by
    rcases h.expands.stages_cases with hstages | ⟨t, rfl, hlast, hpos, hsteps⟩
    · obtain ⟨hnone, hnone'⟩ := n.restVariables_eq_nil live hstages
      obtain ⟨e, he, hd⟩ := h.exists_defined hstages tableau dt
      exact ⟨e, he, hd, by rw [hnone, hnone']⟩
    · have hon : n.OnStages live steps t.stages g :=
        ⟨h, hsteps, hlast ▸ Nat.one_le_iff_ne_zero.mpr hpos⟩
      obtain ⟨e, he, hd⟩ := hon.exists_defined hpaired dt
      exact ⟨e, he, hd, hon.perm_restVariables hi hsource⟩
  have hmajor := n.perm_majorVariables live steps
    (h.wired.toLinked.nodup_leaving h.single (by decide))
  refine ⟨e, _, _, he, h.accounts hd hrest, ?_⟩
  rw [hd.length, List.length_append, hmajor.length_eq, hrest.length_eq, List.length_append,
    List.length_map, Determined.length_atStages, Determined.length_acrossAll, h.expands.slots_eq,
    Nat.add_assoc]

end Rows

end Network

/-- In a diagram without findings whose nets have one source each, every variable that is computed has
exactly one row: a live net that leaves a primitive at every step that it is live at, a net of the
stages at every stage, and a live output of an integrator across every interval. So the rows are as many
as these, and as the counts of the shares say. -/
theorem Run.rows_determine {α : Type} [LinearOrder α] [ExactScalar α] {d : Diagram} {hold : Hold}
    {steps count : Nat} {dt : α} {tableau : Option (Tableau α)} {n : Network α}
    (hnotes : (d.trace hold : Noted α (Network α)).notes = [])
    (hmerged : (Run.ofDiagram (.full steps dt hold tableau) d).merged = some (count, n))
    (hsource : ∀ net < n.wires.netCount, ∃! i, n.Sources net i) (hpaired : n.Paired)
    (hsteps : 1 ≤ steps) :
    ∃ (live : List PhaseSet) (g : Grid α) (e : Equalities α) (major rest : List Determined),
      (Run.ofDiagram (.full steps dt hold tableau) d).live = some live ∧
      (Run.ofDiagram (.full steps dt hold tableau) d).grid = some g ∧
      (Run.ofDiagram (.full steps dt hold tableau) d).equalities = some e ∧
      live = n.liveness tableau.isSome ∧ n.Accounts live steps g tableau dt e major rest ∧
      e.system.equations.length =
        (g.slots.filter fun e => (n.leaving [.primitive]).contains e.2).length +
          g.intervals * g.stages * g.minorNets.length +
            g.intervals * ((n.leaving [.integrator]).filter (LiveSomewhere live ·)).length := by
  obtain ⟨n₀, ht, hm⟩ := Run.merged_eq_some hmerged
  have hissued := Network.issued_mergeWires (d := d.prepared) ht hm
  obtain ⟨g, hg, hrun⟩ := Run.exists_onGrid hnotes hmerged
    (Network.singleSourced_of_existsUnique hsource) hsteps
  obtain ⟨e, major, rest, he, haccounts, hlength⟩ :=
    hg.exists_accounts hissued (fun net hnet => (hsource net hnet).exists) hpaired dt
  obtain ⟨hlive, hgrid, hequalities⟩ := hrun e he
  exact ⟨_, g, e, major, rest, hlive, hgrid, hequalities, rfl, haccounts, hlength⟩

namespace RunningTotal

theorem existsUnique_source (net : Nat) (h : net < network.wires.netCount) :
    ∃! i, network.Sources net i := by
  have hsource : network.Sources net net := by
    match net with
    | 0 | 1 | 2 | 3 => exact ⟨_, _, rfl, rfl, rfl, rfl⟩
    | net + 4 => exact absurd h (Nat.not_lt.mpr (Nat.le_add_left 4 net))
  exact ⟨net, hsource, fun i hi =>
    Network.singleSourced_iff.mp singleSourced_network net i net hi hsource⟩

theorem paired_network : network.Paired := by
  intro k b hb _
  match k with
  | 0 | 1 | 4 =>
    cases hb
    contradiction
  | 2 | 3 =>
    cases hb
    rfl
  | k + 5 => cases hb

end RunningTotal

/-- The running total over three steps, by the trapezoidal rule. -/
theorem Run.rows_determine_total :
    (RunningTotal.diagram.trace .firstOrder : Noted ℚ _).notes = [] ∧
      (Run.ofDiagram (.full 3 (1 / 2 : ℚ) .firstOrder (some .trapez)) RunningTotal.diagram).merged =
        some (4, RunningTotal.network) ∧
      (∀ net < RunningTotal.network.wires.netCount, ∃! i, RunningTotal.network.Sources net i) ∧
      RunningTotal.network.Paired ∧ 1 ≤ 3 ∧
      ∃ (live : List PhaseSet) (g : Grid ℚ) (e : Equalities ℚ) (major rest : List Determined),
        (Run.ofDiagram (.full 3 (1 / 2 : ℚ) .firstOrder (some .trapez)) RunningTotal.diagram).live =
          some live ∧
        (Run.ofDiagram (.full 3 (1 / 2 : ℚ) .firstOrder (some .trapez)) RunningTotal.diagram).grid =
          some g ∧
        (Run.ofDiagram (.full 3 (1 / 2 : ℚ) .firstOrder (some .trapez))
          RunningTotal.diagram).equalities = some e ∧
        live = RunningTotal.network.liveness true ∧
        RunningTotal.network.Accounts live 3 g (some .trapez) (1 / 2) e major rest ∧
        e.system.equations.length =
          (g.slots.filter fun e => (RunningTotal.network.leaving [.primitive]).contains e.2).length +
            g.intervals * g.stages * g.minorNets.length +
              g.intervals * ((RunningTotal.network.leaving [.integrator]).filter
                (LiveSomewhere live ·)).length :=
  have hnotes := congrArg Noted.notes RunningTotal.trace_diagram
  have hmerged := RunningTotal.merged_diagram 3 (1 / 2) (some .trapez)
  ⟨hnotes, hmerged, RunningTotal.existsUnique_source, RunningTotal.paired_network, by decide,
    Run.rows_determine hnotes hmerged RunningTotal.existsUnique_source RunningTotal.paired_network
      (by decide)⟩

end Transcription
