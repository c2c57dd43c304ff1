import Transcription.Proofs.Program.Collocation
import Transcription.Proofs.Program.Completion

namespace Transcription

variable {α : Type}

def Run.Reports [Scalar α] (r : Run α) (kind : DiagnosticKind) (block : String) : Prop :=
  ∃ x ∈ r.diagnostics, x.kind = kind ∧ x.block = some block

/-- One of the equations is what a step from `state` along `slope` leaves across interval `k`. -/
def Network.CarriesAcross [Scalar α] (g : Grid α) (s : System α) (t : Tableau α) (dt : α)
    (state slope k : Nat) : Prop :=
  ∃ m : Nat, ∀ z : List α, z.length = g.size → ∃ rs x y fs, s.residual z = .ok rs ∧
    g.reading z k state = some x ∧ g.reading z (k + 1) state = some y ∧
      stageValues g.stages (g.stageReading z) k slope = some fs ∧
        rs[m]? = some (advance dt t.weights x fs - y)

namespace Network

section Delays

variable [Scalar α] {n : Network α} {b : TracedBlock α} {o i t steps : Nat}

theorem notes_delayJoins {slots : List (Nat × Nat)} (hz : (o, i) ∈ b.outputs.zip b.inputs)
    (ht : t ∈ stepsFrom 2 steps) (hlater : (t, n.wires.netOf o) ∈ slots)
    (hearlier : (t - 1, n.wires.netOf i) ∉ slots) :
    ⟨.delayInput t, some (n.path b)⟩ ∈ (n.delayJoins slots steps b).notes := by
  apply Noted.mem_notes_bind
  refine Noted.mem_notes_mapM (fun _ _ => ⟨_, Noted.result_mapM_map fun t _ =>
    result_delayJoin n slots b _ _ t⟩) hz ?_
  refine Noted.mem_notes_mapM (fun t _ => ⟨_, result_delayJoin n slots b _ _ t⟩) ht ?_
  unfold delayJoin
  obtain ⟨later, hl⟩ := Option.isSome_iff_exists.mp (List.isSome_idxOf?.mpr hlater)
  rw [hl, List.idxOf?_eq_none_iff.mpr hearlier]
  exact List.mem_singleton.mpr rfl

/-- An output of a delay that lacks its input is noted. -/
theorem notes_joins {slots : List (Nat × Nat)} (hb : b ∈ (n.blocks.ofKinds [.delay]).map (·.2))
    (hz : (o, i) ∈ b.outputs.zip b.inputs) (ht : t ∈ stepsFrom 2 steps)
    (hlater : (t, n.wires.netOf o) ∈ slots) (hearlier : (t - 1, n.wires.netOf i) ∉ slots) :
    ⟨.delayInput t, some (n.path b)⟩ ∈ (n.joins slots steps).notes := by
  apply Noted.mem_notes_bind
  refine Noted.mem_notes_mapM (fun b _ => ⟨_, result_delayJoins n slots steps b⟩) hb ?_
  exact notes_delayJoins hz ht hlater hearlier

/-- An output of a delay shares the variable of its input one step before. -/
theorem Expands.index?_delay {live : List PhaseSet} {stages : Nat} {g : Grid α}
    (h : n.Expands live steps stages g) (hb : b ∈ (n.blocks.ofKinds [.delay]).map (·.2))
    (hz : (o, i) ∈ b.outputs.zip b.inputs) (ht : t ∈ stepsFrom 2 steps)
    (hlater : LiveAt live steps t (n.wires.netOf o))
    (hearlier : LiveAt live steps (t - 1) (n.wires.netOf i)) :
    g.index? (n.wires.netOf i) (t - 1) = g.index? (n.wires.netOf o) t := by
  obtain ⟨later, hl⟩ := exists_slot hlater
  obtain ⟨earlier, he⟩ := exists_slot hearlier
  have hpair : (later, earlier) ∈ n.joinPairs (liveSlots live steps) steps := by
    apply List.mem_append_left
    refine List.mem_flatten.mpr ⟨_, List.mem_map_of_mem hb, mem_delayPairs.mpr ?_⟩
    obtain ⟨h₂, hle⟩ := mem_stepsFrom.mp ht
    exact ⟨o, i, hz, t, h₂, hle, idxOf?_liveSlots.mpr hl, idxOf?_liveSlots.mpr he⟩
  obtain ⟨h₁, h₂⟩ := joinPairs_lt n _ steps _ hpair
  rw [h.index?_eq he, h.index?_eq hl]
  exact ((h.labels_eq_iff h₁ h₂).mpr (.rel _ _ (.inr hpair))).symm

end Delays

section Integrators

variable [Scalar α] {n : Network α} {b : TracedBlock α} {g : Grid α} {t : Tableau α} {dt : α}

/-- A row is there, or a variable of it is missing and noted. -/
theorem exists_rowOn_or_note (n : Network α) (b : TracedBlock α) (kind : Coupling)
    (columns : List (Option Nat)) (coefficients : List α) :
    (∃ r, RowOn columns coefficients r) ∨
      ⟨.missingCoupling kind, some (n.path b)⟩ ∈
        (n.couplingRow b kind columns coefficients).notes := by
  unfold couplingRow
  cases hvs : columns.mapM id with
  | some vs => exact .inl ⟨_, vs, mapM_id_eq_some.mp hvs, rfl⟩
  | none => exact .inr (List.mem_singleton.mpr rfl)

omit [Scalar α] in
theorem notes_rowsOf {β : Type} {xs : List β} {rows : β → Noted α (List (Terms α))}
    {P : β → Terms α → Prop} (h : ∀ x, Gathers (rows x) (P x)) {x : β} (hx : x ∈ xs)
    {e : Diagnostic α} (he : e ∈ (rows x).notes) : e ∈ (rowsOf xs rows).notes := by
  apply Noted.mem_notes_bind
  refine Noted.mem_notes_mapM (fun y _ => ?_) hx he
  obtain ⟨rs, hrs, _⟩ := h y
  exact ⟨rs, hrs⟩

/-- An integrator has a row across an interval, or is noted to lack a variable for it. -/
theorem incrementRow_or_note (t : Tableau α) (dt : α) {o i k : Nat}
    (hb : b ∈ (n.blocks.ofKinds [.integrator]).map (·.2)) (hz : (o, i) ∈ b.outputs.zip b.inputs)
    (hk : k ∈ stepsFrom 1 g.intervals) :
    (∃ r, RowOn (g.index? (n.wires.netOf o) k :: g.index? (n.wires.netOf o) (k + 1) ::
        slopes g (n.wires.netOf i) k) (1 :: -1 :: t.weights.map (dt * ·)) r ∧
      n.IncrementRow g t dt b r) ∨
    ⟨.missingCoupling .increment, some (n.path b)⟩ ∈ (n.couplingRows g t dt).notes := by
  have hstate : (n.wires.netOf o, n.wires.netOf i) ∈ n.stateNets b :=
    mem_stateNets.mpr ⟨o, i, hz, rfl⟩
  obtain ⟨r, hr⟩ | hnote := exists_rowOn_or_note n b .increment
    (g.index? (n.wires.netOf o) k :: g.index? (n.wires.netOf o) (k + 1) ::
      slopes g (n.wires.netOf i) k) (1 :: -1 :: t.weights.map (dt * ·))
  · exact .inl ⟨r, hr, _, hstate, k, hk, hr⟩
  · refine .inr (Noted.mem_notes_bind (notes_rowsOf (gathers_incrementRows n g t dt) hb ?_))
    refine notes_rowsOf (fun _ => gathers_rowsOf _ fun _ => gathers_couplingRow n b _ _ _) hstate ?_
    exact notes_rowsOf (fun _ => gathers_couplingRow n b _ _ _) hk hnote

theorem notes_noteIdle (hb : b ∈ (n.blocks.ofKinds [.integrator]).map (·.2)) (hg : g.stages = 0) :
    ⟨.idleIntegrator, some (n.path b)⟩ ∈ (n.noteIdle g).notes := by
  unfold noteIdle
  rw [if_pos hg]
  exact Noted.mem_notes_forM (fun _ _ => rfl) hb (List.mem_singleton.mpr rfl)

end Integrators

section Values

variable [LinearOrder α] [ExactScalar α] {n : Network α} {live : List PhaseSet} {steps stages : Nat}
  {g : Grid α} {s : System α} {t : Tableau α} {dt : α} {state slope k : Nat} {r : Terms α}

/-- A system with the row of a step carries the state across the interval. -/
theorem Expands.carriesAcross (h : n.Expands live steps stages g) (hw : s.width = g.size)
    (hr : RowOn (g.index? state k :: g.index? state (k + 1) :: slopes g slope k)
      (1 :: -1 :: t.weights.map (dt * ·)) r)
    (hp : LinearRows.poly r ∈ s.polynomials) : CarriesAcross g s t dt state slope k := by
  obtain ⟨m, hm⟩ := List.mem_iff_getElem?.mp hp
  refine ⟨m, fun z hz => ?_⟩
  have hvalue : ∀ c ∈ g.index? state k :: g.index? state (k + 1) :: slopes g slope k,
      (c.bind fun i => z[i]?).isSome = true := by
    intro c hc
    obtain ⟨vs, hvs, _⟩ := hr
    obtain ⟨i, _, rfl⟩ := List.mem_map.mp (hvs ▸ hc)
    have hlt : i < z.length := hz ▸ h.increment_lt state slope k _ hc i rfl
    rw [Option.bind_some, List.getElem?_eq_getElem hlt]
    rfl
  obtain ⟨hbefore, hafter, hslopes⟩ := by
    simpa only [List.forall_mem_cons] using hvalue
  obtain ⟨x, hx⟩ := Option.isSome_iff_exists.mp hbefore
  obtain ⟨y, hy⟩ := Option.isSome_iff_exists.mp hafter
  obtain ⟨fs, hfs⟩ := option_mapM_isSome hslopes
  have hvalues : (g.index? state k :: g.index? state (k + 1) :: slopes g slope k).mapM
      (fun c => c.bind fun i => z[i]?) = some (x :: y :: fs) := by
    rw [List.mapM_cons, List.mapM_cons, hx, hy, hfs]
    rfl
  refine ⟨_, x, y, fs, residual_of_proper (hz.trans hw.symm), hx, hy, mapM_slopes g z slope k ▸ hfs, ?_⟩
  rw [System.residualAt_polynomials, List.getElem?_map, hm, Option.map_some,
    LinearRows.valueAt_poly, hr.rowAt_eq hvalues, sum_advance]

end Values

end Network

namespace WideHold

def diagram : Diagram where
  name := "hold"
  workspace := []
  blocks := #[
    ⟨"u", "SubSystem", "hold/u", some "InputFromWorkspace", none, [], 0, [some [1, 1]]⟩,
    ⟨"x", "UnitDelay", "hold/x", none, none, [], 1, [some [1, 2]]⟩,
    ⟨"cost", "SubSystem", "hold/cost", some "DiscreteCost", none, [], 1, []⟩]
  lines := [⟨⟨0, .outport, 1⟩, ⟨1, .inport, 1⟩⟩, ⟨⟨1, .outport, 1⟩, ⟨2, .inport, 1⟩⟩]

def out (i : Nat) : Port := ⟨i, .outport, 1⟩

def measured : Diagram :=
  { diagram with compiled := some [(out 0, [1, 1]), (out 1, [1, 2])] }

theorem prepared_diagram : diagram.prepared = measured := by cbv

def block : Nat → TracedBlock ℚ
  | 0 => { source := 0, kind := .input, hold := some .zeroOrder }
  | 1 => { source := 1, kind := .delay, hold := some .zeroOrder }
  | _ => { source := 2, kind := .cost, sinkPhases := .majors }

theorem record_input : measured.record .zeroOrder 0 = ⟨[], .ok (block 0)⟩ :=
  Diagram.record_plainInput rfl rfl rfl

theorem record_delay : measured.record .zeroOrder 1 = ⟨[], .ok (block 1)⟩ := rfl

theorem record_cost : measured.record .zeroOrder 2 = ⟨[], .ok (block 2)⟩ := by cbv

def found (count : Nat) : Search ℚ where
  blocks := ⟨([2, 1, 0].map block).take (count + 1)⟩
  wires :=
    { wires := [{ block := 1, port := out 1, sub := 0, net := 0 },
        { block := 1, port := out 1, sub := 1, net := 1 },
        { block := 2, port := out 0, sub := 0, net := 2 }].take (if count = 0 then 0 else count + 1)
      firsts := [(out 1, 0), (out 0, 2)].take count }

theorem search_measured : (Search.ofDiagram measured .zeroOrder).Quiet (found 2) := by
  have hsinks : Search.sinks measured = [2] := by cbv
  have hstart : (Search.start measured .zeroOrder [2] {} ⟨measured.allOutports, []⟩).Quiet
      (⟨[block 2]⟩, ⟨[out 0], [out 1]⟩) :=
    Noted.quiet_bind.mpr ⟨_, record_cost, rfl⟩
  have hdelay : ((found 0).visit measured .zeroOrder (out 1)).Quiet ⟨found 1, [out 1], [out 0]⟩ :=
    Search.quiet_visit rfl record_delay rfl
  have hinput : ((found 1).visit measured .zeroOrder (out 0)).Quiet ⟨found 2, [out 0], []⟩ :=
    Search.quiet_visit rfl record_input rfl
  refine Search.quiet_ofDiagram hsinks hstart ?_
  refine Search.quiet_run_cons (g := ⟨[], [out 0]⟩) hdelay rfl ?_
  refine Search.quiet_run_cons (g := ⟨[], []⟩) hinput rfl ?_
  exact Search.run_nil

def traced : Network ℚ where
  diagram := measured
  blocks := ⟨[{ block 2 with inputs := [0, 1] }, { block 1 with inputs := [2], outputs := [0, 1] },
    { block 0 with outputs := [2] }]⟩
  wires := {
    wires := [
      { block := 1, port := out 1, sub := 0, net := 0, state := true
        cost := .constant (0 + 1), rawCost := .constant (0 + 1) },
      { block := 1, port := out 1, sub := 1, net := 1, state := true
        cost := .constant (0 + 1), rawCost := .constant (0 + 1) },
      { block := 2, port := out 0, sub := 0, net := 2, input := true }]
    firsts := [(out 1, 0), (out 0, 2)] }

theorem trace_diagram : (diagram.trace .zeroOrder).Quiet traced := by
  rw [Diagram.trace, prepared_diagram]
  exact Noted.quiet_bind.mpr ⟨_, search_measured, rfl⟩

def network : Network ℚ := { traced with wires := (traced.wires.renumber [0, 1, 2]).merge }

theorem merged_diagram (steps : Nat) (dt : ℚ) (tableau : Option (Tableau ℚ)) :
    (Run.ofDiagram (.full steps dt .zeroOrder tableau) diagram).merged = some (3, network) :=
  Run.merged_eq (congrArg Noted.result trace_diagram) rfl

theorem diagnostics_diagram :
    (Run.ofDiagram (.full 2 (1 : ℚ) .zeroOrder none) diagram).diagnostics = [] := by
  apply List.isEmpty_iff.mp
  unfold Run.ofDiagram
  rw [trace_diagram]
  decide +kernel

/-- The grid over two steps: the second scalar that is held has a variable of its own at step 2. -/
theorem exists_grid : ∃ g : Grid ℚ,
    (Run.ofDiagram (.full 2 (1 : ℚ) .zeroOrder none) diagram).grid = some g ∧
      g.index? 1 2 = some 3 ∧ g.index? 2 1 = some 2 := by
  obtain ⟨g, _, _, hrun⟩ := Run.exists_completion (merged_diagram 2 1 none) (by decide)
  have hindex : (Run.ofDiagram (.full 2 (1 : ℚ) .zeroOrder none) diagram).grid.map
      (fun g => (g.index? 1 2, g.index? 2 1)) = some (some 3, some 2) := by
    unfold Run.ofDiagram
    rw [trace_diagram]
    decide +kernel
  rw [hrun.grid_eq] at hindex
  obtain ⟨hlater, hearlier⟩ := Prod.mk.inj (Option.some.inj hindex)
  exact ⟨g, hrun.grid_eq, hlater, hearlier⟩

end WideHold

section Runs

variable [LinearOrder α] [ExactScalar α] {d : Diagram} {hold : Hold} {steps count : Nat} {dt : α}
  {tableau : Option (Tableau α)} {n : Network α}

open Network in
/-- Every output of a delay or integrator that has an input at its place is carried from step to step,
or the run reports its block: a live output of a delay has the variable of its input one step before,
and a row carries an integrator across every interval. -/
theorem Run.states_carried
    (hmerged : (ofDiagram (.full steps dt hold tableau) d).merged = some (count, n))
    (h₂ : 2 ≤ steps) : ∃ g e,
      (ofDiagram (.full steps dt hold tableau) d).live = some (n.liveness tableau.isSome) ∧
      (ofDiagram (.full steps dt hold tableau) d).grid = some g ∧
      (ofDiagram (.full steps dt hold tableau) d).equalities = some e ∧
      (∀ j b, n.block? j = some b → b.kind = .delay →
        ∀ p o i : Nat, b.outputs[p]? = some o → b.inputs[p]? = some i → ∀ t, 2 ≤ t → t ≤ steps →
          LiveAt (n.liveness tableau.isSome) steps t (n.wires.netOf o) →
            (∃ v, g.index? (n.wires.netOf o) t = some v ∧
              g.index? (n.wires.netOf i) (t - 1) = some v) ∨
            (ofDiagram (.full steps dt hold tableau) d).Reports .structural (n.path b)) ∧
      ∀ t, tableau = some t → ∀ j b, n.block? j = some b → b.kind = .integrator →
        ∀ p o i : Nat, b.outputs[p]? = some o → b.inputs[p]? = some i → ∀ k, 1 ≤ k → k < steps →
          CarriesAcross g e.system t dt (n.wires.netOf o) (n.wires.netOf i) k ∨
          (ofDiagram (.full steps dt hold tableau) d).Reports .structural (n.path b) := by
  obtain ⟨g, e, p, hrun⟩ := exists_completion hmerged (Nat.le_of_succ_le h₂)
  have hexpands := hrun.laid.expands
  have hzip {b : TracedBlock α} {p o i : Nat} (ho : b.outputs[p]? = some o)
      (hi : b.inputs[p]? = some i) : (o, i) ∈ b.outputs.zip b.inputs :=
    List.mem_of_getElem? (List.getElem?_zip_eq_some.mpr ⟨ho, hi⟩)
  have hkind {k : BlockKind} {j : Nat} {b : TracedBlock α} (hb : n.block? j = some b)
      (hk : b.kind = k) : b ∈ (n.blocks.ofKinds [k]).map (·.2) := mem_ofKind.mpr ⟨j, hb, hk⟩
  refine ⟨g, e, hrun.live_eq, hrun.grid_eq, hrun.equalities_eq, ?_, ?_⟩
  · intro j b hb hk p o i ho hi t ht hle hlive
    obtain ⟨v, hv, _⟩ := hexpands.exists_index hlive
    have hstep : t ∈ stepsFrom 2 steps := mem_stepsFrom.mpr ⟨ht, hle⟩
    by_cases hearlier : LiveAt (n.liveness tableau.isSome) steps (t - 1) (n.wires.netOf i)
    · left
      refine ⟨v, hv, ?_⟩
      rw [hexpands.index?_delay (hkind hb hk) (hzip ho hi) hstep hlive hearlier, hv]
    · have hnote := notes_joins (hkind hb hk) (hzip ho hi) hstep (mem_liveSlots.mpr hlive)
        (mt mem_liveSlots.mp hearlier)
      rw [← hexpands.slots_eq] at hnote
      exact .inr ⟨_, hrun.delays _ hnote, rfl, rfl⟩
  · intro t ht j b hb hk p o i ho hi k h₁ hlt
    by_cases hstages : g.stages = 0
    · exact .inr ⟨_, hrun.idle _ (notes_noteIdle (hkind hb hk) hstages), rfl, rfl⟩
    have hinterval : k ∈ stepsFrom 1 g.intervals := by
      rw [Grid.intervals, if_neg hstages, hexpands.steps_eq, mem_stepsFrom]
      omega
    obtain ⟨r, hr, hrow⟩ | hnote := incrementRow_or_note t dt (hkind hb hk) (hzip ho hi)
      hinterval
    · have hp := hrun.assembles.increments t ht hstages b (hkind hb hk) r hrow
      exact .inl (hexpands.carriesAcross hrun.assembles.width_eq hr hp)
    · exact .inr ⟨_, hrun.couplings t ht hstages _ hnote, rfl, rfl⟩

end Runs

open Network in
/-- The running total over three steps, by the trapezoidal rule. -/
theorem Run.states_carried_total :
    (Run.ofDiagram (.full 3 (1 / 2 : ℚ) .firstOrder (some .trapez)) RunningTotal.diagram).merged =
      some (4, RunningTotal.network) ∧ 2 ≤ 3 ∧
    ∃ (g : Grid ℚ) (e : Equalities ℚ),
      (Run.ofDiagram (.full 3 (1 / 2 : ℚ) .firstOrder (some .trapez)) RunningTotal.diagram).live =
        some (RunningTotal.network.liveness true) ∧
      (Run.ofDiagram (.full 3 (1 / 2 : ℚ) .firstOrder (some .trapez)) RunningTotal.diagram).grid =
        some g ∧
      (Run.ofDiagram (.full 3 (1 / 2 : ℚ) .firstOrder (some .trapez))
        RunningTotal.diagram).equalities = some e ∧
      (∀ j b, RunningTotal.network.block? j = some b → b.kind = .delay →
        ∀ p o i : Nat, b.outputs[p]? = some o → b.inputs[p]? = some i → ∀ t, 2 ≤ t → t ≤ 3 →
          LiveAt (RunningTotal.network.liveness true) 3 t (RunningTotal.network.wires.netOf o) →
            (∃ v, g.index? (RunningTotal.network.wires.netOf o) t = some v ∧
              g.index? (RunningTotal.network.wires.netOf i) (t - 1) = some v) ∨
            (Run.ofDiagram (.full 3 (1 / 2 : ℚ) .firstOrder (some .trapez))
              RunningTotal.diagram).Reports .structural (RunningTotal.network.path b)) ∧
      ∀ t, some Tableau.trapez = some t → ∀ j b, RunningTotal.network.block? j = some b →
        b.kind = .integrator →
          ∀ p o i : Nat, b.outputs[p]? = some o → b.inputs[p]? = some i → ∀ k, 1 ≤ k → k < 3 →
            CarriesAcross g e.system t (1 / 2) (RunningTotal.network.wires.netOf o)
              (RunningTotal.network.wires.netOf i) k ∨
            (Run.ofDiagram (.full 3 (1 / 2 : ℚ) .firstOrder (some .trapez))
              RunningTotal.diagram).Reports .structural (RunningTotal.network.path b) :=
  have hmerged := RunningTotal.merged_diagram 3 (1 / 2) (some .trapez)
  ⟨hmerged, by decide, Run.states_carried hmerged (by decide)⟩

/-- An input held in two scalars: no finding, and the variable of the second one at step 2 is not that
of an input at step 1. -/
theorem Run.second_output_free :
    (ofDiagram (.full 2 (1 : ℚ) .zeroOrder none) WideHold.diagram).diagnostics = [] ∧
      (ofDiagram (.full 2 (1 : ℚ) .zeroOrder none) WideHold.diagram).merged =
        some (3, WideHold.network) ∧
      ∃ (g : Grid ℚ) (b : TracedBlock ℚ) (o v : Nat),
        (ofDiagram (.full 2 (1 : ℚ) .zeroOrder none) WideHold.diagram).grid = some g ∧
        WideHold.network.block? 1 = some b ∧ b.kind = .delay ∧ o ∈ b.outputs ∧
        g.index? (WideHold.network.wires.netOf o) 2 = some v ∧
        ∀ i ∈ b.inputs, g.index? (WideHold.network.wires.netOf i) 1 ≠ some v := by
  obtain ⟨g, hgrid, hlater, hearlier⟩ := WideHold.exists_grid
  refine ⟨WideHold.diagnostics_diagram, WideHold.merged_diagram 2 1 none, g, _, 1, 3, hgrid, rfl, rfl,
    by decide, hlater, ?_⟩
  intro i hi
  obtain rfl : i = 2 := List.mem_singleton.mp hi
  intro h
  exact absurd (hearlier.symm.trans h) (by decide)

end Transcription
