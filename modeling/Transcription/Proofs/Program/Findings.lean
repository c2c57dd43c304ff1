import Transcription.Proofs.Program.Accounting
import Transcription.Proofs.Program.Continuity
import Transcription.Proofs.Program.Origins
import Transcription.Proofs.Wire.Cycles

namespace Transcription

variable {α : Type} [Scalar α]

namespace Network

section Rows

variable {n : Network α} {b : TracedBlock α} {kind : Coupling} {columns : List (Option Nat)}
  {coefficients : List α}

theorem notes_couplingRow (hc : ∀ c ∈ columns, c.isSome = true) :
    (n.couplingRow b kind columns coefficients).notes = [] := by
  obtain ⟨vs, hvs⟩ := option_mapM_isSome (f := id) hc
  rw [couplingRow, hvs]
  rfl

omit [Scalar α] in
theorem notes_rowsOf_eq {β : Type} (xs : List β) {rows : β → Noted α (List (Terms α))}
    {P : β → Terms α → Prop} (h : ∀ x, Gathers (rows x) (P x)) :
    (rowsOf xs rows).notes = xs.flatMap fun x => (rows x).notes := by
  choose f hf _ using h
  rw [rowsOf, Noted.mapM_eq fun x _ => hf x, Noted.bind_eq rfl]
  exact List.append_nil _

omit [Scalar α] in
theorem notes_rowsOf_eq_nil {β : Type} {xs : List β} {rows : β → Noted α (List (Terms α))}
    {P : β → Terms α → Prop} (h : ∀ x, Gathers (rows x) (P x)) (hx : ∀ x ∈ xs, (rows x).notes = []) :
    (rowsOf xs rows).notes = [] := by
  rw [notes_rowsOf_eq xs h]
  exact List.flatMap_eq_nil_iff.mpr hx

end Rows

/-- A finding for every interval and every scalar of an integrator that is live nowhere. -/
def dormantFindings (n : Network α) (live : List PhaseSet) (steps : Nat) : List (Diagnostic α) :=
  ((n.blocks.ofKinds [.integrator]).map (·.2)).flatMap fun b => (n.stateNets b).flatMap fun e =>
    if LiveSomewhere live e.1 then []
    else List.replicate (steps - 1) ⟨.missingCoupling .increment, some (n.path b)⟩

section Dormant

variable {n : Network α} {live : List PhaseSet} {steps : Nat}

theorem structural_of_mem_dormantFindings {x : Diagnostic α} (h : x ∈ n.dormantFindings live steps) :
    x.kind = .structural := by
  obtain ⟨b, _, h⟩ := List.mem_flatMap.mp h
  obtain ⟨e, _, h⟩ := List.mem_flatMap.mp h
  split at h
  · cases h
  · rw [List.eq_of_mem_replicate h]
    rfl

/-- Nothing is found exactly where every output of an integrator is live somewhere. -/
theorem dormantFindings_eq_nil (hpaired : n.Paired) (h₂ : 2 ≤ steps) :
    n.dormantFindings live steps = [] ↔ ∀ k b, n.block? k = some b → b.kind = .integrator →
      ∀ o ∈ b.outputs, LiveSomewhere live (n.wires.netOf o) := by
  have hempty (b : TracedBlock α) (e : Nat × Nat) :
      (if LiveSomewhere live e.1 then [] else
        List.replicate (steps - 1) (⟨.missingCoupling .increment, some (n.path b)⟩ : Diagnostic α)) =
          [] ↔ LiveSomewhere live e.1 := by
    split
    case isTrue hl => exact iff_of_true rfl hl
    case isFalse hl => exact iff_of_false (by rw [List.replicate_eq_nil_iff]; omega) hl
  simp only [dormantFindings, List.flatMap_eq_nil_iff, hempty]
  constructor
  · intro h k b hb hk o ho
    have hlength : b.inputs.length = b.outputs.length := hpaired k b hb (by rw [hk]; rfl)
    obtain ⟨p, hp, rfl⟩ := List.mem_iff_getElem.mp ho
    have hz : (b.outputs[p], b.inputs[p]) ∈ b.outputs.zip b.inputs :=
      List.mem_of_getElem? (List.getElem?_zip_eq_some.mpr
        ⟨List.getElem?_eq_getElem hp, List.getElem?_eq_getElem (by omega)⟩)
    exact h b (mem_ofKind.mpr ⟨k, hb, hk⟩) _ (mem_stateNets.mpr ⟨_, _, hz, rfl⟩)
  · intro h b hb e he
    obtain ⟨k, hk, hkind⟩ := mem_ofKind.mp hb
    obtain ⟨o, i, hz, rfl⟩ := mem_stateNets.mp he
    exact h k b hk hkind o (List.of_mem_zip hz).1

end Dormant

section Stages

variable {n : Network α} {live : List PhaseSet} {steps : Nat} {g : Grid α} {t : Tableau α}
  {b : TracedBlock α}

theorem OnStages.notes_incrementRows (h : n.OnStages live steps t.stages g) (dt : α)
    (hb : b ∈ (n.blocks.ofKinds [.integrator]).map (·.2)) : (n.incrementRows g t dt b).notes =
      (n.stateNets b).flatMap fun e => if LiveSomewhere live e.1 then []
        else List.replicate (steps - 1) ⟨.missingCoupling .increment, some (n.path b)⟩ := by
  obtain ⟨k, hk, hkind⟩ := mem_ofKind.mp hb
  rw [incrementRows, notes_rowsOf_eq _ fun _ => gathers_rowsOf _ fun _ =>
    gathers_couplingRow n b .increment _ _]
  refine List.flatMap_congr fun e he => ?_
  obtain ⟨o, i, hz, rfl⟩ := mem_stateNets.mp he
  dsimp only
  rw [notes_rowsOf_eq _ fun j => gathers_couplingRow n b .increment _ _]
  split
  case isTrue hl =>
    refine List.flatMap_eq_nil_iff.mpr fun j hj => notes_couplingRow ?_
    exact h.isSome_increment ⟨hk, hkind, hz⟩ hl hj
  case isFalse hl =>
    -- the first variable is missing at every interval
    have hnote (j : Nat) : (n.couplingRow b .increment (g.index? (n.wires.netOf o) j ::
        g.index? (n.wires.netOf o) (j + 1) :: slopes g (n.wires.netOf i) j)
        (1 :: -1 :: t.weights.map (dt * ·))).notes =
          [⟨.missingCoupling .increment, some (n.path b)⟩] := by
      rw [h.index?_eq_none hl j]
      rfl
    simp only [hnote]
    rw [← List.map_eq_flatMap, List.map_const', length_stepsFrom, h.intervals_eq, Nat.add_sub_cancel]

theorem OnStages.notes_stageRows (h : n.OnStages live steps t.stages g) (dt : α)
    (hb : b ∈ (n.blocks.ofKinds [.integrator]).map (·.2)) : (n.stageRows g t dt b).notes = [] := by
  obtain ⟨k, hk, hkind⟩ := mem_ofKind.mp hb
  refine notes_rowsOf_eq_nil (fun _ => gathers_rowsOf _ fun _ => gathers_rowsOf _ fun _ =>
    gathers_couplingRow n b _ _ _) fun e he => ?_
  obtain ⟨hmem, hm⟩ := List.mem_filter.mp he
  obtain ⟨o, i, hz, rfl⟩ := mem_stateNets.mp hmem
  refine notes_rowsOf_eq_nil (fun _ => gathers_rowsOf _ fun _ => gathers_couplingRow n b _ _ _)
    fun j hj => ?_
  refine notes_rowsOf_eq_nil (fun _ => gathers_couplingRow n b _ _ _) fun s hs => ?_
  exact notes_couplingRow (h.isSome_stage ⟨hk, hkind, hz⟩ (List.contains_iff_mem.mp hm) hj hs)

theorem OnStages.notes_holdRows (h : n.OnStages live steps t.stages g) (hold : Hold) :
    (n.holdRows g t hold).notes = [] := by
  refine notes_rowsOf_eq_nil (fun f => gathers_rowsOf _ fun j => gathers_rowsOf _ fun s =>
    gathers_holdRow n g t f j s) fun f hf => ?_
  obtain ⟨k, b, o, hh, rfl⟩ := holds_of_mem_heldNets (List.mem_filter.mp hf).1
  refine notes_rowsOf_eq_nil (fun j => gathers_rowsOf _ fun s => gathers_holdRow n g t _ j s)
    fun j hj => ?_
  refine notes_rowsOf_eq_nil (fun s => gathers_holdRow n g t _ j s) fun s hs => ?_
  obtain ⟨kind, hrow⟩ := exists_holdRow_eq n g t (n.heldOutput b o) j s
  rw [hrow]
  exact notes_couplingRow (h.isSome_hold hh hj hs)

/-- Only integrators that are live nowhere lack variables. -/
theorem OnStages.notes_couplingRows (h : n.OnStages live steps t.stages g) (dt : α) :
    (n.couplingRows g t dt).notes = n.dormantFindings live steps := by
  have hincrement := gathers_incrementRows n g t dt
  have hstage := gathers_stageRows n g t dt
  obtain ⟨is, his, _⟩ := gathers_rowsOf ((n.blocks.ofKinds [.integrator]).map (·.2)) hincrement
  obtain ⟨ss, hss, _⟩ := gathers_rowsOf ((n.blocks.ofKinds [.integrator]).map (·.2)) hstage
  obtain ⟨fs, hfs, _⟩ := gathers_holdRows n g t .firstOrder
  obtain ⟨zs, hzs, _⟩ := gathers_holdRows n g t .zeroOrder
  have hincrements := notes_rowsOf_eq ((n.blocks.ofKinds [.integrator]).map (·.2)) hincrement
  have hstages : (rowsOf ((n.blocks.ofKinds [.integrator]).map (·.2)) (n.stageRows g t dt)).notes = [] :=
    notes_rowsOf_eq_nil hstage fun b hb => h.notes_stageRows dt hb
  rw [couplingRows, Noted.bind_eq his, Noted.bind_eq hss, Noted.bind_eq hfs, Noted.bind_eq hzs,
    hstages, h.notes_holdRows, h.notes_holdRows, hincrements]
  refine (List.append_nil _).trans (List.flatMap_congr fun b hb => ?_)
  exact h.notes_incrementRows dt hb

theorem OnStages.notes_equalities (h : n.OnStages live steps t.stages g) {step : System α}
    (hstep : n.stepSystem = .ok step) (hwidth : step.width = g.live.length) (dt : α) :
    (n.equalities g (some t) dt).notes = n.dormantFindings live steps := by
  have hpos : g.stages ≠ 0 := by
    rw [h.stages_eq]
    exact Nat.ne_of_gt h.stages_pos
  have hidle : (n.noteIdle g).notes = [] := by
    rw [noteIdle, if_neg hpos]
    rfl
  obtain ⟨rows, hrows, _⟩ := exists_gathered n g t dt
  have htrim : step.trim (minorMask g.live) = .ok (step.trimmed (minorMask g.live)) :=
    System.trim_eq (by rw [length_minorMask, hwidth])
  have hlift {β γ : Type} (r : Except Fault β) {f : β → Noted α γ} (hf : ∀ b, (f b).notes = []) :
      ((liftM r : Noted α β) >>= f).notes = [] := by
    cases r with
    | error e => rfl
    | ok b => exact hf b
  unfold equalities
  rw [Noted.bind_eq hstep, Noted.bind_eq (majorPhases_eq hwidth),
    Noted.bind_eq (h.expands.relabel_unfolded h.steps_pos step), Noted.bind_eq (result_noteIdle n g),
    if_neg hpos, hidle]
  simp only [filter_tableau h.stages_eq]
  rw [Noted.bind_eq htrim, Noted.bind_eq hrows, h.notes_couplingRows]
  exact (congrArg (n.dormantFindings live steps ++ ·) (hlift _ fun _ => hlift _ fun _ => rfl)).trans
    (List.append_nil _)

end Stages

def Unstructural (x : Diagnostic α) : Prop := x.kind ≠ .structural

theorem only_mergeWires (n : Network α) : (Run.mergeWires n).Only Unstructural := by
  have hempty (t : WireTable α) (net : Nat) :
      (t.noteEmpty n.diagram.path net).Only Unstructural := by
    intro x hx
    rw [Unstructural, WireTable.only_noteEmpty t _ net x hx]
    decide
  refine Noted.Only.bind ?_ fun _ => Noted.only_pure _
  unfold WireTable.canonicalize
  refine (Noted.only_forM (fun i => Noted.only_note ?_) _).bind fun _ => ?_
  · exact (by decide : DiagnosticKind.aliasCycle ≠ .structural)
  · exact (Noted.only_lift _).bind fun _ => (Noted.only_forM (hempty _) _).bind fun _ =>
      Noted.only_pure _

theorem only_noteMerged (entries : List (Entry α)) (i : Nat) :
    (noteMerged entries i).Only Unstructural := by
  unfold noteMerged
  dsimp only
  split
  · exact Noted.only_note (by decide : DiagnosticKind.infeasibleBound ≠ .structural)
  · exact Noted.only_pure ()

/-- Expanding finds nothing wrong with a diagram besides what is noted of delays. -/
theorem only_expand {n : Network α} {live : List PhaseSet} {steps : Nat}
    (hjoins : (n.joins (liveSlots live steps) steps).notes = []) (h₁ : 1 ≤ steps) (stages : Nat) :
    (n.expand live steps stages).Only Unstructural := by
  have hquiet : (n.joins (liveSlots live steps) steps).Only Unstructural := by
    rw [Noted.Only, hjoins]
    exact List.forall_mem_nil _
  unfold expand
  rw [if_neg (by omega)]
  simp only [Int.toNat_natCast]
  refine (Noted.only_lift _).bind fun _ => hquiet.bind fun _ => ?_
  exact (Noted.only_forM (only_noteMerged _) _).bind fun _ => Noted.only_pure _

end Network

namespace Dormant

/-- An input, integrated and then delayed. A cost looks at what comes out at the first step, which does
not depend on anything before. -/
def diagram : Diagram where
  name := "dormant"
  workspace := []
  blocks := #[
    ⟨"u", "SubSystem", "dormant/u", some "InputFromWorkspace", none, [], 0, [some [1, 1]]⟩,
    ⟨"x", "Integrator", "dormant/x", none, none, [], 1, [some [1, 1]]⟩,
    ⟨"z", "UnitDelay", "dormant/z", none, none, [], 1, [some [1, 1]]⟩,
    ⟨"cost", "SubSystem", "dormant/cost", some "DiscreteCost", none,
      [("intermediate_step", .text "off"), ("final_step", .text "off")], 1, []⟩]
  lines := [⟨⟨0, .outport, 1⟩, ⟨1, .inport, 1⟩⟩, ⟨⟨1, .outport, 1⟩, ⟨2, .inport, 1⟩⟩,
    ⟨⟨2, .outport, 1⟩, ⟨3, .inport, 1⟩⟩]

def out (i : Nat) : Port := ⟨i, .outport, 1⟩

def measured : Diagram :=
  { diagram with compiled := some ((List.range 3).map fun i => (out i, [1, 1])) }

theorem prepared_diagram : diagram.prepared = measured := by cbv

def block : Nat → TracedBlock ℚ
  | 0 => { source := 0, kind := .input, hold := some .zeroOrder }
  | 1 => { source := 1, kind := .integrator }
  | 2 => { source := 2, kind := .delay, hold := some .zeroOrder }
  | _ => { source := 3, kind := .cost, sinkPhases := ⟨true, false, false, false⟩ }

theorem record_input : measured.record .zeroOrder 0 = ⟨[], .ok (block 0)⟩ :=
  Diagram.record_plainInput rfl rfl rfl

theorem record_integrator : measured.record .zeroOrder 1 = ⟨[], .ok (block 1)⟩ := rfl

theorem record_delay : measured.record .zeroOrder 2 = ⟨[], .ok (block 2)⟩ := rfl

theorem record_cost : measured.record .zeroOrder 3 = ⟨[], .ok (block 3)⟩ := by cbv

def found (count : Nat) : Search ℚ where
  blocks := ⟨([3, 2, 1, 0].map block).take (count + 1)⟩
  wires :=
    { wires := [{ block := 1, port := out 2, sub := 0, net := 0 },
        { block := 2, port := out 1, sub := 0, net := 1 },
        { block := 3, port := out 0, sub := 0, net := 2 }].take count
      firsts := [(out 2, 0), (out 1, 1), (out 0, 2)].take count }

theorem search_measured : (Search.ofDiagram measured .zeroOrder).Quiet (found 3) := by
  have hsinks : Search.sinks measured = [3] := by cbv
  have hstart : (Search.start measured .zeroOrder [3] {} ⟨measured.allOutports, []⟩).Quiet
      (⟨[block 3]⟩, ⟨[out 0, out 1], [out 2]⟩) :=
    Noted.quiet_bind.mpr ⟨_, record_cost, rfl⟩
  have hdelay : ((found 0).visit measured .zeroOrder (out 2)).Quiet ⟨found 1, [out 2], [out 1]⟩ :=
    Search.quiet_visit rfl record_delay rfl
  have hintegrator : ((found 1).visit measured .zeroOrder (out 1)).Quiet
      ⟨found 2, [out 1], [out 0]⟩ :=
    Search.quiet_visit rfl record_integrator rfl
  have hinput : ((found 2).visit measured .zeroOrder (out 0)).Quiet ⟨found 3, [out 0], []⟩ :=
    Search.quiet_visit rfl record_input rfl
  refine Search.quiet_ofDiagram hsinks hstart ?_
  refine Search.quiet_run_cons (g := ⟨[out 0], [out 1]⟩) hdelay rfl ?_
  refine Search.quiet_run_cons (g := ⟨[], [out 0]⟩) hintegrator rfl ?_
  refine Search.quiet_run_cons (g := ⟨[], []⟩) hinput rfl ?_
  exact Search.run_nil

def traced : Network ℚ where
  diagram := measured
  blocks := ⟨[{ block 3 with inputs := [0] }, { block 2 with inputs := [1], outputs := [0] },
    { block 1 with inputs := [2], outputs := [1] }, { block 0 with outputs := [2] }]⟩
  wires := {
    wires := [
      { block := 1, port := out 2, sub := 0, net := 0, state := true
        cost := ⟨0 + 1, 0, 0⟩, rawCost := ⟨0 + 1, 0, 0⟩ },
      { block := 2, port := out 1, sub := 0, net := 1, state := true },
      { block := 3, port := out 0, sub := 0, net := 2, input := true }]
    firsts := [(out 2, 0), (out 1, 1), (out 0, 2)] }

theorem trace_diagram : (diagram.trace .zeroOrder).Quiet traced := by
  rw [Diagram.trace, prepared_diagram]
  exact Noted.quiet_bind.mpr ⟨_, search_measured, rfl⟩

def network : Network ℚ := { traced with wires := (traced.wires.renumber [0, 1, 2]).merge }

theorem merged_diagram (steps : Nat) (dt : ℚ) (tableau : Option (Tableau ℚ)) :
    (Run.ofDiagram (.full steps dt .zeroOrder tableau) diagram).merged = some (3, network) :=
  Run.merged_eq (congrArg Noted.result trace_diagram) rfl

theorem existsUnique_source (net : Nat) (h : net < network.wires.netCount) :
    ∃! i, network.Sources net i := by
  have hnets : network.wires.wires.map (·.net) = [0, 1, 2] := rfl
  have hsingle : network.SingleSourced := Network.singleSourced_of_nodup (by rw [hnets]; decide)
  have hsource : network.Sources net net := by
    match net with
    | 0 | 1 | 2 => exact ⟨_, _, rfl, rfl, rfl, rfl⟩
    | net + 3 => exact absurd h (Nat.not_lt.mpr (Nat.le_add_left 3 net))
  exact ⟨net, hsource, fun i hi => Network.singleSourced_iff.mp hsingle net i net hi hsource⟩

theorem paired_network : network.Paired := by
  intro k b hb hstate
  match k with
  | 0 | 3 =>
    cases hb
    cases hstate
  | 1 | 2 =>
    cases hb
    rfl
  | k + 4 => cases hb

end Dormant

namespace Run

open Network

variable {d : Diagram} {hold : Hold} {steps count : Nat} {dt : α} {t : Tableau α} {n : Network α}

/-- The diagnostics of a run that reaches its program are those of its stages. -/
theorem Completes.diagnostics_eq {tableau : Option (Tableau α)} {n₀ : Network α} {g : Grid α}
    {e : Equalities α} {p : Program α}
    (h : (ofDiagram (.full steps dt hold tableau) d).Completes n steps dt tableau g e p)
    (ht : (d.trace hold : Noted α (Network α)).result = .ok n₀)
    (hm : (mergeWires n₀).result = .ok (count, n)) :
    (ofDiagram (.full steps dt hold tableau) d).diagnostics =
      (d.trace hold : Noted α (Network α)).notes ++ (mergeWires n₀).notes ++
        ((n.withLiveness (n.liveness tableau.isSome)).expand (n.liveness tableau.isSome) steps
          (stagesOf tableau)).notes ++
        ((n.withLiveness (n.liveness tableau.isSome)).equalities g tableau dt).notes := by
  obtain ⟨e', he, _⟩ := h.laid.exists_assembled tableau dt
  rw [← equalities_withLiveness n (n.liveness tableau.isSome)] at he
  obtain ⟨_, _, hequalities⟩ := stages_eq ht hm h.expand_eq he
  obtain rfl := Option.some.inj (h.equalities_eq.symm.trans hequalities)
  rw [ofDiagram_eq ht hm h.expand_eq he h.build_eq]

/-- A diagram without a finding whose nets have one source each is laid out and assembled over every
horizon of two or more steps. Of what the run then finds wrong with it, there is one finding for every
interval and every scalar of an integrator that is live nowhere, and nothing else. So there is none
exactly if every output of an integrator is live in some phase. -/
theorem structure_found (hnotes : (d.trace hold : Noted α (Network α)).notes = [])
    (hmerged : (ofDiagram (.full steps dt hold (some t)) d).merged = some (count, n))
    (hsource : ∀ net < n.wires.netCount, ∃! i, n.Sources net i) (hpaired : n.Paired)
    (h₂ : 2 ≤ steps) (ht : t.Sized) :
    ∃ (g : Grid α) (e : Equalities α),
      (ofDiagram (.full steps dt hold (some t)) d).live = some (n.liveness true) ∧
      (ofDiagram (.full steps dt hold (some t)) d).grid = some g ∧
      (ofDiagram (.full steps dt hold (some t)) d).equalities = some e ∧
      ((ofDiagram (.full steps dt hold (some t)) d).diagnostics.filter fun x => x.kind = .structural) =
        n.dormantFindings (n.liveness true) steps ∧
      ((∀ x ∈ (ofDiagram (.full steps dt hold (some t)) d).diagnostics, x.kind ≠ .structural) ↔
        ∀ k b, n.block? k = some b → b.kind = .integrator →
          ∀ o ∈ b.outputs, LiveSomewhere (n.liveness true) (n.wires.netOf o)) := by
  have hsteps : 1 ≤ steps := Nat.le_of_succ_le h₂
  obtain ⟨n₀, htrace, hm⟩ := merged_eq_some hmerged
  obtain ⟨g, e, p, hrun⟩ := exists_completion hmerged hsteps
  obtain ⟨g', hg', _⟩ := exists_onGrid hnotes hmerged (singleSourced_of_existsUnique hsource) hsteps
  have h : n.OnStages (n.liveness true) steps t.stages g :=
    ⟨{ hg' with expands := hrun.laid.expands }, h₂, ht.stages_pos⟩
  obtain ⟨step, hstep, hwidth⟩ := hrun.laid.netted.exists_stepSystem
  rw [← hg'.count, Option.isSome_some, ← h.expands.live_eq] at hwidth
  have hequalities := h.notes_equalities hstep hwidth dt
  have hexpand : ((n.withLiveness (n.liveness true)).expand (n.liveness true) steps
      (stagesOf (some t))).notes.filter (fun x => x.kind = .structural) = [] := by
    have hjoins := quiet_joins_liveSlots h.closed steps (n.liveness true)
    refine List.filter_eq_nil_iff.mpr fun x hx => ?_
    exact decide_eq_true_iff.not.mpr (only_expand (congrArg Noted.notes hjoins) hsteps _ x hx)
  have hmerge : (mergeWires n₀).notes.filter (fun x => x.kind = .structural) = [] :=
    List.filter_eq_nil_iff.mpr fun x hx => decide_eq_true_iff.not.mpr (only_mergeWires n₀ x hx)
  have hfound : ((ofDiagram (.full steps dt hold (some t)) d).diagnostics.filter
      fun x => x.kind = .structural) = n.dormantFindings (n.liveness true) steps := by
    rw [hrun.diagnostics_eq htrace hm, equalities_withLiveness, hequalities, hnotes, List.nil_append,
      List.filter_append, List.filter_append, hmerge, List.nil_append]
    refine (congrArg (· ++ _) hexpand).trans ?_
    exact List.filter_eq_self.mpr fun x hx =>
      decide_eq_true (structural_of_mem_dormantFindings hx)
  refine ⟨g, e, hrun.live_eq, hrun.grid_eq, hrun.equalities_eq, hfound, ?_⟩
  rw [← dormantFindings_eq_nil hpaired h₂, ← hfound, List.filter_eq_nil_iff]
  simp only [decide_eq_true_eq]

/-- The running total over three steps, by the trapezoidal rule: its integrator is live, and there is no
finding. -/
theorem structure_found_total :
    (RunningTotal.diagram.trace .firstOrder : Noted ℚ _).notes = [] ∧
      (ofDiagram (.full 3 (1 / 2 : ℚ) .firstOrder (some .trapez)) RunningTotal.diagram).merged =
        some (4, RunningTotal.network) ∧
      (∀ net < RunningTotal.network.wires.netCount, ∃! i, RunningTotal.network.Sources net i) ∧
      RunningTotal.network.Paired ∧ 2 ≤ 3 ∧ (Tableau.trapez : Tableau ℚ).Sized ∧
      ∀ x ∈ (ofDiagram (.full 3 (1 / 2 : ℚ) .firstOrder (some .trapez))
        RunningTotal.diagram).diagnostics, x.kind ≠ .structural := by
  have hnotes := congrArg Noted.notes RunningTotal.trace_diagram
  have hmerged := RunningTotal.merged_diagram 3 (1 / 2) (some .trapez)
  have hsized : (Tableau.trapez : Tableau ℚ).Sized := ⟨by decide, rfl, rfl⟩
  obtain ⟨_, _, _, _, _, hfound, _⟩ := structure_found hnotes hmerged RunningTotal.existsUnique_source
    RunningTotal.paired_network (by decide) hsized
  have hnone : RunningTotal.network.dormantFindings (RunningTotal.network.liveness true) 3 = [] := by
    apply List.isEmpty_iff.mp
    decide +kernel
  rw [hnone, List.filter_eq_nil_iff] at hfound
  refine ⟨hnotes, hmerged, RunningTotal.existsUnique_source, RunningTotal.paired_network, by decide,
    hsized, fun x hx => ?_⟩
  exact decide_eq_true_iff.not.mp (hfound x hx)

/-- An integrator that is looked at behind a delay, and at the first step only: the run finds a variable
missing for its step across the interval. -/
theorem dormant_reported :
    (Dormant.diagram.trace .zeroOrder : Noted ℚ _).notes = [] ∧
      (ofDiagram (.full 2 (1 : ℚ) .zeroOrder (some .euler)) Dormant.diagram).merged =
        some (3, Dormant.network) ∧
      (∀ net < Dormant.network.wires.netCount, ∃! i, Dormant.network.Sources net i) ∧
      Dormant.network.Paired ∧ (Tableau.euler : Tableau ℚ).Sized ∧
      ∃ x ∈ (ofDiagram (.full 2 (1 : ℚ) .zeroOrder (some .euler)) Dormant.diagram).diagnostics,
        x.kind = .structural := by
  refine ⟨congrArg Noted.notes Dormant.trace_diagram, Dormant.merged_diagram 2 1 (some .euler),
    Dormant.existsUnique_source, Dormant.paired_network, ⟨by decide, rfl, rfl⟩, ?_⟩
  have hany : ((ofDiagram (.full 2 (1 : ℚ) .zeroOrder (some .euler))
      Dormant.diagram).diagnostics.any fun x => x.kind = .structural) = true := by
    unfold ofDiagram
    rw [Dormant.trace_diagram]
    decide +kernel
  obtain ⟨x, hx, hkind⟩ := List.any_eq_true.mp hany
  exact ⟨x, hx, of_decide_eq_true hkind⟩

end Run

end Transcription
