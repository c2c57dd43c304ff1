import Transcription.Proofs.Horizon.Expansion
import Transcription.Proofs.Network.Closure
import Transcription.Proofs.Network.Wiring

namespace Transcription

variable {α : Type} [Scalar α]

structure Network.OnGrid (n : Network α) (minor : Bool) (live : List PhaseSet) (steps stages : Nat)
    (g : Grid α) : Prop where
  wired : n.Wired
  single : n.SingleSourced
  closed : n.Closed minor fun net => (live[net]?).getD {}
  count : live.length = n.wires.netCount
  expands : n.Expands live steps stages g
  steps_pos : 1 ≤ steps

namespace Network

theorem joinPairs_withLiveness (n : Network α) (live : List PhaseSet) :
    (n.withLiveness live).joinPairs = n.joinPairs := by
  have hdelay : (n.withLiveness live).delayPairs = n.delayPairs := by
    funext slots steps b
    simp only [delayPairs, netOf_withLiveness]
  have hblocking : (n.withLiveness live).blockingJoins = n.blockingJoins := by
    funext slots steps b
    simp only [blockingJoins, netOf_withLiveness]
  funext slots steps
  simp only [joinPairs, hdelay, hblocking]
  rfl

theorem expands_withLiveness {n : Network α} {live phases : List PhaseSet} {steps stages : Nat}
    {g : Grid α} (h : (n.withLiveness phases).Expands live steps stages g) :
    n.Expands live steps stages g :=
  { h with labels_eq := by rw [h.labels_eq, joinPairs_withLiveness] }

theorem stepSystem_withLiveness (n : Network α) (live : List PhaseSet) :
    (n.withLiveness live).stepSystem = n.stepSystem := by
  have hsystem : (n.withLiveness live).netSystem? = n.netSystem? := by
    funext b
    simp only [netSystem?, netOf_withLiveness, netCount_withLiveness]
  simp only [stepSystem, hsystem, netCount_withLiveness]
  rfl

theorem couplingRows_withLiveness (n : Network α) (live : List PhaseSet) :
    (n.withLiveness live).couplingRows = n.couplingRows := by
  have hstate : (n.withLiveness live).stateNets = n.stateNets := by
    funext b
    simp only [stateNets, netOf_withLiveness]
  have hincrement : (n.withLiveness live).incrementRows = n.incrementRows := by
    funext g t dt b
    simp only [incrementRows, hstate]
    rfl
  have hstage : (n.withLiveness live).stageRows = n.stageRows := by
    funext g t dt b
    simp only [stageRows, hstate]
    rfl
  have hheld : (n.withLiveness live).heldNets = n.heldNets := by
    funext g
    simp only [heldNets, netOf_withLiveness]
    rfl
  have hhold : (n.withLiveness live).holdRows = n.holdRows := by
    funext g t hold
    simp only [holdRows, hheld]
    rfl
  funext g t dt
  simp only [couplingRows, hincrement, hstage, hhold]
  rfl

/-- The phases that are put on wires do not change what the equalities say. -/
theorem equalities_withLiveness (n : Network α) (live : List PhaseSet) :
    (n.withLiveness live).equalities = n.equalities := by
  funext g t dt
  simp only [equalities, stepSystem_withLiveness, couplingRows_withLiveness]
  rfl

end Network

namespace RunOptions

abbrev full (steps : Nat) (dt : α) (hold : Hold) (tableau : Option (Tableau α)) : RunOptions α :=
  { horizon := steps, stepSize := dt, hold, tableau := .ok tableau }

end RunOptions

namespace Run

variable {β : Type} {o : RunOptions α} {stage : Stage} {outcome : Noted α β}
  {keep : β → Run α → Run α} {next : β → Run α → Run α} {r : Run α}

theorem step_ok {b : β} (h : outcome.result = .ok b) (hl : o.last = .program)
    (hs : stage ≠ .program) : step o stage outcome keep next r =
      next b (keep b { r with diagnostics := r.diagnostics ++ outcome.notes }) := by
  simp [step, h, hl, Ne.symm hs]

theorem step_error {e : Fault} (h : outcome.result = .error e) :
    step o stage outcome keep next r =
      { r with diagnostics := r.diagnostics ++ outcome.notes, failure := some (stage, e) } := by
  simp [step, h]

theorem merged_step (hk : ∀ b r, (keep b r).merged = r.merged)
    (hn : ∀ b r, (next b r).merged = r.merged) :
    (step o stage outcome keep next r).merged = r.merged := by
  cases h : outcome.result with
  | error e => rw [step_error h]
  | ok b =>
    simp only [step, h]
    split
    · rw [hk]
    · rw [hn, hk]

variable {d : Diagram} {hold : Hold} {steps count : Nat} {dt : α} {tableau : Option (Tableau α)}
  {n : Network α}

/-- Once a network was traced and its wires merged, the later stages keep them. -/
theorem merged_eq {n₀ : Network α} (ht : (d.trace hold : Noted α (Network α)).result = .ok n₀)
    (hm : (mergeWires n₀).result = .ok (count, n)) :
    (ofDiagram (.full steps dt hold tableau) d).merged = some (count, n) := by
  unfold ofDiagram
  rw [step_ok ht rfl (by decide), step_ok hm rfl (by decide)]
  refine merged_step (fun _ _ => rfl) ?_
  intro (_, _) _
  refine merged_step (fun _ _ => rfl) fun _ _ => ?_
  refine merged_step (fun _ _ => rfl) fun _ _ => ?_
  exact merged_step (fun _ _ => rfl) fun _ _ => rfl

/-- A run has merged the wires of a network only if they do merge. -/
theorem merged_eq_some (h : (ofDiagram (.full steps dt hold tableau) d).merged = some (count, n)) :
    ∃ n₀, (d.trace hold : Noted α (Network α)).result = .ok n₀ ∧
      (mergeWires n₀).result = .ok (count, n) := by
  cases ht : (d.trace hold : Noted α (Network α)).result with
  | error e =>
    unfold ofDiagram at h
    rw [step_error ht] at h
    cases h
  | ok n₀ =>
    refine ⟨n₀, rfl, ?_⟩
    cases hm : (mergeWires n₀).result with
    | error e =>
      unfold ofDiagram at h
      rw [step_ok ht rfl (by decide), step_error hm] at h
      cases h
    | ok m =>
      rw [merged_eq ht hm] at h
      cases h
      rfl

/-- Once the stages before them succeed, a run has their grid and equalities. -/
theorem stages_eq {n₀ : Network α} {g : Grid α} {e : Equalities α}
    (ht : (d.trace hold : Noted α (Network α)).result = .ok n₀)
    (hm : (mergeWires n₀).result = .ok (count, n))
    (hg : ((n.withLiveness (n.liveness tableau.isSome)).expand (n.liveness tableau.isSome) steps
      ((tableau.map (·.stages)).getD 0)).result = .ok g)
    (he : ((n.withLiveness (n.liveness tableau.isSome)).equalities g tableau dt).result = .ok e) :
    (ofDiagram (.full steps dt hold tableau) d).live = some (n.liveness tableau.isSome) ∧
      (ofDiagram (.full steps dt hold tableau) d).grid = some g ∧
      (ofDiagram (.full steps dt hold tableau) d).equalities = some e := by
  unfold ofDiagram
  have hp : (propagate (.full steps dt hold tableau) n).result =
      .ok (tableau, n.liveness tableau.isSome) := rfl
  rw [step_ok ht rfl (by decide), step_ok hm rfl (by decide)]
  dsimp only
  rw [step_ok hp rfl (by decide)]
  dsimp only [Option.getD_none]
  rw [step_ok hg rfl (by decide), step_ok he rfl (by decide)]
  unfold step
  split
  · exact ⟨rfl, rfl, rfl⟩
  · split <;> exact ⟨rfl, rfl, rfl⟩

/-- A diagram without a finding is laid out over every horizon. -/
theorem exists_onGrid (hnotes : (d.trace hold : Noted α (Network α)).notes = [])
    (hmerged : (ofDiagram (.full steps dt hold tableau) d).merged = some (count, n))
    (hs : n.SingleSourced) (h₁ : 1 ≤ steps) :
    ∃ g, n.OnGrid tableau.isSome (n.liveness tableau.isSome) steps
        ((tableau.map (·.stages)).getD 0) g ∧
      ∀ e, (n.equalities g tableau dt).result = .ok e →
        (ofDiagram (.full steps dt hold tableau) d).live = some (n.liveness tableau.isSome) ∧
          (ofDiagram (.full steps dt hold tableau) d).grid = some g ∧
          (ofDiagram (.full steps dt hold tableau) d).equalities = some e := by
  obtain ⟨n₀, ht, hm⟩ := merged_eq_some hmerged
  have hquiet : (Network.traceMeasured d.prepared hold : Noted α (Network α)).Quiet n₀ := by
    change (d.trace hold : Noted α (Network α)) = _
    generalize (d.trace hold : Noted α (Network α)) = x at hnotes ht
    cases x
    simp only at hnotes ht
    rw [hnotes, ht]
  obtain ⟨hw, _⟩ := Network.wired_mergeWires hquiet hm
  have hdriven := hw.driven hs
  have hlen := Liveness.length_liveness hdriven tableau.isSome
  have hgroup : ∀ net < (n.liveness tableau.isSome).length,
      (n.withLiveness (n.liveness tableau.isSome)).wires.group net ≠ [] := by
    intro net hnet
    exact hw.group_withLiveness _ (hlen ▸ hnet)
  obtain ⟨g, hg⟩ := Network.exists_expand ((tableau.map (·.stages)).getD 0) h₁ hgroup
  refine ⟨g, ?_, fun e he => stages_eq ht hm hg (by rw [Network.equalities_withLiveness, he])⟩
  exact {
    wired := hw
    single := hs
    closed := Liveness.closed_liveness hdriven tableau.isSome
    count := hlen
    expands := Network.expands_withLiveness (Network.expands hg)
    steps_pos := h₁ }

end Run

/-- The search from the sink `sink` once the only outports of the blocks `is` are visited, one scalar each. -/
def Search.scalars (block : Nat → TracedBlock ℚ) (sink : Nat) (is : List Nat) : Search ℚ where
  blocks := ⟨(sink :: is).map block⟩
  wires := ⟨is.zipIdx.map fun (i, c) =>
      { block := c + 1, port := ⟨i, .outport, 1⟩, sub := 0, net := c },
    is.zipIdx.map fun (i, c) => (⟨i, .outport, 1⟩, c)⟩

namespace RunningTotal

/-- Adds an input, integrated, to the total of the step before. -/
def diagram : Diagram where
  name := "total"
  workspace := []
  blocks := #[
    ⟨"u", "SubSystem", "total/u", some "InputFromWorkspace", none, [], 0, [none]⟩,
    ⟨"x", "UnitDelay", "total/x", none, none, [], 1, [none]⟩,
    ⟨"y", "Integrator", "total/y", none, none, [], 1, [none]⟩,
    ⟨"sum", "Sum", "total/sum", none, none, [], 2, [none]⟩,
    ⟨"cost", "SubSystem", "total/cost", some "DiscreteCost", none, [], 1, []⟩]
  compiled := some ((List.range 4).map fun i => (⟨i, .outport, 1⟩, [1, 1]))
  lines := [⟨⟨1, .outport, 1⟩, ⟨3, .inport, 1⟩⟩, ⟨⟨2, .outport, 1⟩, ⟨3, .inport, 2⟩⟩,
    ⟨⟨3, .outport, 1⟩, ⟨1, .inport, 1⟩⟩, ⟨⟨0, .outport, 1⟩, ⟨2, .inport, 1⟩⟩,
    ⟨⟨3, .outport, 1⟩, ⟨4, .inport, 1⟩⟩]

def block : Nat → TracedBlock ℚ
  | 0 => { source := 0, kind := .input, hold := some .firstOrder }
  | 1 => { source := 1, kind := .delay, hold := some .zeroOrder }
  | 2 => { source := 2, kind := .integrator }
  | 3 => {
      source := 3
      kind := .primitive
      system := ⟨3, [[(0, 1)], [(1, 1)], [(2, 1)]], [[(0, 1), (1, 1), (2, -1)]]⟩ }
  | _ => { source := 4, kind := .cost, sinkPhases := .majors }

theorem inputWidths_sum : diagram.inputWidths 3 = .ok [1, 1] := by cbv

theorem expression_sum : diagram.expression 3 =
    .ok (⟨2, [[(0, 1)], [(1, 1)]], [[(0, 1), (1, 1)]]⟩ : System ℚ) := by
  have hops : Operators.parse (diagram.param 3 "Inputs" (.text "++")) 2 ['+', '-'] =
      .ok ['+', '+'] := by cbv
  change diagram.sumExpression 3 = _
  simp only [Diagram.sumExpression, inputWidths_sum, bind, Except.bind, List.length_cons,
    List.length_nil, Nat.reduceAdd, hops]
  rfl

theorem record_block {i : Nat} (hi : i < 5) :
    diagram.record .firstOrder i = ⟨[], .ok (block i)⟩ := by
  obtain rfl | rfl | rfl | rfl | rfl : i = 0 ∨ i = 1 ∨ i = 2 ∨ i = 3 ∨ i = 4 := by omega
  · exact Diagram.record_plainInput rfl rfl rfl
  · cbv
  · cbv
  · have hsum : BlockKind.of (diagram.block 3) = .primitive := by cbv
    have hout : diagram.outputWidth 3 = .ok 1 := by cbv
    have hequations : diagram.equations 3 = .ok (block 3).system := by
      simp only [Diagram.equations, expression_sum, inputWidths_sum, hout, bind, Except.bind]
      rfl
    simp only [Diagram.record, hsum, Diagram.primitiveRecord, hequations]
    rfl
  · cbv

def out (i : Nat) : Port := ⟨i, .outport, 1⟩

def found (is : List Nat) : Search ℚ := .scalars block 4 is

theorem search_diagram : (Search.ofDiagram diagram .firstOrder).Quiet (found [3, 1, 2, 0]) := by
  have hsinks : Search.sinks diagram = [4] := by cbv
  have hstart : (Search.start diagram .firstOrder [4] {} ⟨diagram.allOutports, []⟩).Quiet
      (⟨[block 4]⟩, ⟨[out 0, out 1, out 2], [out 3]⟩) :=
    Noted.quiet_bind.mpr ⟨_, record_block (i := 4) (by decide), rfl⟩
  have hsum : ((found []).visit diagram .firstOrder (out 3)).Quiet
      ⟨found [3], [out 3], [out 1, out 2]⟩ :=
    Search.quiet_visit rfl (record_block (i := 3) (by decide)) rfl
  have hdelay : ((found [3]).visit diagram .firstOrder (out 1)).Quiet
      ⟨found [3, 1], [out 1], [out 3]⟩ :=
    Search.quiet_visit rfl (record_block (i := 1) (by decide)) rfl
  have hintegrator : ((found [3, 1]).visit diagram .firstOrder (out 2)).Quiet
      ⟨found [3, 1, 2], [out 2], [out 0]⟩ :=
    Search.quiet_visit rfl (record_block (i := 2) (by decide)) rfl
  have hinput : ((found [3, 1, 2]).visit diagram .firstOrder (out 0)).Quiet
      ⟨found [3, 1, 2, 0], [out 0], []⟩ :=
    Search.quiet_visit rfl (record_block (i := 0) (by decide)) rfl
  refine Search.quiet_ofDiagram hsinks hstart ?_
  refine Search.quiet_run_cons (g := ⟨[out 0], [out 1, out 2]⟩) hsum rfl ?_
  refine Search.quiet_run_cons (g := ⟨[out 0], [out 2]⟩) hdelay rfl ?_
  refine Search.quiet_run_cons (g := ⟨[], [out 0]⟩) hintegrator rfl ?_
  refine Search.quiet_run_cons (g := ⟨[], []⟩) hinput rfl ?_
  exact Search.run_nil

/-- Every wire is a net of its own; nets 0 to 3 leave the sum, the delay, the integrator and the
input. -/
def traced : Network ℚ where
  diagram := diagram
  blocks := ⟨[{ block 4 with inputs := [0] }, { block 3 with inputs := [1, 2], outputs := [0] },
    { block 1 with inputs := [0], outputs := [1] }, { block 2 with inputs := [3], outputs := [2] },
    { block 0 with outputs := [3] }]⟩
  wires := {
    wires := [
      { block := 1, port := out 3, sub := 0, net := 0
        cost := .constant (0 + 1), rawCost := .constant (0 + 1) },
      { block := 2, port := out 1, sub := 0, net := 1, state := true },
      { block := 3, port := out 2, sub := 0, net := 2, state := true },
      { block := 4, port := out 0, sub := 0, net := 3, input := true }]
    firsts := [(out 3, 0), (out 1, 1), (out 2, 2), (out 0, 3)] }

theorem trace_diagram : (diagram.trace .firstOrder).Quiet traced := by
  rw [Diagram.trace, show diagram.prepared = diagram from rfl]
  exact Noted.quiet_bind.mpr ⟨_, search_diagram, rfl⟩

def network : Network ℚ := { traced with wires := (traced.wires.renumber [0, 1, 2, 3]).merge }

/-- The sum is the only primitive. -/
theorem primitive_network {k : Nat} {b : TracedBlock ℚ} (hb : network.block? k = some b)
    (hk : b.kind = .primitive) : b = { block 3 with inputs := [1, 2], outputs := [0] } := by
  match k with
  | 1 =>
    cases hb
    rfl
  | 0 | 2 | 3 | 4 =>
    cases hb
    cases hk
  | k + 5 => cases hb

theorem merged_diagram (steps : Nat) (dt : ℚ) (tableau : Option (Tableau ℚ)) :
    (Run.ofDiagram (.full steps dt .firstOrder tableau) diagram).merged = some (4, network) :=
  Run.merged_eq (congrArg Noted.result trace_diagram) rfl

theorem singleSourced_network : network.SingleSourced := by
  have hnets : network.wires.wires.map (·.net) = [0, 1, 2, 3] := rfl
  exact Network.singleSourced_of_nodup (by rw [hnets]; decide)

end RunningTotal

namespace Reservoir

/-- An inflow that is set for two steps at a time, less a loss that grows with the level and the release
of the step before. Only the last balance costs. -/
def diagram : Diagram where
  name := "reservoir"
  workspace := []
  blocks := #[
    ⟨"inflow", "SubSystem", "reservoir/inflow", some "InputFromWorkspace", none,
      [("move_blocking_info", .list [.int 2, .int 1]), ("interpType", .text "ZOH")], 0, [none]⟩,
    ⟨"level", "Integrator", "reservoir/level", none, none, [], 1, [none]⟩,
    ⟨"release", "UnitDelay", "reservoir/release", none, none, [], 1, [none]⟩,
    ⟨"balance", "Sum", "reservoir/balance", none, none, [("Inputs", .text "+--")], 3, [none]⟩,
    ⟨"cost", "SubSystem", "reservoir/cost", some "DiscreteCost", none,
      [("initial_step", .text "off"), ("intermediate_step", .text "off")], 1, []⟩]
  compiled := some ((List.range 4).map fun i => (⟨i, .outport, 1⟩, [1, 1]))
  lines := [⟨⟨0, .outport, 1⟩, ⟨3, .inport, 1⟩⟩, ⟨⟨1, .outport, 1⟩, ⟨3, .inport, 2⟩⟩,
    ⟨⟨2, .outport, 1⟩, ⟨3, .inport, 3⟩⟩, ⟨⟨3, .outport, 1⟩, ⟨1, .inport, 1⟩⟩,
    ⟨⟨3, .outport, 1⟩, ⟨2, .inport, 1⟩⟩, ⟨⟨3, .outport, 1⟩, ⟨4, .inport, 1⟩⟩]

def block : Nat → TracedBlock ℚ
  | 0 => { source := 0, kind := .input, period := .every 2, offset := 1, hold := some .zeroOrder }
  | 1 => { source := 1, kind := .integrator }
  | 2 => { source := 2, kind := .delay, hold := some .zeroOrder }
  | 3 => {
      source := 3
      kind := .primitive
      system := ⟨4, [[(0, 1)], [(1, 1)], [(2, 1)], [(3, 1)]], [[(0, 1), (1, -1), (2, -1), (3, -1)]]⟩ }
  | _ => { source := 4, kind := .cost, sinkPhases := ⟨false, false, true, false⟩ }

theorem inputWidths_balance : diagram.inputWidths 3 = .ok [1, 1, 1] := by cbv

theorem expression_balance : diagram.expression 3 =
    .ok (⟨3, [[(0, 1)], [(1, 1)], [(2, 1)]], [[(0, 1), (1, -1), (2, -1)]]⟩ : System ℚ) := by
  have hops : Operators.parse (diagram.param 3 "Inputs" (.text "++")) 3 ['+', '-'] =
      .ok ['+', '-', '-'] := by cbv
  change diagram.sumExpression 3 = _
  simp only [Diagram.sumExpression, inputWidths_balance, bind, Except.bind, List.length_cons,
    List.length_nil, Nat.reduceAdd, hops]
  rfl

theorem record_block {i : Nat} (hi : i < 5) :
    diagram.record .firstOrder i = ⟨[], .ok (block i)⟩ := by
  obtain rfl | rfl | rfl | rfl | rfl : i = 0 ∨ i = 1 ∨ i = 2 ∨ i = 3 ∨ i = 4 := by omega
  · have hwindow : Period.ofValue (diagram.param 0 "move_blocking_info" .none) =
        .ok (.every 2, 1) := rfl
    have hhold : diagram.param 0 "interpType" .none = .text "ZOH" := rfl
    have hinput : BlockKind.of (diagram.block 0) = .input := BlockKind.of_input rfl
    simp only [Diagram.record, hinput, Diagram.boundaryRecord, hwindow, hhold]
    rfl
  · cbv
  · cbv
  · have hsum : BlockKind.of (diagram.block 3) = .primitive := by cbv
    have hout : diagram.outputWidth 3 = .ok 1 := by cbv
    have hequations : diagram.equations 3 = .ok (block 3).system := by
      simp only [Diagram.equations, expression_balance, inputWidths_balance, hout, bind, Except.bind]
      rfl
    simp only [Diagram.record, hsum, Diagram.primitiveRecord, hequations]
    rfl
  · cbv

def out (i : Nat) : Port := ⟨i, .outport, 1⟩

def found (is : List Nat) : Search ℚ := .scalars block 4 is

theorem search_diagram : (Search.ofDiagram diagram .firstOrder).Quiet (found [3, 0, 1, 2]) := by
  have hsinks : Search.sinks diagram = [4] := by cbv
  have hstart : (Search.start diagram .firstOrder [4] {} ⟨diagram.allOutports, []⟩).Quiet
      (⟨[block 4]⟩, ⟨[out 0, out 1, out 2], [out 3]⟩) :=
    Noted.quiet_bind.mpr ⟨_, record_block (i := 4) (by decide), rfl⟩
  have hbalance : ((found []).visit diagram .firstOrder (out 3)).Quiet
      ⟨found [3], [out 3], [out 0, out 1, out 2]⟩ :=
    Search.quiet_visit rfl (record_block (i := 3) (by decide)) rfl
  have hinflow : ((found [3]).visit diagram .firstOrder (out 0)).Quiet
      ⟨found [3, 0], [out 0], []⟩ :=
    Search.quiet_visit rfl (record_block (i := 0) (by decide)) rfl
  have hlevel : ((found [3, 0]).visit diagram .firstOrder (out 1)).Quiet
      ⟨found [3, 0, 1], [out 1], [out 3]⟩ :=
    Search.quiet_visit rfl (record_block (i := 1) (by decide)) rfl
  have hrelease : ((found [3, 0, 1]).visit diagram .firstOrder (out 2)).Quiet
      ⟨found [3, 0, 1, 2], [out 2], [out 3]⟩ :=
    Search.quiet_visit rfl (record_block (i := 2) (by decide)) rfl
  refine Search.quiet_ofDiagram hsinks hstart ?_
  refine Search.quiet_run_cons (g := ⟨[], [out 0, out 1, out 2]⟩) hbalance rfl ?_
  refine Search.quiet_run_cons (g := ⟨[], [out 1, out 2]⟩) hinflow rfl ?_
  refine Search.quiet_run_cons (g := ⟨[], [out 2]⟩) hlevel rfl ?_
  refine Search.quiet_run_cons (g := ⟨[], []⟩) hrelease rfl ?_
  exact Search.run_nil

/-- Every wire is a net of its own; nets 0 to 3 leave the balance, the inflow, the level and the
release. -/
def traced : Network ℚ where
  diagram := diagram
  blocks := ⟨[{ block 4 with inputs := [0] }, { block 3 with inputs := [1, 2, 3], outputs := [0] },
    { block 0 with outputs := [1] }, { block 1 with inputs := [0], outputs := [2] },
    { block 2 with inputs := [0], outputs := [3] }]⟩
  wires := {
    wires := [
      { block := 1, port := out 3, sub := 0, net := 0
        cost := ⟨0, 0, 0 + 1⟩, rawCost := ⟨0, 0, 0 + 1⟩ },
      { block := 2, port := out 0, sub := 0, net := 1, input := true },
      { block := 3, port := out 1, sub := 0, net := 2, state := true },
      { block := 4, port := out 2, sub := 0, net := 3, state := true }]
    firsts := [(out 3, 0), (out 0, 1), (out 1, 2), (out 2, 3)] }

theorem trace_diagram : (diagram.trace .firstOrder).Quiet traced := by
  rw [Diagram.trace, show diagram.prepared = diagram from rfl]
  exact Noted.quiet_bind.mpr ⟨_, search_diagram, rfl⟩

def network : Network ℚ := { traced with wires := (traced.wires.renumber [0, 1, 2, 3]).merge }

theorem merged_diagram (steps : Nat) (dt : ℚ) (tableau : Option (Tableau ℚ)) :
    (Run.ofDiagram (.full steps dt .firstOrder tableau) diagram).merged = some (4, network) :=
  Run.merged_eq (congrArg Noted.result trace_diagram) rfl

theorem singleSourced_network : network.SingleSourced := by
  have hnets : network.wires.wires.map (·.net) = [0, 1, 2, 3] := rfl
  exact Network.singleSourced_of_nodup (by rw [hnets]; decide)

end Reservoir

end Transcription
