import Transcription.Proofs.Network.Coverage
import Transcription.Proofs.Program.Dynamics

namespace Transcription

variable {α : Type}

def TracedBlock.constrains (b : TracedBlock α) : Bool :=
  !b.system.isEmpty && b.system.width == b.inputs.length + b.outputs.length

theorem TracedBlock.constrains_iff {b : TracedBlock α} : b.constrains = true ↔
    b.system.isEmpty = false ∧ b.system.width = b.inputs.length + b.outputs.length := by
  simp [constrains]

def BlockTable.constraining (t : BlockTable α) : List (TracedBlock α) :=
  t.blocks.filter TracedBlock.constrains

theorem filterMap_ite {β γ : Type} (p : β → Bool) (f : β → γ) (xs : List β) :
    xs.filterMap (fun x => if p x then some (f x) else none) = (xs.filter p).map f := by
  induction xs with
  | nil => rfl
  | cons x xs ih => cases hp : p x <;> simp [hp, ih]

variable [LinearOrder α] [ExactScalar α]

namespace Network

variable {n : Network α}

def valuesAt (n : Network α) (x : List α) (b : TracedBlock α) : List α :=
  (n.blockNets b).map (System.point x)

theorem length_valuesAt (n : Network α) (x : List α) (b : TracedBlock α) :
    (n.valuesAt x b).length = b.inputs.length + b.outputs.length := by
  rw [valuesAt, List.length_map, length_blockNets]

def Equational (n : Network α) : Prop :=
  ∀ b ∈ n.blocks.blocks, b.system.isEmpty = false → b.kind = .primitive ∧ b.system.Proper

theorem Coherent.equational (h : n.Coherent) : n.Equational := by
  intro b hmem hempty
  obtain ⟨k, hb⟩ : ∃ k, n.block? k = some b := List.mem_iff_getElem?.mp hmem
  have hk := h.isPrimitive hb hempty
  refine ⟨hk, ?_⟩
  rcases h.lowered b hmem hk with ⟨_, _, _, _, _, hproper, _⟩ | ⟨_, _, hnone⟩
  · exact hproper
  · rw [hnone] at hempty
    cases hempty

/-- The equations of a block are moved to its nets, if it has a column for every wire. -/
theorem Equational.netSystem?_eq (h : n.Equational) (hl : n.Linked) {b : TracedBlock α}
    (hb : b ∈ n.blocks.blocks) : n.netSystem? b = .ok (if b.constrains then
      some (b.system.moved (n.blockNets b) n.wires.netCount) else none) := by
  obtain ⟨k, hk⟩ : ∃ k, n.block? k = some b := List.mem_iff_getElem?.mp hb
  have hguard : (b.kind = .primitive && !b.system.isEmpty &&
      ((b.inputs ++ b.outputs).map n.wires.netOf).length = b.system.width) = b.constrains := by
    cases hempty : b.system.isEmpty with
    | true => simp [TracedBlock.constrains, hempty]
    | false =>
      simp [TracedBlock.constrains, hempty, (h b hb hempty).1, eq_comm, Bool.beq_eq_decide_eq]
  unfold netSystem?
  simp only [hguard]
  cases hc : b.constrains with
  | false => rfl
  | true =>
    obtain ⟨_, hwidth⟩ := TracedBlock.constrains_iff.mp hc
    have hlength : (n.blockNets b).length = b.system.width := by rw [length_blockNets, hwidth]
    have hnets : ∀ c ∈ n.blockNets b, c < n.wires.netCount :=
      List.forall_mem_map.mpr fun i hi => hl.netOf_lt hk hi
    change (do return some (← b.system.relabel (n.blockNets b) n.wires.netCount)) = _
    rw [System.relabel_eq hlength hnets]
    rfl

/-- The equations of all blocks are those of the blocks that constrain their wires, each moved to its
nets. -/
theorem Equational.stepSystem_eq (h : n.Equational) (hl : n.Linked) :
    n.stepSystem = .ok (System.stacked n.wires.netCount (n.blocks.constraining.map fun b =>
      b.system.moved (n.blockNets b) n.wires.netCount)) := by
  have hsystems : n.blocks.blocks.mapM n.netSystem? = .ok (n.blocks.blocks.map fun b =>
      if b.constrains then some (b.system.moved (n.blockNets b) n.wires.netCount) else none) :=
    except_mapM_eq_ok.mpr (List.forall₂_map_right_iff.mpr
      (List.forall₂_same.mpr fun b hb => h.netSystem?_eq hl hb))
  rw [stepSystem, hsystems]
  change System.combine _ _ = _
  rw [List.filterMap_map, Function.id_comp, filterMap_ite]
  exact System.combine_eq (List.forall_mem_map.mpr fun b _ => le_rfl)

/-- At a point, the equations of all blocks leave what each block leaves at the values of its wires. -/
theorem Equational.residual_eq (h : n.Equational) (hl : n.Linked) {x : List α}
    (hx : x.length = n.wires.netCount)
    (hr : ∀ b ∈ n.blocks.constraining, b.system.Regular (System.point (n.valuesAt x b))) :
    ∃ step residuals, n.stepSystem = .ok step ∧
      n.blocks.constraining.mapM (fun b => b.system.residual (n.valuesAt x b)) = .ok residuals ∧
      step.residual x = .ok residuals.flatten := by
  have hblock {b : TracedBlock α} (hb : b ∈ n.blocks.constraining) : b ∈ n.blocks.blocks ∧
      b.system.Proper ∧ b.system.width = b.inputs.length + b.outputs.length := by
    obtain ⟨hmem, hc⟩ := List.mem_filter.mp hb
    obtain ⟨hempty, hwidth⟩ := TracedBlock.constrains_iff.mp hc
    exact ⟨hmem, (h b hmem hempty).2, hwidth⟩
  have hlocal (b : TracedBlock α) (hb : b ∈ n.blocks.constraining) :
      b.system.residual (n.valuesAt x b) = .ok (b.system.residualAt (System.point (n.valuesAt x b))) :=
    System.residual_of_length ((length_valuesAt n x b).trans (hblock hb).2.2.symm)
  have hmoved (b : TracedBlock α) (hb : b ∈ n.blocks.constraining) :
      (b.system.moved (n.blockNets b) n.wires.netCount).Proper ∧
      (b.system.moved (n.blockNets b) n.wires.netCount).residualAt (System.point x) =
        b.system.residualAt (System.point (n.valuesAt x b)) := by
    obtain ⟨hmem, hproper, hwidth⟩ := hblock hb
    obtain ⟨k, hk⟩ : ∃ k, n.block? k = some b := List.mem_iff_getElem?.mp hmem
    have hlength : (n.blockNets b).length = b.system.width := by rw [length_blockNets, hwidth]
    have hpoint (c : Nat) (hc : c < b.system.width) : System.point (n.valuesAt x b) c =
        System.point x ((n.blockNets b).getD c 0) := by
      rw [← hlength] at hc
      rw [System.point_eq_getD, valuesAt, List.getD_eq_getElem _ _ (by simpa using hc),
        List.getElem_map, List.getD_eq_getElem _ _ hc]
    refine ⟨hproper.moved hlength (List.forall_mem_map.mpr fun i hi => hl.netOf_lt hk hi), ?_⟩
    rw [System.residualAt_moved_of_regular ((hr b hb).congr hproper hpoint)]
    exact (System.residualAt_congr hproper hpoint).symm
  refine ⟨_, _, h.stepSystem_eq hl, except_mapM_eq_ok.mpr (List.forall₂_map_right_iff.mpr
    (List.forall₂_same.mpr hlocal)), ?_⟩
  rw [System.residual_of_length hx,
    System.residualAt_stacked (List.forall_mem_map.mpr fun b hb => (hmoved b hb).1), List.flatMap_map,
    ← List.flatMap_def, List.flatMap_congr fun b hb => (hmoved b hb).2]

/-- Where outports are as wide as they have scalars, every block with equations constrains its wires. -/
theorem Coherent.constraining_eq (h : n.Coherent) (hs : n.Sized) :
    n.blocks.constraining = n.blocks.blocks.filter fun b => !b.system.isEmpty := by
  refine List.filter_congr fun b hmem => ?_
  obtain ⟨k, hb⟩ : ∃ k, n.block? k = some b := List.mem_iff_getElem?.mp hmem
  cases hempty : b.system.isEmpty with
  | true => simp [TracedBlock.constrains, hempty]
  | false =>
    have hk := h.isPrimitive hb hempty
    have hr : b.kind.isReroute = false := by rw [hk]; rfl
    have hin := h.length_inputs hs hb hr (by rw [hk]; rfl)
    have hout := h.length_outputs hs hb hr (by rw [hk]; rfl)
    exact TracedBlock.constrains_iff.mpr ⟨hempty, h.width_of_lengths hb hempty hin hout⟩

end Network

namespace Overhang

/-- The sum of an input with itself, measured by a cost. The sum has a second outport, of a width that
is left to be inherited, and the cost has one of its own. -/
def diagram : Diagram where
  name := "overhang"
  workspace := []
  blocks := #[
    ⟨"u", "SubSystem", "overhang/u", some "InputFromWorkspace", none, [], 0, [some [1, 1]]⟩,
    ⟨"sum", "Sum", "overhang/sum", none, none, [], 2, [some [1, 2], some [1, -1]]⟩,
    ⟨"cost", "SubSystem", "overhang/cost", some "DiscreteCost", none, [], 1, [some [1, 1]]⟩]
  lines := [⟨⟨0, .outport, 1⟩, ⟨1, .inport, 1⟩⟩, ⟨⟨0, .outport, 1⟩, ⟨1, .inport, 2⟩⟩,
    ⟨⟨1, .outport, 1⟩, ⟨2, .inport, 1⟩⟩]

def out (i k : Nat) : Port := ⟨i, .outport, k⟩

def measured : Diagram :=
  { diagram with
    compiled := some [(out 0 1, [1, 1]), (out 1 1, [1, 2]), (out 1 2, [1, -1]), (out 2 1, [1, 1])] }

theorem prepared_diagram : diagram.prepared = measured := by cbv

def block : Nat → TracedBlock ℚ
  | 0 => { source := 0, kind := .input, hold := some .zeroOrder }
  | 1 => {
      source := 1
      kind := .primitive
      system := ⟨3, [[(0, 1)], [(1, 1)], [(2, 1)]], [[(0, 1), (1, 1), (2, -1)]]⟩ }
  | _ => { source := 2, kind := .cost, sinkPhases := .majors }

theorem inputWidths_sum : measured.inputWidths 1 = .ok [1, 1] := by cbv

theorem expression_sum : measured.expression 1 =
    .ok (⟨2, [[(0, 1)], [(1, 1)]], [[(0, 1), (1, 1)]]⟩ : System ℚ) := by
  have hops : Operators.parse (measured.param 1 "Inputs" (.text "++")) 2 ['+', '-'] =
      .ok ['+', '+'] := by cbv
  change measured.sumExpression 1 = _
  simp only [Diagram.sumExpression, inputWidths_sum, bind, Except.bind, List.length_cons,
    List.length_nil, Nat.reduceAdd, hops]
  rfl

theorem record_input : measured.record .zeroOrder 0 = ⟨[], .ok (block 0)⟩ :=
  Diagram.record_plainInput rfl rfl rfl

theorem record_sum : measured.record .zeroOrder 1 = ⟨[], .ok (block 1)⟩ := by
  have hsum : BlockKind.of (measured.block 1) = .primitive := by cbv
  have hout : measured.outputWidth 1 = .ok 1 := by cbv
  have hequations : measured.equations 1 = .ok (block 1).system := by
    simp only [Diagram.equations, expression_sum, inputWidths_sum, hout, bind, Except.bind]
    rfl
  simp only [Diagram.record, hsum, Diagram.primitiveRecord, hequations]
  rfl

theorem record_cost : measured.record .zeroOrder 2 = ⟨[], .ok (block 2)⟩ := by cbv

def found (count : Nat) : Search ℚ where
  blocks := ⟨([2, 1, 0].map block).take (count + 1)⟩
  wires := match count with
    | 0 => {}
    | 1 => ⟨[{ block := 1, port := out 1 1, sub := 0, net := 0 },
        { block := 1, port := out 1 1, sub := 1, net := 1 }], [(out 1 1, 0), (out 1 2, 2)]⟩
    | _ => ⟨[{ block := 1, port := out 1 1, sub := 0, net := 0 },
        { block := 1, port := out 1 1, sub := 1, net := 1 },
        { block := 2, port := out 0 1, sub := 0, net := 2 }],
        [(out 1 1, 0), (out 1 2, 2), (out 0 1, 2)]⟩

theorem search_measured : (Search.ofDiagram measured .zeroOrder).Quiet (found 2) := by
  have hsinks : Search.sinks measured = [2] := by cbv
  have hstart : (Search.start measured .zeroOrder [2] {} ⟨measured.allOutports, []⟩).Quiet
      (⟨[block 2]⟩, ⟨[out 0 1, out 1 2, out 2 1], [out 1 1]⟩) :=
    Noted.quiet_bind.mpr ⟨_, record_cost, rfl⟩
  have hsum : ((found 0).visit measured .zeroOrder (out 1 1)).Quiet
      ⟨found 1, [out 1 1, out 1 2], [out 0 1, out 0 1]⟩ :=
    Search.quiet_visit rfl record_sum rfl
  have hinput : ((found 1).visit measured .zeroOrder (out 0 1)).Quiet ⟨found 2, [out 0 1], []⟩ :=
    Search.quiet_visit rfl record_input rfl
  refine Search.quiet_ofDiagram hsinks hstart ?_
  refine Search.quiet_run_cons (g := ⟨[out 2 1], [out 0 1]⟩) hsum rfl ?_
  refine Search.quiet_run_cons (g := ⟨[out 2 1], []⟩) hinput rfl ?_
  exact Search.run_nil

def traced : Network ℚ where
  diagram := measured
  blocks := ⟨[{ block 2 with inputs := [0, 1] }, { block 1 with inputs := [2, 2], outputs := [0, 1] },
    { block 0 with outputs := [2] }]⟩
  wires := {
    wires := [
      { block := 1, port := out 1 1, sub := 0, net := 0
        cost := .constant (0 + 1), rawCost := .constant (0 + 1) },
      { block := 1, port := out 1 1, sub := 1, net := 1
        cost := .constant (0 + 1), rawCost := .constant (0 + 1) },
      { block := 2, port := out 0 1, sub := 0, net := 2, input := true }]
    firsts := [(out 1 1, 0), (out 1 2, 2), (out 0 1, 2)] }

theorem result_diagram : (diagram.trace .zeroOrder).result = .ok traced := by
  rw [Diagram.trace, prepared_diagram, Network.traceMeasured, search_measured]
  rfl

theorem sourced_diagram : diagram.Sourced := by
  have hsinks : Search.sinks diagram = [2] := by cbv
  unfold Diagram.Sourced
  rw [hsinks]
  decide

theorem not_carries (p : Port) (taps : List Diagram.Tap) : ¬ traced.Carries p taps :=
  (Network.coherent_traceMeasured sourced_diagram.prepared result_diagram).not_carries (by decide) p taps

end Overhang

namespace Network

variable {d : Diagram} {hold : Hold} {n : Network α}

/-- The network that a trace returns has been checked. -/
theorem result_check (h : (traceMeasured d hold : Noted α (Network α)).result = .ok n) :
    n.check.result = .ok () := by
  unfold traceMeasured at h
  obtain ⟨_, _, h⟩ := Noted.result_bind.mp h
  obtain ⟨_, _, h⟩ := Noted.result_bind.mp h
  obtain ⟨bounded, _, h⟩ := Noted.result_bind.mp h
  obtain ⟨_, hcheck, h⟩ := Noted.result_bind.mp h
  cases h
  exact hcheck

/-- In a diagram whose lines end at sinks, blocks that reroute nothing get exactly the wires of the
scalars of their ports. At every point of the nets, the equations of all blocks together leave what each
block that constrains its wires leaves at their values, and the check of the network finds every other
block with equations. Where rerouting outports are as wide as they carry scalars and no other outport
has a negative width, it finds nothing but sinks with outports of their own, and there is no such
block. -/
theorem constraints_kept (hd : d.Sourced) (hn : (d.trace hold : Noted α (Network α)).result = .ok n)
    (hroutes : ∀ p taps, n.Carries p taps → n.diagram.portWidth p = .ok (taps.length : Int)) :
    n.diagram = d.prepared ∧ n.ScalarsKept ∧
      (∀ m, (m = n ∨ ∃ count, (Run.mergeWires n).result = .ok (count, m)) →
        ∀ x : List α, x.length = m.wires.netCount →
          (∀ b ∈ n.blocks.constraining, b.system.Regular (System.point (m.valuesAt x b))) →
          ∃ step residuals, m.stepSystem = .ok step ∧
            n.blocks.constraining.mapM (fun b => b.system.residual (m.valuesAt x b)) =
              .ok residuals ∧
            step.residual x = .ok residuals.flatten) ∧
      (∀ b ∈ n.blocks.blocks, b.system.isEmpty = false → b ∉ n.blocks.constraining →
        ∃ note ∈ n.check.notes, n.StructuralAt b note) ∧
      (n.Dimensioned → n.check.notes = n.blocks.blocks.filterMap n.sinkFinding? ∧
        n.blocks.constraining = n.blocks.blocks.filter fun b => !b.system.isEmpty) := by
  have h := coherent_traceMeasured hd.prepared hn
  have hcheck := result_check hn
  refine ⟨(traced_traceMeasured hn).1, h.scalarsKept, fun m hm x hx hr => ?_,
    fun b hb hempty hskip => ?_, fun hwide => ?_⟩
  · obtain ⟨hl, hblocks⟩ : m.Linked ∧ m.blocks = n.blocks := by
      obtain rfl | ⟨count, hm⟩ := hm
      · exact ⟨h.toLinked, rfl⟩
      · obtain ⟨hnetted, _, hblocks⟩ := netted_mergeWires hn hm
        exact ⟨hnetted.toLinked, hblocks⟩
    have hequational : m.Equational := by
      unfold Equational
      rw [hblocks]
      exact h.equational
    rw [← hblocks] at hr ⊢
    exact hequational.residual_eq hl hx hr
  · refine h.exists_note hcheck hb hempty fun hwidth => hskip ?_
    exact List.mem_filter.mpr ⟨hb, TracedBlock.constrains_iff.mpr ⟨hempty, hwidth⟩⟩
  · have hs : n.Sized := h.toLinked.sized h.toCovered h.issued hroutes hwide
    exact ⟨h.notes_check hs hcheck, h.constraining_eq hs⟩

/-- The sum of the running total, where a total of 3 before and an integral of 2 add up to 5. -/
theorem constraints_kept_total :
    RunningTotal.diagram.Sourced ∧
      (RunningTotal.diagram.trace .firstOrder : Noted ℚ _).result = .ok RunningTotal.traced ∧
      (∀ p taps, RunningTotal.traced.Carries p taps →
        RunningTotal.traced.diagram.portWidth p = .ok (taps.length : Int)) ∧
      RunningTotal.traced.Dimensioned ∧ RunningTotal.traced.check.notes = [] ∧
      ∃ step residuals, RunningTotal.network.stepSystem = .ok step ∧
        RunningTotal.traced.blocks.constraining.mapM
          (fun b => b.system.residual (RunningTotal.network.valuesAt [5, 3, 2, 7] b)) =
            .ok residuals ∧
        step.residual [5, 3, 2, 7] = .ok residuals.flatten := by
  have hd : RunningTotal.diagram.Sourced := by
    have hsinks : Search.sinks RunningTotal.diagram = [4] := by cbv
    unfold Diagram.Sourced
    rw [hsinks]
    decide
  have hn := congrArg Noted.result RunningTotal.trace_diagram
  have hroutes (p : Port) (taps : List Diagram.Tap) (h : RunningTotal.traced.Carries p taps) :
      RunningTotal.traced.diagram.portWidth p = .ok (taps.length : Int) :=
    absurd h ((coherent_traceMeasured hd.prepared hn).not_carries (by decide) p taps)
  obtain ⟨_, _, hresiduals, _, hchecked⟩ := constraints_kept hd hn hroutes
  have hwide : RunningTotal.traced.Dimensioned := by
    intro b hb _ hk p hp
    have hout : ∀ b ∈ RunningTotal.traced.blocks.blocks, b.kind.isSink = false →
        ∀ p ∈ RunningTotal.traced.diagram.outports b.source, ∃ i < 4, p = RunningTotal.out i := by
      decide
    obtain ⟨i, hi, rfl⟩ := hout b hb hk p hp
    interval_cases i <;> exact ⟨1, rfl⟩
  refine ⟨hd, hn, hroutes, hwide, (hchecked hwide).1, ?_⟩
  refine hresiduals _ (.inr ⟨4, rfl⟩) _ rfl fun b hb p hp t ht e he => ?_
  obtain rfl := List.mem_singleton.mp hb
  have hone : ∀ p ∈ (RunningTotal.block 3).system.polynomials, ∀ t ∈ p, ∀ e ∈ t.2, e.2 = 1 := by
    decide
  exact ⟨1, by rw [hone p hp t ht e he, Int.cast_one], .inr (by decide)⟩

/-- The check finds the outport of the cost. It also finds the sum, whose second outport is one scalar
less than none: the equation of the sum has a column less than there are wires, so it is left out. -/
theorem constraints_dropped :
    Overhang.diagram.Sourced ∧
      (Overhang.diagram.trace .zeroOrder : Noted ℚ _).result = .ok Overhang.traced ∧
      (∀ p taps, Overhang.traced.Carries p taps →
        Overhang.traced.diagram.portWidth p = .ok (taps.length : Int)) ∧
      Overhang.traced.check.notes = [⟨.outputCount 0 1, some "overhang/cost"⟩,
        ⟨.outputCount 2 1, some "overhang/sum"⟩] ∧
      (∃ b ∈ Overhang.traced.blocks.blocks, b.kind = .primitive ∧ b.system.isEmpty = false) ∧
      Overhang.traced.stepSystem = .ok (System.empty 3) := by
  refine ⟨Overhang.sourced_diagram, Overhang.result_diagram,
    fun p taps h => absurd h (Overhang.not_carries p taps), rfl, ?_, rfl⟩
  exact ⟨_, List.mem_cons_of_mem _ List.mem_cons_self, rfl, rfl⟩

end Network

end Transcription
