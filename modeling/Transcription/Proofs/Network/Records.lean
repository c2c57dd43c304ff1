import Transcription.Proofs.Network.Sinks

namespace Transcription

variable {α : Type} [Scalar α]

namespace Network

theorem wireBlock_agree {d : Diagram} {t u : WireTable α} (h : t.Agree Wire.port u) :
    wireBlock d u = wireBlock d t := by
  funext b
  rw [wireBlock, wireBlock, h.portIndices_eq, inputWires_agree h]

/-- A block changes in its wires only. Those that lead in are the wires of what drives it, unless it
reroutes signals or has its values from outside. -/
theorem wireBlock_eq_ok {d : Diagram} {t : WireTable α} {b c : TracedBlock α}
    (h : wireBlock d t b = .ok c) : ∃ inputs,
      c = { b with outputs := (d.outports b.source).flatMap t.portIndices, inputs } ∧
      (b.kind.isReroute = false → b.kind.isBoundary = false →
        inputWires d t b.source = .ok inputs) := by
  unfold wireBlock at h
  simp only at h
  split at h
  · rename_i hnone
    cases h
    refine ⟨[], rfl, fun hr hb => ?_⟩
    rw [hr, hb] at hnone
    cases hnone
  · obtain ⟨inputs, hi, h⟩ := except_bind_eq_ok.mp h
    cases h
    exact ⟨inputs, rfl, fun _ _ => hi⟩

def OfRecords (n : Network α) : Prop :=
  ∀ k b, n.block? k = some b → ∃ hold c, (n.diagram.record hold b.source).result = .ok c ∧
    wireBlock n.diagram n.wires c = .ok b

theorem ofRecords_ofSearch {d : Diagram} {s : Search α} {n : Network α} (hs : s.Sound d)
    (h : ofSearch d s = .ok n) : n.OfRecords := by
  obtain ⟨rfl, _, hblocks⟩ := ofSearch_eq_ok h
  intro k b hb
  obtain ⟨c, hc, hwire⟩ := except_mapM_getElem? hblocks hb
  obtain ⟨hold, hrecord⟩ := hs.recorded c (List.mem_of_getElem? hc)
  refine ⟨hold, c, ?_, hwire⟩
  rw [(wires_wireBlock hwire).source_eq]
  exact hrecord

/-- Marks, bounds, costs and nets change nothing of it. -/
theorem OfRecords.agree {n m : Network α} (h : n.OfRecords) (hd : m.diagram = n.diagram)
    (hb : m.blocks = n.blocks) (hw : n.wires.Agree Wire.signal m.wires) : m.OfRecords := by
  obtain ⟨diagram, blocks, wires⟩ := m
  cases hd
  cases hb
  intro k b hk
  obtain ⟨hold, c, hrecord, hwire⟩ := h k b hk
  refine ⟨hold, c, hrecord, ?_⟩
  rw [wireBlock_agree (hw.comp fun v => v.2.1.1)]
  exact hwire

theorem ofRecords_traceMeasured {d : Diagram} {hold : Hold} {n : Network α}
    (h : (traceMeasured d hold).result = .ok n) : n.OfRecords := by
  obtain ⟨search, wired, hsearch, hwired, hdiagram, hblocks, hsignal⟩ := exists_wired h
  exact (ofRecords_ofSearch (Search.sound_ofDiagram hsearch) hwired).agree hdiagram hblocks hsignal

theorem ofRecords_mergeWires {d : Diagram} {hold : Hold} {n m : Network α} {count : Nat}
    (hn : (traceMeasured d hold).result = .ok n) (hm : (Run.mergeWires n).result = .ok (count, m)) :
    m.OfRecords := by
  obtain ⟨⟨_, wires⟩, hw, hm⟩ := Noted.result_bind.mp hm
  cases hm
  exact (ofRecords_traceMeasured hn).agree rfl rfl (WireTable.merged_of_canonicalize hw).agree

/-- Only primitives have equations. -/
theorem OfRecords.system_eq {n : Network α} (h : n.OfRecords) {k : Nat} {b : TracedBlock α}
    (hb : n.block? k = some b) (hk : b.kind ≠ .primitive) : b.system = .empty 0 := by
  obtain ⟨hold, c, hrecord, hwire⟩ := h k b hb
  have hwires := wires_wireBlock hwire
  rw [hwires.system_eq]
  exact Diagram.record_system hrecord (hwires.kind_eq ▸ hk)

/-- The wires that lead into a block are those of what drives it. -/
theorem OfRecords.inputs_eq {n : Network α} (h : n.OfRecords) {k : Nat} {b : TracedBlock α}
    (hb : n.block? k = some b) (hr : b.kind.isReroute = false) (hk : b.kind.isBoundary = false) :
    ∃ ps, n.diagram.drivers b.source = .ok ps ∧ b.inputs = ps.flatMap n.wires.portIndices := by
  obtain ⟨hold, c, _, hwire⟩ := h k b hb
  obtain ⟨inputs, rfl, hinputs⟩ := wireBlock_eq_ok hwire
  obtain ⟨ps, hps, hflat⟩ := except_bind_eq_ok.mp (hinputs hr hk)
  exact ⟨ps, hps, (except_pure_eq_ok.mp hflat).symm⟩

/-- The windows of an input from outside are those that its parameter asks for. -/
theorem OfRecords.period_eq {n : Network α} (h : n.OfRecords) {k : Nat} {b : TracedBlock α}
    (hb : n.block? k = some b) (hk : b.kind.isBoundary = true) :
    Period.ofValue (n.diagram.param b.source "move_blocking_info" .none) =
      .ok (b.period, b.offset) := by
  obtain ⟨hold, c, hrecord, hwire⟩ := h k b hb
  obtain ⟨_, rfl, _⟩ := wireBlock_eq_ok hwire
  exact Diagram.record_period (b := c) hrecord hk

end Network

end Transcription
