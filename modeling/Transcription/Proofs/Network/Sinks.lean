import Transcription.Proofs.Network.Wiring

namespace Transcription

variable {α : Type} [Scalar α]

theorem reference_isOneOf {reference : Option String} {r : String} :
    (reference.map [r].contains).getD false = true ↔ reference = some r := by
  cases reference <;> simp

namespace BlockKind

theorem of_eq_bound {b : Diagram.Block} :
    of b = .bound ↔ b.reference = some Diagram.boundReference := by
  unfold of
  simp only [reference_isOneOf]
  constructor
  · intro h
    split at h
    · assumption
    · repeat' split at h
      all_goals cases h
  · intro h
    rw [if_pos h]

theorem of_eq_cost {b : Diagram.Block} :
    of b = .cost ↔ b.reference = some Diagram.costReference := by
  unfold of
  simp only [reference_isOneOf]
  constructor
  · intro h
    split at h
    · cases h
    · split at h
      · assumption
      · repeat' split at h
        all_goals cases h
  · intro h
    have hne : ¬ b.reference = some Diagram.boundReference := by
      rw [h]
      simp [Diagram.boundReference, Diagram.costReference]
    rw [if_neg hne, if_pos h]

end BlockKind

namespace Diagram

variable {d : Diagram} {i : Nat}

theorem mem_ofReference {reference : String} :
    i ∈ d.ofReference reference ↔ (d.block i).reference = some reference := by
  have hmem : i ∈ d.ofReference reference ↔
      i < d.blocks.size ∧ (d.block i).reference = some reference := by
    simp [ofReference, find, reference_isOneOf]
  refine hmem.trans (and_iff_right_of_imp fun h => ?_)
  -- a place without a block reads as a block without a reference
  by_contra hlt
  have hnone : (d.block i).reference = none := by
    rw [block, Array.getD, dif_neg hlt]
    rfl
  rw [hnone] at h
  cases h

def sinkReference : BlockKind → Option String
  | .bound => some boundReference
  | .cost => some costReference
  | _ => none

theorem kind_eq_sink {kind : BlockKind} {reference : String} (h : sinkReference kind = some reference) :
    BlockKind.of (d.block i) = kind ↔ i ∈ d.ofReference reference := by
  rw [mem_ofReference]
  cases kind <;> cases h
  · exact BlockKind.of_eq_bound
  · exact BlockKind.of_eq_cost

theorem mem_sinks {kind : BlockKind} {reference : String} (h : sinkReference kind = some reference)
    (hi : i ∈ d.ofReference reference) : i ∈ Search.sinks d := by
  cases kind <;> cases h
  · exact List.mem_append_left _ hi
  · exact List.mem_append_right _ hi

theorem mem_sinks_iff : i ∈ Search.sinks d ↔ (BlockKind.of (d.block i)).isSink = true := by
  constructor
  · intro h
    rcases List.mem_append.mp h with h | h
    · rw [BlockKind.of_eq_bound.mpr (mem_ofReference.mp h)]
      rfl
    · rw [BlockKind.of_eq_cost.mpr (mem_ofReference.mp h)]
      rfl
  · intro h
    obtain ⟨r, hr⟩ : ∃ r, sinkReference (BlockKind.of (d.block i)) = some r := by
      revert h
      cases BlockKind.of (d.block i) <;> simp [BlockKind.isSink, sinkReference]
    exact mem_sinks hr ((kind_eq_sink hr).mp rfl)

end Diagram

namespace Search

variable {d : Diagram} {hold : Hold} {s : Search α}

theorem mem_visit {p : Port} {v : Visit α} (hv : (s.visit d hold p).result = .ok v)
    {b : TracedBlock α} (hb : b ∈ s.blocks.blocks) : b ∈ v.search.blocks.blocks := by
  unfold Search.visit at hv
  split at hv
  · split at hv
    · rw [blocks_visitReroute hv]
      exact hb
    · cases hv
      exact hb
  · obtain ⟨c, _, hv⟩ := Noted.result_bind.mp hv
    simp only at hv
    split at hv
    · rw [blocks_visitReroute hv]
      exact List.mem_append_left _ hb
    · rw [blocks_visitBlock hv]
      exact List.mem_append_left _ hb

theorem mem_run {f : Frontier Port} {s' : Search α} (h : (Search.run d hold f s).result = .ok s')
    {b : TracedBlock α} (hb : b ∈ s.blocks.blocks) : b ∈ s'.blocks.blocks :=
  run_keeps (P := fun s => b ∈ s.blocks.blocks) (fun hb hv => mem_visit hv hb) hb h

theorem recorded_start {is : List Nat} {t : BlockTable α} {f : Frontier Port}
    {r : BlockTable α × Frontier Port} (h : (Search.start d hold is t f).result = .ok r) :
    (∀ b ∈ t.blocks, b ∈ r.1.blocks) ∧ ∀ i ∈ is, ∃ b ∈ r.1.blocks, b.source = i := by
  induction is generalizing t f with
  | nil =>
    cases h
    exact ⟨fun _ hb => hb, List.forall_mem_nil _⟩
  | cons i is ih =>
    obtain ⟨b, hb, h⟩ := Noted.result_bind.mp h
    obtain ⟨_, _, h⟩ := Noted.result_bind.mp h
    obtain ⟨hkept, his⟩ := ih h
    refine ⟨fun c hc => hkept c (List.mem_append_left _ hc), List.forall_mem_cons.mpr ⟨?_, his⟩⟩
    exact ⟨b, hkept b (List.mem_append_right _ (List.mem_singleton.mpr rfl)), (Diagram.record_eq hb).1⟩

/-- Every sink is recorded. -/
theorem recorded_sinks (h : (ofDiagram d hold).result = .ok s) {i : Nat} (hi : i ∈ sinks d) :
    ∃ b ∈ s.blocks.blocks, b.source = i := by
  unfold ofDiagram at h
  obtain ⟨⟨blocks, f⟩, hstart, hrun⟩ := Noted.result_bind.mp h
  obtain ⟨b, hb, hsource⟩ := (recorded_start hstart).2 i hi
  exact ⟨b, mem_run hrun hb, hsource⟩

end Search

namespace Network

structure SinksTraced (n : Network α) : Prop where
  found : ∀ i ∈ Search.sinks n.diagram, ∃ k b, n.block? k = some b ∧ b.source = i
  phases : ∀ k b, n.block? k = some b → b.kind.isSink = true →
    n.diagram.sinkPhases b.source = .ok b.sinkPhases
  inputs : ∀ k b, n.block? k = some b → b.kind.isSink = true →
    inputWires n.diagram n.wires b.source = .ok b.inputs

theorem inputWires_agree {d : Diagram} {t u : WireTable α} (h : t.Agree Wire.port u) :
    inputWires d u = inputWires d t := by
  funext i
  rw [inputWires, inputWires, h.portIndices_eq]

theorem inputs_wireBlock {d : Diagram} {t : WireTable α} {b c : TracedBlock α}
    (h : wireBlock d t b = .ok c) (hk : b.kind.isSink = true) :
    inputWires d t b.source = .ok c.inputs := by
  unfold wireBlock at h
  have hnone : (b.kind.isReroute || b.kind.isBoundary) = false := by
    revert hk
    cases b.kind <;> decide
  simp only [hnone] at h
  obtain ⟨inputs, hi, h⟩ := except_bind_eq_ok.mp h
  cases h
  exact hi

theorem sinksTraced_ofSearch {d : Diagram} {hold : Hold} {s : Search α} {n : Network α}
    (hs : (Search.ofDiagram d hold).result = .ok s) (h : ofSearch d s = .ok n) : n.SinksTraced := by
  have hsound := Search.sound_ofDiagram hs
  obtain ⟨rfl, _, hblocks⟩ := ofSearch_eq_ok h
  constructor
  · intro i hi
    obtain ⟨b, hb, rfl⟩ := Search.recorded_sinks hs hi
    obtain ⟨c, hc, hwire⟩ := except_mapM_of_mem hblocks hb
    obtain ⟨k, hk⟩ := List.mem_iff_getElem?.mp hc
    exact ⟨k, c, hk, (wires_wireBlock hwire).source_eq⟩
  · intro k c hc hkind
    obtain ⟨b, hb, hw⟩ := exists_wires_block? h hc
    obtain ⟨_, hrecord⟩ := hsound.recorded b (List.mem_of_getElem? hb)
    rw [hw.source_eq, hw.sinkPhases_eq]
    exact Diagram.record_sinkPhases hrecord (hw.kind_eq ▸ hkind)
  · intro k c hc hkind
    obtain ⟨b, _, hwire⟩ := except_mapM_getElem? hblocks hc
    have hw := wires_wireBlock hwire
    rw [hw.source_eq]
    exact inputs_wireBlock hwire (hw.kind_eq ▸ hkind)

/-- Marks, bounds, costs and nets change nothing of it. -/
theorem SinksTraced.agree {n m : Network α} (h : n.SinksTraced) (hd : m.diagram = n.diagram)
    (hb : m.blocks = n.blocks) (hw : n.wires.Agree Wire.signal m.wires) : m.SinksTraced := by
  obtain ⟨diagram, blocks, wires⟩ := m
  cases hd
  cases hb
  refine ⟨h.found, h.phases, fun k b hk hkind => ?_⟩
  rw [inputWires_agree (hw.comp fun v => v.2.1.1)]
  exact h.inputs k b hk hkind

/-- Tracing a diagram finds all of its sinks, and merging wires into nets loses none. -/
theorem sinksTraced_mergeWires {d : Diagram} {hold : Hold} {n m : Network α} {count : Nat}
    (hn : (traceMeasured d hold).result = .ok n) (hm : (Run.mergeWires n).result = .ok (count, m)) :
    m.SinksTraced := by
  obtain ⟨search, wired, hsearch, hwired, hdiagram, hblocks, hsignal⟩ := exists_wired hn
  obtain ⟨⟨_, wires⟩, hw, hm⟩ := Noted.result_bind.mp hm
  cases hm
  exact (sinksTraced_ofSearch hsearch hwired).agree hdiagram hblocks
    (hsignal.trans (WireTable.merged_of_canonicalize hw).agree)

/-- The blocks of a kind in a network are those of a reference in its diagram, one each. They have the
phases in which they are switched on, and the wires of what drives them. -/
structure Represents (n : Network α) (kind : BlockKind) (reference : String) : Prop where
  sources : ∀ i, i ∈ n.diagram.ofReference reference ↔
    ∃ k b, n.block? k = some b ∧ b.kind = kind ∧ b.source = i
  once : ∀ j k b c, n.block? j = some b → n.block? k = some c → b.source = c.source → j = k
  phases : ∀ k b, n.block? k = some b → b.kind = kind →
    n.diagram.sinkPhases b.source = .ok b.sinkPhases
  inputs : ∀ k b, n.block? k = some b → b.kind = kind →
    inputWires n.diagram n.wires b.source = .ok b.inputs

theorem SinksTraced.represents {n : Network α} (h : n.SinksTraced) (hl : n.Linked) {kind : BlockKind}
    {reference : String} (hr : Diagram.sinkReference kind = some reference) :
    n.Represents kind reference := by
  have hsink : kind.isSink = true := by cases kind <;> cases hr <;> rfl
  refine ⟨fun i => ⟨fun hi => ?_, ?_⟩, fun j k b c hb hc => hl.source_inj hb hc, ?_, ?_⟩
  · obtain ⟨k, b, hb, hsource⟩ := h.found i (Diagram.mem_sinks hr hi)
    refine ⟨k, b, hb, ?_, hsource⟩
    rw [hl.kinds k b hb, hsource]
    exact (Diagram.kind_eq_sink hr).mpr hi
  · rintro ⟨k, b, hb, hkind, rfl⟩
    apply (Diagram.kind_eq_sink hr).mp
    rw [← hl.kinds k b hb, hkind]
  · intro k b hb hkind
    exact h.phases k b hb (hkind ▸ hsink)
  · intro k b hb hkind
    exact h.inputs k b hb (hkind ▸ hsink)

end Network

end Transcription
