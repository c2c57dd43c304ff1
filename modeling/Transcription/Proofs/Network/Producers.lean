import Transcription.Proofs.Network.Discovery
import Transcription.Proofs.Network.Leastness
import Transcription.Proofs.Network.Routing
import Transcription.Proofs.Network.Sinks

namespace Transcription

variable {α : Type} [Scalar α]

namespace Search

variable {d : Diagram} {hold : Hold} {s : Search α} {p : Port} {v : Visit α}

def Issues (d : Diagram) (p : Port) : Prop :=
  d.reroutes p = false → p ∈ d.outports p.block ∧ p.block ∉ sinks d

structure Issued (d : Diagram) (s : Search α) : Prop where
  sinks : ∀ i ∈ sinks d, i ∈ s.blocks.blocks.map (·.source)
  ports : ∀ q, s.Registers q → Issues d q

/-- A visit registers nothing of a sink, since sinks were recorded before. -/
theorem Issued.visit (h : s.Issued d) (hv : Visited d p s v) : v.search.Issued d := by
  refine ⟨fun i hi => ?_, fun q hq => ?_⟩
  · obtain ⟨b, hb, rfl⟩ := List.mem_map.mp (h.sinks i hi)
    exact List.mem_map_of_mem (hv.known b hb)
  · rcases hv.registers q hq with hq | ⟨rfl, hr⟩ | ⟨_, hnew, hq⟩
    · exact h.ports q hq
    · exact fun hr' => absurd (hr.symm.trans hr') (by decide)
    · intro _
      rw [Diagram.mem_outports hq]
      exact ⟨hq, fun hsink => hnew (h.sinks _ hsink)⟩

theorem issued_ofDiagram (h : (ofDiagram d hold).result = .ok s) : s.Issued d := by
  unfold ofDiagram at h
  obtain ⟨⟨blocks, f⟩, hstart, hrun⟩ := Noted.result_bind.mp h
  have hsound := sound_empty.start (nodup_sinks d) (fun _ _ => List.not_mem_nil) hstart
  have hbegin : ({ blocks } : Search α).Issued d := by
    refine ⟨fun i hi => ?_, fun q hq => ?_⟩
    · obtain ⟨b, hb, rfl⟩ := (recorded_start hstart).2 i hi
      exact List.mem_map_of_mem hb
    · -- nothing is registered before the first visit
      cases hq
  obtain ⟨_, _, hissued⟩ := exists_end (P := fun _ s => s.Issued d)
    (fun _ _ h hv => h.visit hv) hsound hbegin hrun
  exact hissued

end Search

namespace WireTable

theorem lt_length_takeWhile {β : Type} {keep : β → Bool} {xs : List β} {k : Nat}
    (h : ∀ j ≤ k, ∃ x, xs[j]? = some x ∧ keep x = true) : k < (xs.takeWhile keep).length := by
  induction xs generalizing k with
  | nil =>
    obtain ⟨x, hx, _⟩ := h 0 (Nat.zero_le k)
    cases hx
  | cons x xs ih =>
    obtain ⟨y, hy, hkeep⟩ := h 0 (Nat.zero_le k)
    cases hy
    rw [List.takeWhile_cons_of_pos hkeep, List.length_cons]
    cases k with
    | zero => exact Nat.zero_lt_succ _
    | succ k => exact Nat.succ_lt_succ (ih fun j hj => h (j + 1) (Nat.succ_le_succ hj))

/-- The wires of an outport are listed with it. -/
theorem Registered.mem_portIndices {d : Diagram} {t : WireTable α} (h : t.Registered d) {i : Nat}
    {w : Wire α} (hw : t.wires[i]? = some w) : i ∈ t.portIndices w.port := by
  obtain ⟨first, width, hfirst, hwidth, hsub, rfl⟩ := h.port_of_wire i w hw
  obtain ⟨width', hwidth', hwires⟩ := h.wire_of_port w.port first hfirst
  obtain rfl := Except.ok.inj (hwidth.symm.trans hwidth')
  unfold portIndices
  rw [hfirst]
  refine List.mem_range'_1.mpr ⟨Nat.le_add_right _ _, Nat.add_lt_add_left ?_ first⟩
  refine lt_length_takeWhile fun j hj => ?_
  obtain ⟨v, hv, htap⟩ := hwires j (Nat.lt_of_le_of_lt hj hsub)
  exact ⟨v, by rw [List.getElem?_drop, hv], decide_eq_true (congrArg Prod.fst htap)⟩

end WireTable

namespace Network

variable {n : Network α}

def Issued (n : Network α) : Prop :=
  ∀ q, (n.wires.first? q).isSome = true → Search.Issues n.diagram q

/-- Tracing a diagram keeps the outports and the blocks of the search. -/
theorem exists_search_traceMeasured {d : Diagram} {hold : Hold} {n : Network α}
    (hn : (traceMeasured d hold).result = .ok n) :
    ∃ s : Search α, (Search.ofDiagram d hold).result = .ok s ∧
      (∀ q, n.wires.first? q = s.wires.first? q) ∧
      n.blocks.blocks.map (fun b => (b.source, b.kind)) =
        s.blocks.blocks.map fun b => (b.source, b.kind) := by
  obtain ⟨search, wired, hsearch, hwired, _, hblocks, hsignal⟩ := exists_wired hn
  obtain ⟨_, _, hlinks⟩ := linked_ofSearch hwired (Search.sound_ofDiagram hsearch)
  refine ⟨search, hsearch, fun q => by rw [hsignal.first?_eq, ← hlinks.first?_eq], ?_⟩
  rw [hblocks]
  exact recorded_ofSearch hwired

/-- Tracing a diagram registers no outport of a sink. -/
theorem issued_traceMeasured {d : Diagram} {hold : Hold} {n : Network α}
    (hn : (traceMeasured d hold).result = .ok n) : n.Issued := by
  obtain ⟨search, hsearch, hfirst, _⟩ := exists_search_traceMeasured hn
  intro q hq
  rw [hfirst] at hq
  rw [(traced_traceMeasured hn).1]
  exact (Search.issued_ofDiagram hsearch).ports q hq

/-- Merging wires into nets registers no outport. -/
theorem first?_mergeWires {n m : Network α} {count : Nat}
    (hm : (Run.mergeWires n).result = .ok (count, m)) : m.wires.first? = n.wires.first? := by
  obtain ⟨⟨_, wires⟩, hw, hm⟩ := Noted.result_bind.mp hm
  cases hm
  exact (WireTable.merged_of_canonicalize hw).agree.first?_eq

/-- Tracing a diagram and merging wires into nets registers no outport of a sink. -/
theorem issued_mergeWires {d : Diagram} {hold : Hold} {n m : Network α} {count : Nat}
    (hn : (traceMeasured d hold).result = .ok n) (hm : (Run.mergeWires n).result = .ok (count, m)) :
    m.Issued := by
  obtain ⟨_, hdiagram, _⟩ := netted_mergeWires hn hm
  intro q hq
  rw [first?_mergeWires hm] at hq
  rw [hdiagram, ← (traced_traceMeasured hn).1]
  exact issued_traceMeasured hn q hq

/-- Tracing a diagram and merging wires into nets makes wires of outports only. -/
theorem outward_mergeWires {d : Diagram} {hold : Hold} {n m : Network α} {count : Nat}
    (hn : (traceMeasured d hold).result = .ok n) (hm : (Run.mergeWires n).result = .ok (count, m))
    {q : Port} (hq : (m.wires.first? q).isSome = true) : q.side = .outport := by
  obtain ⟨search, hsearch, hfirst, _⟩ := exists_search_traceMeasured hn
  rw [first?_mergeWires hm, hfirst] at hq
  exact Diagram.side_of_mem (Search.within_ofDiagram hsearch hq).1

/-- Sinks have no outputs, since none of their outports is registered. -/
theorem Linked.sinksEnd (h : n.Linked) (hi : n.Issued) : n.SinksEnd := by
  intro k b hb hk
  rw [h.outputs k b hb, List.eq_nil_iff_forall_not_mem]
  intro i hmem
  obtain ⟨p, hp, hi'⟩ := List.mem_flatMap.mp hmem
  obtain ⟨w, hw, rfl⟩ := WireTable.mem_portIndices hi'
  obtain ⟨first, _, hfirst, _⟩ := h.registered.port_of_wire i w hw
  have hblock := Diagram.mem_outports hp
  have hkind := h.kinds k b hb
  have hreroutes : n.diagram.reroutes w.port = false := by
    rw [Diagram.reroutes, hblock, ← hkind]
    revert hk
    cases b.kind <;> decide
  apply (hi w.port (Option.isSome_of_eq_some hfirst) hreroutes).2
  rw [hblock]
  exact Diagram.mem_sinks_iff.mpr (hkind ▸ hk)

/-- A wire of a block that reroutes nothing is one of its outputs. -/
theorem Linked.mem_outputs (h : n.Linked) (hi : n.Issued) {i : Nat} {w : Wire α} {b : TracedBlock α}
    (hw : n.wires.wires[i]? = some w) (hb : n.block? w.block = some b)
    (hr : b.kind.isReroute = false) : i ∈ b.outputs := by
  obtain ⟨first, _, hfirst, _⟩ := h.registered.port_of_wire i w hw
  obtain ⟨c, hc, hsource⟩ := h.owner i w hw
  obtain rfl := Option.some.inj (hb.symm.trans hc)
  have hport := (hi w.port (Option.isSome_of_eq_some hfirst) ((h.reroutes_eq hw hb).trans hr)).1
  rw [h.outputs _ b hb, hsource]
  exact List.mem_flatMap.mpr ⟨w.port, hport, h.registered.mem_portIndices hw⟩

def leaving (n : Network α) (kinds : List BlockKind) : List Nat :=
  (n.blocks.blocks.filter fun b => kinds.contains b.kind).flatMap fun b => b.outputs.map n.wires.netOf

theorem mem_leaving {kinds : List BlockKind} {net : Nat} : net ∈ n.leaving kinds ↔
    ∃ k b o, n.block? k = some b ∧ b.kind ∈ kinds ∧ o ∈ b.outputs ∧ n.wires.netOf o = net := by
  simp only [leaving, List.mem_flatMap, List.mem_filter, List.mem_map, List.contains_iff_mem]
  constructor
  · rintro ⟨b, ⟨hb, hk⟩, o, ho, hnet⟩
    obtain ⟨k, hget⟩ := List.mem_iff_getElem?.mp hb
    exact ⟨k, b, o, hget, hk, ho, hnet⟩
  · rintro ⟨k, b, o, hget, hk, ho, hnet⟩
    exact ⟨b, ⟨List.mem_of_getElem? hget, hk⟩, o, ho, hnet⟩

def heldKinds : List BlockKind := [.input, .external, .delay]

section Single

variable (h : n.Linked) (hs : n.SingleSourced)

include h hs

/-- A net leaves blocks of one kind only. -/
theorem Linked.kind_unique {net : Nat} {kinds kinds' : List BlockKind}
    (hk : ∀ k ∈ kinds, k.isReroute = false) (hk' : ∀ k ∈ kinds', k.isReroute = false)
    (hnet : net ∈ n.leaving kinds) (hnet' : net ∈ n.leaving kinds') : ∃ k ∈ kinds, k ∈ kinds' := by
  obtain ⟨j, b, o, hb, hbk, ho, rfl⟩ := mem_leaving.mp hnet
  obtain ⟨l, c, i, hc, hck, hi, heq⟩ := mem_leaving.mp hnet'
  obtain ⟨_, rfl⟩ := h.output_unique hs hb hc (hk _ hbk) (hk' _ hck) ho hi heq.symm
  obtain rfl := Option.some.inj (hb.symm.trans hc)
  exact ⟨b.kind, hbk, hck⟩

/-- No net leaves a block twice, or two blocks. -/
theorem Linked.nodup_leaving {kinds : List BlockKind} (hk : ∀ k ∈ kinds, k.isReroute = false) :
    (n.leaving kinds).Nodup := by
  have hsources : (n.blocks.blocks.filter fun b => kinds.contains b.kind).Pairwise
      fun b c => b.source ≠ c.source :=
    (List.pairwise_map.mp h.sources).filter _
  have hplace (b : TracedBlock α) (hb : b ∈ n.blocks.blocks.filter fun b => kinds.contains b.kind) :
      ∃ k, n.block? k = some b ∧ b.kind.isReroute = false := by
    obtain ⟨hmem, hkind⟩ := List.mem_filter.mp hb
    obtain ⟨k, hget⟩ := List.mem_iff_getElem?.mp hmem
    exact ⟨k, hget, hk _ (List.contains_iff_mem.mp hkind)⟩
  refine List.nodup_flatMap.mpr ⟨fun b hb => ?_, ?_⟩
  · obtain ⟨k, hget, hr⟩ := hplace b hb
    refine List.Nodup.map_on (fun i hi j hj hnet => ?_) (h.nodup k b hget)
    exact (h.output_unique hs hget hget hr hr hi hj hnet).1
  · refine hsources.imp_of_mem fun {b c} hb hc hne => ?_
    obtain ⟨k, hbk, hbr⟩ := hplace b hb
    obtain ⟨l, hcl, hcr⟩ := hplace c hc
    intro net hnet hnet'
    obtain ⟨i, hi, rfl⟩ := List.mem_map.mp hnet
    obtain ⟨j, hj, heq⟩ := List.mem_map.mp hnet'
    obtain ⟨_, rfl⟩ := h.output_unique hs hbk hcl hbr hcr hi hj heq.symm
    exact hne (congrArg _ (Option.some.inj (hbk.symm.trans hcl)))

end Single

/-- A net with a source leaves a primitive, an integrator or a block that holds it. -/
theorem Linked.leaves (h : n.Linked) (hi : n.Issued) {net i : Nat} (hsource : n.Sources net i) :
    net ∈ n.leaving [.primitive] ∨ net ∈ n.leaving [.integrator] ∨ net ∈ n.leaving heldKinds := by
  obtain ⟨w, b, hw, hnet, hb, hr⟩ := hsource
  have ho := h.mem_outputs hi hw hb hr
  have hend : b.kind.isSink = false := by
    rw [Bool.eq_false_iff]
    intro hsink
    rw [h.sinksEnd hi w.block b hb hsink] at ho
    cases ho
  have hleaves (kinds : List BlockKind) (hk : b.kind ∈ kinds) : net ∈ n.leaving kinds :=
    mem_leaving.mpr ⟨w.block, b, i, hb, hk, ho, (WireTable.netOf_eq hw).trans hnet⟩
  cases hkind : b.kind <;> rw [hkind] at hr hend
  case primitive => exact .inl (hleaves _ (by simp [hkind]))
  case integrator => exact .inr (.inl (hleaves _ (by simp [hkind])))
  case input | external | delay => exact .inr (.inr (hleaves _ (by simp [hkind, heldKinds])))
  case bound | cost => cases hend
  all_goals cases hr

end Network

end Transcription
