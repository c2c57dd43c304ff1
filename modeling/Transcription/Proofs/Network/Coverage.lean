import Transcription.Proofs.Network.Lowering
import Transcription.Proofs.Network.Producers
import Transcription.Proofs.Network.Records
import Transcription.Proofs.Network.Splitting

namespace Transcription

variable {α : Type} [Scalar α]

def Diagram.ownTaps (d : Diagram) (p : Port) : Except Fault (List Diagram.Tap) := do
  return taps p 0 (← d.portWidth p)

theorem Diagram.length_ownTaps {d : Diagram} {p : Port} {w : Nat} {ts : List Diagram.Tap}
    (hw : d.portWidth p = .ok (w : Int)) (h : d.ownTaps p = .ok ts) : ts.length = w := by
  rw [ownTaps, hw] at h
  cases h
  exact length_taps p 0 w

/-- Lines leave the same outports once dimensions are worked out. -/
theorem Diagram.Sourced.prepared {d : Diagram} (h : d.Sourced) : d.prepared.Sourced := by
  obtain ⟨compiled, heq⟩ := d.exists_prepared
  rw [heq]
  exact h

namespace WireTable

variable {d : Diagram} {t : WireTable α}

/-- No scalar has two wires. -/
theorem Registered.nodup_taps (h : t.Registered d) : (t.wires.map Wire.tap).Nodup := by
  refine List.nodup_iff_getElem?_ne_getElem?.mpr fun i j hij hj heq => ?_
  obtain ⟨hj, _⟩ := List.getElem?_eq_some_iff.mp (List.getElem?_eq_getElem hj)
  rw [List.length_map] at hj
  have hi : i < t.wires.length := hij.trans hj
  rw [List.getElem?_map, List.getElem?_map, List.getElem?_eq_getElem hi,
    List.getElem?_eq_getElem hj] at heq
  exact hij.ne (h.tap_inj (List.getElem?_eq_getElem hi) (List.getElem?_eq_getElem hj)
    (Option.some.inj heq))

/-- An outport that is registered has its wires in one run, as many as it is wide. -/
theorem Registered.portIndices_eq (h : t.Registered d) {p : Port} {first : Nat}
    (hp : t.first? p = some first) {width : Int} (hwidth : d.portWidth p = .ok width) :
    t.portIndices p = List.range' first width.toNat := by
  obtain ⟨count, hcount⟩ : ∃ count, t.portIndices p = List.range' first count := by
    rw [portIndices, hp]
    exact ⟨_, rfl⟩
  obtain ⟨width', hwidth', hwires⟩ := h.wire_of_port p first hp
  obtain rfl := Except.ok.inj (hwidth'.symm.trans hwidth)
  rw [hcount]
  congr 1
  refine le_antisymm (Nat.le_of_not_lt fun hlt => ?_) (Nat.le_of_not_lt fun hlt => ?_)
  · have hmem : first + width'.toNat ∈ t.portIndices p := by
      rw [hcount]
      exact List.mem_range'_1.mpr ⟨Nat.le_add_right _ _, Nat.add_lt_add_left hlt first⟩
    obtain ⟨w, hw, rfl⟩ := WireTable.mem_portIndices hmem
    obtain ⟨first', width, hfirst, hwidth, hsub, heq⟩ := h.port_of_wire _ w hw
    cases hfirst.symm.trans hp
    cases hwidth.symm.trans hwidth'
    omega
  · obtain ⟨w, hw, htap⟩ := hwires count hlt
    have hmem := h.mem_portIndices hw
    rw [show w.port = p from congrArg Prod.fst htap, hcount] at hmem
    have := (List.mem_range'_1.mp hmem).2
    omega

end WireTable

namespace Network

variable {d : Diagram} {hold : Hold} {n : Network α}

theorem Linked.wires_of_port (h : n.Linked) {p : Port} (hp : (n.wires.first? p).isSome = true) :
    ∃ ts, n.diagram.ownTaps p = .ok ts ∧ List.Forall₂ n.WireOf ts (n.wires.portIndices p) := by
  obtain ⟨first, hfirst⟩ := Option.isSome_iff_exists.mp hp
  obtain ⟨width, hwidth, hwires⟩ := h.registered.wire_of_port p first hfirst
  refine ⟨Diagram.taps p 0 width, ?_, ?_⟩
  · rw [Diagram.ownTaps, hwidth]
    rfl
  · rw [h.registered.portIndices_eq hfirst hwidth]
    refine forall₂_of_getElem? (by rw [Diagram.length_taps, List.length_range']) ?_
    intro i s k hs hk
    obtain ⟨hlt, hk⟩ := List.getElem?_eq_some_iff.mp hk
    rw [List.length_range'] at hlt
    obtain ⟨w, hw, htap⟩ := hwires i hlt
    refine ⟨w, ?_, ?_⟩
    · rw [← hk, List.getElem_range', Nat.one_mul]
      exact hw
    · obtain ⟨_, hs⟩ := List.getElem?_eq_some_iff.mp hs
      rw [htap, ← hs]
      simp [Diagram.taps]

/-- The wires of some outports carry their scalars, one after the other. -/
theorem Linked.wires_of_ports (h : n.Linked) {ps : List Port}
    (hps : ∀ p ∈ ps, (n.wires.first? p).isSome = true) :
    ∃ tss, ps.mapM n.diagram.ownTaps = .ok tss ∧
      List.Forall₂ n.WireOf tss.flatten (ps.flatMap n.wires.portIndices) := by
  induction ps with
  | nil => exact ⟨[], rfl, .nil⟩
  | cons p ps ih =>
    obtain ⟨hp, hrest⟩ := List.forall_mem_cons.mp hps
    obtain ⟨ts, hts, hwires⟩ := h.wires_of_port hp
    obtain ⟨tss, htss, hothers⟩ := ih hrest
    refine ⟨ts :: tss, except_mapM_eq_ok.mpr (.cons hts (except_mapM_eq_ok.mp htss)), ?_⟩
    rw [List.flatten_cons, List.flatMap_cons]
    exact List.rel_append hwires hothers

structure Covered (n : Network α) : Prop where
  outports : ∀ b ∈ n.blocks.blocks, b.kind.isReroute = false → b.kind.isSink = false →
    ∀ p ∈ n.diagram.outports b.source, (n.wires.first? p).isSome = true
  drivers : ∀ b ∈ n.blocks.blocks, b.kind.isReroute = false → b.kind.isBoundary = false →
    ∀ q ∈ n.diagram.inports b.source, ∃ p, n.diagram.source? q = some p ∧
      (n.wires.first? p).isSome = true
  owned : ∀ p, (n.wires.first? p).isSome = true → p ∈ n.diagram.allOutports ∧
    ∃ b ∈ n.blocks.blocks, b.source = p.block

theorem covered_traceMeasured (hd : d.Sourced) (hn : (traceMeasured d hold).result = .ok n) :
    n.Covered := by
  obtain ⟨s, hsearch, hfirst, hblocks⟩ := exists_search_traceMeasured hn
  obtain ⟨f, hq, hc⟩ := Search.covers_ofDiagram hd hsearch
  have hdiagram := (traced_traceMeasured hn).1
  have hfound {b : TracedBlock α} (hb : b ∈ n.blocks.blocks) :
      ∃ c ∈ s.blocks.blocks, c.source = b.source ∧ c.kind = b.kind := by
    have hmem : (b.source, b.kind) ∈ s.blocks.blocks.map fun b => (b.source, b.kind) :=
      hblocks ▸ List.mem_map_of_mem (f := fun b : TracedBlock α => (b.source, b.kind)) hb
    obtain ⟨c, hmem, heq⟩ := List.mem_map.mp hmem
    exact ⟨c, hmem, congrArg Prod.fst heq, congrArg Prod.snd heq⟩
  have hsources : n.blocks.blocks.map (·.source) = s.blocks.blocks.map (·.source) := by
    simpa [Function.comp_def] using congrArg (List.map Prod.fst) hblocks
  constructor
  · intro b hb hr hk p hp
    obtain ⟨c, hc', hsource, hkind⟩ := hfound hb
    have hsink : c.source ∉ Search.sinks d := by
      rw [Diagram.mem_sinks_iff, ← (Search.sound_ofDiagram hsearch).kinds c hc', hkind, hk]
      decide
    rw [hdiagram, ← hsource] at hp
    rw [hfirst]
    exact hc.whole c hc' (hkind ▸ hr) hsink p hp
  · intro b hb hr hboundary q hmem
    obtain ⟨c, hc', hsource, hkind⟩ := hfound hb
    rw [hdiagram, ← hsource] at hmem
    obtain ⟨p, hp, hasked⟩ := hc.driven c hc' (hkind ▸ hr) (hkind ▸ hboundary) q hmem
    rw [hq] at hasked
    refine ⟨p, hdiagram ▸ hp, ?_⟩
    rw [hfirst]
    exact hasked.resolve_left List.not_mem_nil
  · intro p hp
    rw [hfirst] at hp
    refine ⟨hdiagram ▸ hc.registered p hp, ?_⟩
    have howned := hc.owned p hp
    rw [← hsources] at howned
    exact List.mem_map.mp howned

theorem Linked.wires_out (h : n.Linked) (hc : n.Covered) {k : Nat} {b : TracedBlock α}
    (hb : n.block? k = some b) (hr : b.kind.isReroute = false) (hk : b.kind.isSink = false) :
    ∃ tss, (n.diagram.outports b.source).mapM n.diagram.ownTaps = .ok tss ∧
      List.Forall₂ n.WireOf tss.flatten b.outputs := by
  rw [h.outputs k b hb]
  exact h.wires_of_ports (hc.outports b (List.mem_of_getElem? hb) hr hk)

/-- What drives the inports of a block, with its scalars. -/
theorem mapM_drivenTaps {qs ps : List Port} (hps : qs.mapM d.driver = .ok ps)
    {tss : List (List Diagram.Tap)} (ht : ps.mapM d.ownTaps = .ok tss) :
    qs.mapM d.drivenTaps = .ok tss := by
  refine except_mapM_eq_ok.mpr ?_
  refine (forall₂_comp (except_mapM_eq_ok.mp hps) (except_mapM_eq_ok.mp ht)).imp ?_
  rintro q ts ⟨p, hp, hts⟩
  rw [Diagram.drivenTaps, hp]
  exact hts

theorem Linked.wires_in (h : n.Linked) (hc : n.Covered) (hrec : n.OfRecords) {k : Nat}
    {b : TracedBlock α} (hb : n.block? k = some b) (hr : b.kind.isReroute = false)
    (hk : b.kind.isBoundary = false) :
    ∃ ps tss, n.diagram.drivers b.source = .ok ps ∧ (∀ p ∈ ps, (n.wires.first? p).isSome = true) ∧
      ps.mapM n.diagram.ownTaps = .ok tss ∧ List.Forall₂ n.WireOf tss.flatten b.inputs := by
  obtain ⟨ps, hps, hinputs⟩ := hrec.inputs_eq hb hr hk
  have hall : ∀ p ∈ ps, (n.wires.first? p).isSome = true := by
    intro p hp
    obtain ⟨q, hq, hdriver⟩ := except_mapM_mem hps hp
    obtain ⟨r, hr', hfirst⟩ := hc.drivers b (List.mem_of_getElem? hb) hr hk q hq
    cases (Diagram.driver_eq_ok.mp hdriver).symm.trans hr'
    exact hfirst
  obtain ⟨tss, htss, hwires⟩ := h.wires_of_ports hall
  rw [hinputs]
  exact ⟨ps, tss, hps, hall, htss, hwires⟩

def Dimensioned (n : Network α) : Prop :=
  ∀ b ∈ n.blocks.blocks, b.kind.isReroute = false → b.kind.isSink = false →
    ∀ p ∈ n.diagram.outports b.source, ∃ w : Nat, n.diagram.portWidth p = .ok (w : Int)

def Sized (n : Network α) : Prop :=
  ∀ p, (n.wires.first? p).isSome = true → ∃ w : Nat, n.diagram.portWidth p = .ok (w : Int)

/-- Where no width is negative, and rerouting outports are as wide as they carry scalars of others,
outports are as wide as they have scalars. -/
theorem Linked.sized (h : n.Linked) (hc : n.Covered) (hi : n.Issued)
    (hroutes : ∀ p taps, n.Carries p taps → n.diagram.portWidth p = .ok (taps.length : Int))
    (hwide : n.Dimensioned) : n.Sized := by
  intro p hp
  obtain ⟨first, hfirst⟩ := Option.isSome_iff_exists.mp hp
  cases hr : n.diagram.reroutes p with
  | true =>
    obtain ⟨taps, htaps⟩ := h.routed p first hfirst hr
    exact ⟨taps.length, hroutes p taps ⟨hp, hr, htaps⟩⟩
  | false =>
    obtain ⟨hmem, hsink⟩ := hi p hp hr
    obtain ⟨_, b, hb, hsource⟩ := hc.owned p hp
    obtain ⟨k, hk⟩ := List.mem_iff_getElem?.mp hb
    have hkind := h.kinds k b hk
    rw [hsource] at hkind
    refine hwide b hb ?_ ?_ p (hsource ▸ hmem)
    · rw [hkind]
      exact hr
    · rw [hkind]
      exact Bool.eq_false_iff.mpr fun hs => hsink (Diagram.mem_sinks_iff.mpr hs)

theorem totalWidth_of_sized {ps : List Port}
    (hps : ∀ p ∈ ps, ∃ w : Nat, d.portWidth p = .ok (w : Int)) {tss : List (List Diagram.Tap)}
    (ht : ps.mapM d.ownTaps = .ok tss) : totalWidth d ps = .ok (tss.flatten.length : Int) := by
  obtain ⟨ws, hws⟩ := Diagram.mapM_portWidth ps hps
  have hlengths : tss.map List.length = ws := by
    have hboth := forall₂_comp (List.Forall₂.flip (except_mapM_eq_ok.mp ht)) (except_mapM_eq_ok.mp hws)
    rw [List.forall₂_map_right_iff] at hboth
    refine List.forall₂_eq_eq_eq.symm ▸ List.forall₂_map_left_iff.mpr (hboth.imp ?_)
    rintro ts w ⟨p, hts, hw⟩
    exact Diagram.length_ownTaps hw hts
  rw [totalWidth, hws, List.length_flatten, hlengths, ← Diagram.sumWidths_natCast]
  rfl

/-- Inports are as wide together as what drives them. -/
theorem totalWidth_drivers {qs ps : List Port} (hqs : ∀ q ∈ qs, q.side = .inport)
    (hps : ∀ p ∈ ps, p.side = .outport) (h : qs.mapM d.driver = .ok ps) :
    totalWidth d qs = totalWidth d ps := by
  have hwidths : qs.mapM d.portWidth = ps.mapM d.portWidth := by
    induction except_mapM_eq_ok.mp h with
    | nil => rfl
    | @cons q p qs ps hdriver hrest ih =>
      obtain ⟨hq, hqs⟩ := List.forall_mem_cons.mp hqs
      obtain ⟨hp, hps⟩ := List.forall_mem_cons.mp hps
      rw [List.mapM_cons, List.mapM_cons, Diagram.portWidth_of_driver hq hp hdriver,
        ih hqs hps (except_mapM_eq_ok.mpr hrest)]
  rw [totalWidth, totalWidth, hwidths]

structure Coherent (n : Network α) : Prop extends n.Linked, n.Covered where
  issued : n.Issued
  records : n.OfRecords
  lowered : ∀ b ∈ n.blocks.blocks, b.kind = .primitive → n.diagram.Lowered b

theorem coherent_traceMeasured (hd : d.Sourced) (hn : (traceMeasured d hold).result = .ok n) :
    n.Coherent where
  toLinked := (traced_traceMeasured hn).2.toLinked
  toCovered := covered_traceMeasured hd hn
  issued := issued_traceMeasured hn
  records := ofRecords_traceMeasured hn
  lowered := by
    rw [(traced_traceMeasured hn).1]
    exact (lowered_traceMeasured hn).1

/-- A network of blocks that reroute nothing has no outport that carries scalars of others. -/
theorem Coherent.not_carries (h : n.Coherent) (hr : ∀ b ∈ n.blocks.blocks, b.kind.isReroute = false)
    (p : Port) (taps : List Diagram.Tap) : ¬ n.Carries p taps := by
  rintro ⟨hfirst, hreroutes, _⟩
  obtain ⟨_, b, hb, hsource⟩ := h.toCovered.owned p hfirst
  obtain ⟨k, hk⟩ := List.mem_iff_getElem?.mp hb
  have hkind := h.kinds k b hk
  rw [hsource] at hkind
  cases (hr b hb).symm.trans ((congrArg BlockKind.isReroute hkind).trans hreroutes)

/-- The wires of blocks that reroute nothing are those of the scalars of their ports, port by port, and
no scalar has two. No wire leaves a sink. -/
structure ScalarsKept (n : Network α) : Prop where
  apart : (n.wires.wires.map Wire.tap).Nodup
  outputs : ∀ k b, n.block? k = some b → b.kind.isReroute = false → b.kind.isSink = false →
    ∃ tss, (n.diagram.outports b.source).mapM n.diagram.ownTaps = .ok tss ∧
      List.Forall₂ n.WireOf tss.flatten b.outputs
  ends : ∀ k b, n.block? k = some b → b.kind.isSink = true → b.outputs = []
  inputs : ∀ k b, n.block? k = some b → b.kind.isReroute = false → b.kind.isBoundary = false →
    ∃ tss, (n.diagram.inports b.source).mapM n.diagram.drivenTaps = .ok tss ∧
      List.Forall₂ n.WireOf tss.flatten b.inputs

theorem Coherent.scalarsKept (h : n.Coherent) : n.ScalarsKept where
  apart := h.registered.nodup_taps
  outputs _ _ hb hr hk := h.wires_out h.toCovered hb hr hk
  ends := h.sinksEnd h.issued
  inputs _ _ hb hr hk := by
    obtain ⟨ps, tss, hps, _, htss, hwires⟩ := h.wires_in h.toCovered h.records hb hr hk
    exact ⟨tss, mapM_drivenTaps hps htss, hwires⟩

/-- The equations of a block have a column for each scalar of its inports and its outports. -/
theorem Coherent.width_eq (h : n.Coherent) {k : Nat} {b : TracedBlock α} (hb : n.block? k = some b)
    {inputs outputs : Int} (hin : totalWidth n.diagram (n.diagram.inports b.source) = .ok inputs)
    (hout : totalWidth n.diagram (n.diagram.outports b.source) = .ok outputs) :
    b.system.isEmpty = true ∨ (b.system.width : Int) = inputs + outputs := by
  by_cases hk : b.kind = .primitive
  · rcases h.lowered b (List.mem_of_getElem? hb) hk with ⟨ws, count, hws, hcount, _, _, hwidth, _⟩ |
      ⟨_, _, hempty⟩
    · refine .inr ?_
      have hinputs : totalWidth n.diagram (n.diagram.inports b.source) = .ok (Diagram.sumWidths ws) := by
        rw [totalWidth, show (n.diagram.inports b.source).mapM n.diagram.portWidth = .ok ws from hws]
        rfl
      rw [hwidth, Except.ok.inj (hinputs.symm.trans hin),
        Except.ok.inj ((show totalWidth n.diagram _ = _ from hcount).symm.trans hout)]
    · rw [hempty]
      exact .inl rfl
  · rw [h.records.system_eq hb hk]
    exact .inl rfl

theorem Coherent.isPrimitive (h : n.Coherent) {k : Nat} {b : TracedBlock α} (hb : n.block? k = some b)
    (hempty : b.system.isEmpty = false) : b.kind = .primitive := by
  by_contra hk
  rw [h.records.system_eq hb hk] at hempty
  cases hempty

/-- Equations have a column for every wire of their block if its wires are as many as its ports are
wide. -/
theorem Coherent.width_of_lengths (h : n.Coherent) {k : Nat} {b : TracedBlock α}
    (hb : n.block? k = some b) (hempty : b.system.isEmpty = false)
    (hin : totalWidth n.diagram (n.diagram.inports b.source) = .ok (b.inputs.length : Int))
    (hout : totalWidth n.diagram (n.diagram.outports b.source) = .ok (b.outputs.length : Int)) :
    b.system.width = b.inputs.length + b.outputs.length := by
  rcases h.width_eq hb hin hout with hnone | hwidth
  · cases hnone.symm.trans hempty
  · exact_mod_cast hwidth

/-- The wires that lead into a block are as many as its inports are wide together. -/
theorem Coherent.length_inputs (h : n.Coherent) (hs : n.Sized) {k : Nat} {b : TracedBlock α}
    (hb : n.block? k = some b) (hr : b.kind.isReroute = false) (hk : b.kind.isBoundary = false) :
    totalWidth n.diagram (n.diagram.inports b.source) = .ok (b.inputs.length : Int) := by
  obtain ⟨ps, tss, hps, hfirst, htss, hwires⟩ := h.wires_in h.toCovered h.records hb hr hk
  rw [totalWidth_drivers (fun q hq => Diagram.side_inports hq)
    (fun p hp => Diagram.side_of_mem (h.toCovered.owned p (hfirst p hp)).1) hps,
    totalWidth_of_sized (fun p hp => hs p (hfirst p hp)) htss, hwires.length_eq]

/-- The wires that leave a block are as many as its outports are wide together, unless it is a sink. -/
theorem Coherent.length_outputs (h : n.Coherent) (hs : n.Sized) {k : Nat} {b : TracedBlock α}
    (hb : n.block? k = some b) (hr : b.kind.isReroute = false) (hk : b.kind.isSink = false) :
    totalWidth n.diagram (n.diagram.outports b.source) = .ok (b.outputs.length : Int) := by
  obtain ⟨tss, htss, hwires⟩ := h.wires_out h.toCovered hb hr hk
  have hfirst := h.outports b (List.mem_of_getElem? hb) hr hk
  rw [totalWidth_of_sized (fun p hp => hs p (hfirst p hp)) htss, hwires.length_eq]

/-- The check of a block that reroutes nothing compares its outputs with the width of its outports, and
finds nothing else. -/
theorem Coherent.checkBlock_eq (h : n.Coherent) (hs : n.Sized) {k : Nat} {b : TracedBlock α}
    (hb : n.block? k = some b) (hr : b.kind.isReroute = false) {width : Int}
    (hwidth : totalWidth n.diagram (n.diagram.outports b.source) = .ok width) :
    n.checkBlock k b =
      n.expect b (b.outputs.length = width) (.outputCount b.outputs.length width) := by
  have hforeign : (b.outputs.forM fun i =>
      n.expect b ((n.wires.wires[i]?).all fun w => w.block = k) (.foreignOutput i)) = pure () := by
    refine Noted.quiet_forM.mpr fun i hi => quiet_expect.mpr ?_
    obtain ⟨w, hw, hblock⟩ := h.toLinked.owned hb hi
    rw [hw]
    exact decide_eq_true hblock
  have houtputs : n.checkOutputs k b width =
      n.expect b (b.outputs.length = width) (.outputCount b.outputs.length width) := by
    rw [checkOutputs, hforeign, bind_pure_unit]
  unfold checkBlock
  rw [Noted.lift_of_ok hwidth, pure_bind, houtputs, hr]
  cases hk : b.kind.isBoundary with
  | true => exact bind_pure_unit
  | false =>
    have hlength := h.length_inputs hs hb hr hk
    have hinputs : n.checkInputs b b.inputs.length = pure () :=
      quiet_expect.mpr (decide_eq_true rfl)
    have hsystem : n.checkSystem b (b.inputs.length + width) = pure () := by
      refine quiet_expect.mpr (Bool.or_eq_true_iff.mpr ?_)
      exact (h.width_eq hb hlength hwidth).imp_right decide_eq_true
    simp only [Bool.false_eq_true, if_false]
    rw [Noted.lift_of_ok hlength, pure_bind, hinputs, pure_bind, hsystem, bind_pure_unit]

/-- A block whose equations do not have a column for every wire of it is found by the check. -/
theorem Coherent.exists_note (h : n.Coherent) (hcheck : n.check.result = .ok ()) {b : TracedBlock α}
    (hb : b ∈ n.blocks.blocks) (hempty : b.system.isEmpty = false)
    (hne : b.system.width ≠ b.inputs.length + b.outputs.length) :
    ∃ note ∈ n.check.notes, n.StructuralAt b note := by
  obtain ⟨k, hk⟩ : ∃ k, n.block? k = some b := List.mem_iff_getElem?.mp hb
  have hprimitive := h.isPrimitive hk hempty
  have hresult := Noted.result_forM_iff.mp hcheck
  have hok : (n.checkBlock k b).result = .ok () := hresult (k, b) (mem_entries.mpr hk)
  obtain ⟨note, hnote⟩ : ∃ note, note ∈ (n.checkBlock k b).notes := by
    refine List.exists_mem_of_ne_nil _ fun hnone => hne ?_
    have hquiet : (n.checkBlock k b).Quiet () := congrArg₂ Noted.mk hnone hok
    obtain ⟨⟨_, hout, rfl⟩, hin⟩ := quiet_checkBlock hquiet (by rw [hprimitive]; rfl)
    obtain ⟨_, hin, rfl⟩ := hin (by rw [hprimitive]; rfl)
    exact h.width_of_lengths hk hempty hin hout
  exact ⟨note, Noted.mem_notes_forM hresult (x := (k, b)) (mem_entries.mpr hk) hnote,
    only_checkBlock n k b note hnote⟩

def sinkFinding? (n : Network α) (b : TracedBlock α) : Option (Diagnostic α) :=
  match b.kind.isSink, totalWidth n.diagram (n.diagram.outports b.source) with
  | true, .ok width =>
    if width = 0 then none else some ⟨.outputCount 0 width, some (n.path b)⟩
  | _, _ => none

theorem Coherent.notes_checkBlock (h : n.Coherent) (hs : n.Sized) {k : Nat} {b : TracedBlock α}
    (hb : n.block? k = some b) (hok : (n.checkBlock k b).result = .ok ()) :
    (n.checkBlock k b).notes = (n.sinkFinding? b).toList := by
  cases hr : b.kind.isReroute with
  | true =>
    have hk : b.kind.isSink = false := by
      revert hr
      cases b.kind <;> decide
    unfold checkBlock sinkFinding?
    rw [hr, hk]
    rfl
  | false =>
    obtain ⟨width, hwidth⟩ : ∃ width,
        totalWidth n.diagram (n.diagram.outports b.source) = .ok width := by
      unfold checkBlock at hok
      rw [hr] at hok
      obtain ⟨width, hwidth, _⟩ := Noted.result_bind.mp hok
      exact ⟨width, hwidth⟩
    unfold sinkFinding?
    rw [h.checkBlock_eq hs hb hr hwidth, hwidth]
    cases hk : b.kind.isSink with
    | true =>
      rw [h.sinksEnd h.issued k b hb hk, expect]
      by_cases hzero : width = 0
      · subst hzero
        rfl
      · have hne : ¬ ((0 : Nat) : Int) = width := fun heq => hzero heq.symm
        simp only [List.length_nil, decide_eq_true_eq, if_neg hne, if_neg hzero]
        rfl
    | false =>
      have hlength := Except.ok.inj ((h.length_outputs hs hb hr hk).symm.trans hwidth)
      rw [expect, if_pos (decide_eq_true hlength)]
      rfl

/-- The check of a network finds nothing but sinks with outports. -/
theorem Coherent.notes_check (h : n.Coherent) (hs : n.Sized) (hcheck : n.check.result = .ok ()) :
    n.check.notes = n.blocks.blocks.filterMap n.sinkFinding? := by
  have hresult := Noted.result_forM_iff.mp hcheck
  have hblock (e : Nat × TracedBlock α) (he : e ∈ n.blocks.entries) :
      (n.checkBlock e.1 e.2).notes = (n.sinkFinding? e.2).toList :=
    h.notes_checkBlock hs (mem_entries.mp he) (hresult e he)
  have hblocks : n.blocks.entries.map Prod.snd = n.blocks.blocks :=
    List.map_snd_zip (by simp [BlockTable.size])
  rw [check, Noted.forM_eq hresult]
  conv_rhs => rw [← hblocks, List.filterMap_eq_flatMap_toList, List.flatMap_map]
  exact List.flatMap_congr hblock

end Network

end Transcription
