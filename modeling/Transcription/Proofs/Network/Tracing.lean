import Transcription.Proofs.Network.Discovery
import Transcription.Proofs.Network.Routing

namespace Transcription

variable {α : Type} [Scalar α]

/-- A network of all that the sinks of a diagram depend on, and of nothing else. -/
structure Network.Reaches (n : Network α) (d : Diagram) : Prop where
  diagram_eq : n.diagram = d
  scalars : ∀ p sub, (p, sub) ∈ n.wires.wires.map (fun w => (w.port, w.sub)) ↔
    d.Reached p ∧ sub < d.scalars p
  scalars_once : (n.wires.wires.map fun w => (w.port, w.sub)).Nodup
  blocks : ∀ i, i ∈ n.blocks.blocks.map (·.source) ↔
    i ∈ Search.sinks d ∨ ∃ p, d.Reached p ∧ p.block = i
  blocks_once : (n.blocks.blocks.map (·.source)).Nodup

namespace Search

variable {d : Diagram} {s : Search α}

/-- Links lead from wires that exist to outports that are registered. -/
theorem Discovers.links (h : d.Legible) (hs : Discovers d s) :
    ∀ l ∈ s.links, s.Registers l.tap.1 ∧ l.wire < s.wires.size := by
  intro l hl
  obtain ⟨p, first, taps, j, hp, hr, htaps, hj, hwire⟩ := hs.sound.links l hl
  have hreached := (hs.registers p).mp (Option.isSome_of_eq_some hp)
  have hmem := (h.mem_of_reached hreached).1
  refine ⟨(hs.registers _).mpr (.routed hreached hr htaps (List.mem_of_getElem? hj)), ?_⟩
  rcases h.resolves hmem hr with ⟨taps', htaps', hlength, _⟩ | ⟨hbroken, _⟩
  · cases htaps.symm.trans htaps'
    obtain ⟨width, hwidth, hscalars⟩ := Diagram.portWidth_eq h.compiled (Diagram.side_of_mem hmem)
    obtain ⟨width', hwidth', hwires⟩ := hs.sound.registered.wire_of_port p first hp
    cases hwidth.symm.trans hwidth'
    have hlt := (List.getElem?_eq_some_iff.mp hj).1
    obtain ⟨w, hw, _⟩ := hwires j (by omega)
    rw [hwire]
    exact (List.getElem?_eq_some_iff.mp hw).1
  · exact absurd htaps (hbroken.ne_ok taps)

/-- All inports of a recorded block have lines, unless its signals come in another way. -/
theorem Discovers.drivers_eq (hs : Discovers d s) {b : TracedBlock α} (hb : b ∈ s.blocks.blocks)
    (hr : b.kind.isReroute = false) (hboundary : b.kind.isBoundary = false) :
    ∃ ps, d.drivers b.source = .ok ps := by
  rcases d.drivers_cases b.source with ⟨ps, hps, _⟩ | ⟨_, q, hq, hnone⟩
  · exact ⟨ps, hps⟩
  · refine absurd ?_ hs.intact
    rcases (hs.recorded b.source).mp (List.mem_map_of_mem hb) with hsink | ⟨p, hp, hsource⟩
    · exact .inl ⟨b.source, hsink, q, hq, hnone⟩
    · have hkind := hs.sound.kinds b hb
      rw [hkind, ← hsource] at hr hboundary
      refine .inr ⟨p, hp, .inr ⟨q, ?_, hnone⟩⟩
      exact (Diagram.follows_iff hr).mpr ⟨hboundary, hsource ▸ hq⟩

theorem Discovers.lt_size (h : d.Legible) (hs : Discovers d s) {b : TracedBlock α}
    (hb : b ∈ s.blocks.blocks) : b.source < d.blocks.size := by
  rcases (hs.recorded b.source).mp (List.mem_map_of_mem hb) with hsink | ⟨p, hp, hsource⟩
  · exact lt_size_of_mem hsink
  · exact hsource ▸ (Diagram.mem_allOutports.mp (h.mem_of_reached hp).1).1

end Search

namespace Network

open WireTable

variable {d : Diagram} {hold : Hold}

theorem linkAliases_eq {links : List Link} {t : WireTable α}
    (h : ∀ l ∈ links, (t.first? l.tap.1).isSome = true ∧ l.wire < t.size) :
    ∃ u, linkAliases d links t = .ok u := by
  induction links generalizing t with
  | nil => exact ⟨t, rfl⟩
  | cons l links ih =>
    obtain ⟨⟨hfirst, hlt⟩, hrest⟩ := List.forall_mem_cons.mp h
    obtain ⟨first, hfirst⟩ := Option.isSome_iff_exists.mp hfirst
    have hview (w : Wire α) : ({ w with aliasOf := some (first + l.tap.2) } : Wire α).port = w.port := rfl
    have hagree := agree_modify t l.wire hview
    obtain ⟨u, hu⟩ := ih (t := t.modify l.wire fun w => { w with aliasOf := some (first + l.tap.2) })
      (by
        intro k hk
        rw [hagree.first?_eq, hagree.size_eq]
        exact hrest k hk)
    refine ⟨u, ?_⟩
    unfold linkAliases
    simp only [hfirst, if_pos hlt]
    exact hu

/-- What a search has found can be wired. -/
theorem ofSearch_eq (h : d.Legible) {s : Search α} (hs : s.Discovers d) :
    ∃ n, ofSearch d s = .ok n := by
  obtain ⟨t, ht⟩ := linkAliases_eq (d := d) (hs.links h)
  obtain ⟨blocks, hblocks⟩ : ∃ blocks, s.blocks.blocks.mapM (wireBlock d t) = .ok blocks := by
    refine except_mapM_ok fun b hb => ?_
    unfold wireBlock
    dsimp only
    split
    · exact ⟨_, rfl⟩
    · rename_i hkind
      simp only [Bool.or_eq_true, not_or, Bool.not_eq_true] at hkind
      obtain ⟨ps, hps⟩ := hs.drivers_eq hb hkind.1 hkind.2
      simp only [inputWires, hps, bind, Except.bind, pure, Except.pure]
      exact ⟨_, rfl⟩
  refine ⟨⟨d, ⟨blocks⟩, t⟩, ?_⟩
  simp only [ofSearch, ht, hblocks, bind, Except.bind]
  rfl

theorem exists_boundValues {n : Network α} {b : TracedBlock α} {name : String} {free : Float}
    (h : ∃ t, (n.diagram.param b.source name (.float free)).tensor? = .ok t) :
    ∃ o, (n.boundValues b name free).result = .ok o := by
  obtain ⟨t, ht⟩ := h
  unfold boundValues
  have htensor : (liftM (n.diagram.param b.source name (.float free)).tensor? :
      Noted α Tensor).result = .ok t := ht
  rw [Noted.result_next htensor]
  split
  · exact ⟨_, rfl⟩
  · exact ⟨none, rfl⟩

/-- Bounds that can be read are collected. -/
theorem collectBounds_eq {n : Network α} (h : ∀ b ∈ n.blocks.blocks, b.kind = .bound →
    (∃ t, (n.diagram.param b.source "lb" (.float (-Numeral.infinity))).tensor? = .ok t) ∧
      ∃ t, (n.diagram.param b.source "ub" (.float Numeral.infinity)).tensor? = .ok t) :
    ∃ m, n.collectBounds.result = .ok m := by
  have hbound (b : TracedBlock α) (hb : b ∈ (n.blocks.ofKinds [.bound]).map (·.2)) (t : WireTable α) :
      ∃ u, (n.collectBound t b).result = .ok u := by
    obtain ⟨k, hk, hkind⟩ := mem_ofKind.mp hb
    obtain ⟨hlower, hupper⟩ := h b (List.mem_of_getElem? hk) hkind
    obtain ⟨lower, hlower⟩ := exists_boundValues hlower
    obtain ⟨upper, hupper⟩ := exists_boundValues hupper
    unfold collectBound
    rw [Noted.result_next hlower, Noted.result_next hupper]
    split <;> exact ⟨_, rfl⟩
  have hfold (bs : List (TracedBlock α)) (hbs : ∀ b ∈ bs, ∀ t, ∃ u, (n.collectBound t b).result = .ok u)
      (t : WireTable α) : ∃ u, (bs.foldlM n.collectBound t).result = .ok u := by
    induction bs generalizing t with
    | nil => exact ⟨t, rfl⟩
    | cons b bs ih =>
      obtain ⟨hb, hrest⟩ := List.forall_mem_cons.mp hbs
      obtain ⟨u, hu⟩ := hb t
      obtain ⟨v, hv⟩ := ih hrest u
      exact ⟨v, by rw [List.foldlM_cons, Noted.result_next hu]; exact hv⟩
  obtain ⟨wires, hwires⟩ := hfold _ hbound n.wires
  exact ⟨{ n with wires }, by rw [collectBounds, Noted.result_next hwires]; rfl⟩

theorem result_expect (n : Network α) (b : TracedBlock α) (ok : Bool) (f : Finding α) :
    (n.expect b ok f).result = .ok () := by
  unfold expect
  split <;> rfl

theorem result_checkOutputs (n : Network α) (place : Nat) (b : TracedBlock α) (width : Int) :
    (n.checkOutputs place b width).result = .ok () := by
  unfold checkOutputs
  rw [Noted.result_next (result_expect n b _ _)]
  exact Noted.result_forM fun _ _ => result_expect n b _ _

theorem totalWidth_eq (ports : List Port) (h : ∀ p ∈ ports, ∃ width, d.portWidth p = .ok width) :
    ∃ width, totalWidth d ports = .ok width := by
  obtain ⟨widths, hwidths⟩ := except_mapM_ok h
  exact ⟨Diagram.sumWidths widths, by rw [totalWidth, hwidths]; rfl⟩

/-- An inport with a line is as wide as what drives it. -/
theorem portWidth_inport (hc : d.compiled.isSome = true) {q s : Port} (hq : q.side = .inport)
    (hs : d.driver q = .ok s) : ∃ width, d.portWidth q = .ok width := by
  have hmeasured : d.measured = .ok d := by
    rw [Diagram.measured, if_pos hc]
    rfl
  rw [Diagram.portWidth, Diagram.portDims, hq]
  simp only [hs, bind, Except.bind, Diagram.outportDims, hmeasured]
  exact ⟨_, rfl⟩

/-- Wires are compared with the diagram wherever its widths are known. -/
theorem result_checkBlock {n : Network α} (hc : n.diagram.compiled.isSome = true) (place : Nat)
    {b : TracedBlock α} (h : b.kind.isReroute = false → b.kind.isBoundary = false →
      ∃ ps, n.diagram.drivers b.source = .ok ps) : (n.checkBlock place b).result = .ok () := by
  unfold checkBlock
  cases hr : b.kind.isReroute with
  | true => rfl
  | false =>
    obtain ⟨outputs, houtputs⟩ := totalWidth_eq (d := n.diagram)
      (n.diagram.outports b.source) fun p hp => by
        obtain ⟨width, hwidth, _⟩ := Diagram.portWidth_eq hc (Diagram.side_outports hp)
        exact ⟨width, hwidth⟩
    have hlift : (liftM (totalWidth n.diagram (n.diagram.outports b.source)) : Noted α Int).result =
        .ok outputs := houtputs
    simp only [Bool.false_eq_true, if_false]
    rw [Noted.result_next hlift, Noted.result_next (result_checkOutputs n place b outputs)]
    cases hb : b.kind.isBoundary with
    | true => rfl
    | false =>
      obtain ⟨ps, hps⟩ := h hr hb
      obtain ⟨inputs, hinputs⟩ := totalWidth_eq (d := n.diagram)
        (n.diagram.inports b.source) fun q hq => by
          obtain ⟨s, _, hs⟩ := except_mapM_of_mem hps hq
          exact portWidth_inport hc (Diagram.side_inports hq) hs
      have hlift : (liftM (totalWidth n.diagram (n.diagram.inports b.source)) : Noted α Int).result =
          .ok inputs := hinputs
      simp only [Bool.false_eq_true, if_false]
      rw [Noted.result_next hlift, checkInputs, Noted.result_next (result_expect n b _ _)]
      exact result_expect n b _ _

/-- The wires of a network with the outports of a search carry exactly the scalars that are reached. -/
theorem reaches_of_linked {n : Network α} {s : Search α} (hs : s.Discovers d)
    (hd : n.diagram = d) (hl : n.Linked) (hfirst : n.wires.first? = s.wires.first?)
    (hsources : n.blocks.blocks.map (·.source) = s.blocks.blocks.map (·.source)) : n.Reaches d := by
  have hregistered := hd ▸ hl.registered
  have hreached (p : Port) : (n.wires.first? p).isSome = true ↔ d.Reached p := by
    rw [hfirst]
    exact hs.registers p
  refine ⟨hd, fun p sub => ⟨?_, ?_⟩, ?_, fun i => ?_, hl.sources⟩
  · intro hmem
    obtain ⟨w, hw, heq⟩ := List.mem_map.mp hmem
    cases heq
    obtain ⟨i, hi⟩ := List.mem_iff_getElem?.mp hw
    obtain ⟨first, width, hfirst, hwidth, hlt, _⟩ := hregistered.port_of_wire i w hi
    refine ⟨(hreached _).mp (Option.isSome_of_eq_some hfirst), ?_⟩
    rw [Diagram.scalars, hwidth]
    exact hlt
  · rintro ⟨hp, hlt⟩
    obtain ⟨first, hfirst⟩ := Option.isSome_iff_exists.mp ((hreached p).mpr hp)
    obtain ⟨width, hwidth, hwires⟩ := hregistered.wire_of_port p first hfirst
    rw [Diagram.scalars, hwidth] at hlt
    obtain ⟨w, hw, htap⟩ := hwires sub hlt
    have hport : w.port = p := congrArg Prod.fst htap
    have hsub : (w.sub : Int) = sub := congrArg Prod.snd htap
    refine List.mem_map.mpr ⟨w, List.mem_of_getElem? hw, ?_⟩
    rw [hport, Int.ofNat_inj.mp hsub]
  · refine List.nodup_iff_getElem?_ne_getElem?.mpr fun i j hij hj heq => ?_
    rw [List.length_map] at hj
    rw [List.getElem?_map, List.getElem?_map, List.getElem?_eq_getElem hj,
      List.getElem?_eq_getElem (hij.trans hj)] at heq
    have heq := Option.some.inj heq
    have hport : n.wires.wires[i].port = n.wires.wires[j].port := congrArg Prod.fst heq
    have hsub : n.wires.wires[i].sub = n.wires.wires[j].sub := congrArg Prod.snd heq
    have htap : n.wires.wires[i].tap = n.wires.wires[j].tap := by
      rw [Wire.tap, Wire.tap, hport, hsub]
    exact hij.ne (hregistered.tap_inj (List.getElem?_eq_getElem (hij.trans hj))
      (List.getElem?_eq_getElem hj) htap)
  · rw [hsources]
    exact hs.recorded i

/-- Once a search has found all that the sinks depend on, the trace succeeds. -/
theorem exists_traced (h : d.Legible) {s : Search α}
    (hsearch : (Search.ofDiagram d hold).result = .ok s) (hs : s.Discovers d) :
    ∃ n : Network α, (traceMeasured d hold).result = .ok n ∧ n.Reaches d := by
  obtain ⟨wired, hwired⟩ := ofSearch_eq h hs
  obtain ⟨hd, _, hplain⟩ := linked_ofSearch hwired hs.sound
  have hsources := sources_ofSearch hwired
  obtain ⟨bounded, hbounded⟩ := collectBounds_eq (n := wired.setFlags) fun b hb hkind => by
    obtain ⟨c, hc, hw⟩ := exists_wires_of_mem hwired hb
    have hlt := hs.lt_size h hc
    have hof := hs.sound.kinds c hc
    rw [← hw.kind_eq, hkind] at hof
    rw [← hw.source_eq] at hlt hof
    exact hd ▸ h.bounds b.source hlt hof.symm
  have hview (w : Wire α) p l u : (w.tighten p l u).port = w.port := rfl
  obtain ⟨hdiagram, hblocks, hbound⟩ := agree_collectBounds hview hbounded
  have hcost : bounded.wires.Agree Wire.port bounded.collectCosts.wires :=
    agree_collectCosts (fun _ _ _ => rfl) bounded
  have hflags : wired.wires.Agree Wire.port wired.setFlags.wires :=
    agree_setFlags (fun _ _ => rfl) wired
  have hcheck : (bounded.collectCosts.check).result = .ok () := by
    refine Noted.result_forM fun e he => ?_
    have hb : e.2 ∈ wired.blocks.blocks := by
      have := mem_entries.mp (show (e.1, e.2) ∈ bounded.collectCosts.blocks.entries from he)
      exact hblocks ▸ List.mem_of_getElem? this
    obtain ⟨c, hc, hw⟩ := exists_wires_of_mem hwired hb
    have hdc : bounded.collectCosts.diagram = d := hdiagram.trans hd
    refine result_checkBlock (by rw [hdc]; exact h.compiled) e.1 fun hr hboundary => ?_
    rw [hdc, hw.source_eq]
    exact hs.drivers_eq hc (hw.kind_eq ▸ hr) (hw.kind_eq ▸ hboundary)
  have htrace : (traceMeasured d hold).result = .ok bounded.collectCosts := by
    unfold traceMeasured
    have hlift : (liftM (ofSearch d s) : Noted α (Network α)).result = .ok wired := hwired
    rw [Noted.result_next hsearch, Noted.result_next hlift, Noted.result_next hbounded]
    exact Noted.result_bind.mpr ⟨(), hcheck, rfl⟩
  obtain ⟨hd', htraced⟩ := traced_traceMeasured htrace
  refine ⟨_, htrace, reaches_of_linked hs hd' htraced.toLinked ?_ ?_⟩
  · rw [hcost.first?_eq, hbound.first?_eq, hflags.first?_eq, ← hplain.first?_eq]
  · exact (congrArg (fun t : BlockTable α => t.blocks.map (·.source)) hblocks).trans hsources

theorem exists_traceMeasured (h : d.Traceable α) {s : Search α}
    (hsearch : (Search.ofDiagram d hold).result = .ok s) (hs : s.Discovers d) :
    ∃ n : Network α, (traceMeasured d hold).result = .ok n ∧ n.Reaches d :=
  exists_traced h.legible hsearch hs

end Network

/-- A trace ends in the report of a connection exactly if one is broken on the way from the sinks.
Otherwise it finds all that they depend on, and nothing else. -/
theorem Diagram.trace_reached {d m : Diagram} (hm : d.measured = .ok m) (h : m.Traceable α)
    (hold : Hold) : (Disconnected (d.trace hold : Noted α (Network α)).result ↔ m.Severed) ∧
      (¬ m.Severed → ∃ n : Network α, (d.trace hold).result = .ok n ∧ n.Reaches m) := by
  have htrace : (d.trace hold : Noted α (Network α)) = Network.traceMeasured m hold := by
    rw [Diagram.trace, Diagram.prepared, hm]
  rw [htrace]
  rcases Search.search_cases h hold with ⟨s, hsearch, hs⟩ | ⟨hbroken, hsevered⟩
  · obtain ⟨n, hn, hreaches⟩ := Network.exists_traceMeasured h hsearch hs
    refine ⟨⟨fun hdisconnected => absurd hn (hdisconnected.ne_ok n), fun hsevered => ?_⟩,
      fun _ => ⟨n, hn, hreaches⟩⟩
    exact absurd hsevered hs.intact
  · exact ⟨⟨fun _ => hsevered, fun _ => hbroken.next _⟩, fun hintact => absurd hsevered hintact⟩

namespace MuxLoop

theorem sinks_measured : Search.sinks (measured true) = [4] := by cbv

theorem kind_measured {i : Nat} (hi : i < 5) :
    BlockKind.of ((measured true).block i) = (block i).kind := by
  obtain rfl | rfl | rfl | rfl | rfl : i = 0 ∨ i = 1 ∨ i = 2 ∨ i = 3 ∨ i = 4 := by omega
  · exact kind_input true
  all_goals cbv

/-- No block of the loop has parameters. -/
theorem param?_measured {i : Nat} (hi : i < 5) (name : String) : (measured true).param? i name = none := by
  obtain rfl | rfl | rfl | rfl | rfl : i = 0 ∨ i = 1 ∨ i = 2 ∨ i = 3 ∨ i = 4 := by omega
  all_goals rfl

theorem param_measured {i : Nat} (hi : i < 5) (name : String) (v : Value) :
    (measured true).param i name v = v := by
  rw [Diagram.param, param?_measured hi]
  rfl

theorem traceable_measured : (measured true).Traceable ℚ where
  compiled := rfl
  drawn := by decide
  ends := by
    rw [sinks_measured]
    decide
  single := by decide
  numbered := by
    intro i hi htype
    exact absurd htype ((by decide : ∀ i < 5, ((measured true).block i).type ∉ ["Inport", "Outport"]) i hi)
  muxes := by
    intro i hi sources hkind hsources
    rw [kind_measured hi] at hkind
    obtain rfl : i = 2 := (by decide : ∀ i < 5, (block i).kind = .mux → i = 2) i hi hkind
    cases (show (measured true).drivers 2 = .ok [out 1, out 0] from rfl).symm.trans hsources
    decide
  windows := by
    intro i hi _
    exact ⟨_, by rw [param_measured hi]; rfl⟩
  holds := by
    intro i hi _
    exact .inl (param_measured hi _ _)
  bounds := by
    intro i hi hkind
    rw [kind_measured hi] at hkind
    exact absurd hkind ((by decide : ∀ i < 5, (block i).kind ≠ .bound) i hi)
  lowering := by
    intro i hi hkind
    rw [kind_measured hi] at hkind
    exact absurd hkind ((by decide : ∀ i < 5, (block i).kind ≠ .primitive) i hi)
  tagged := by
    intro i hi htype
    exact absurd htype ((by decide : ∀ i < 5, ((measured true).block i).type ∉ ["From", "Goto"]) i hi)
  comparable := by
    intro i hi htype
    exact absurd htype ((by decide : ∀ i < 5, ((measured true).block i).type ≠ "From") i hi)
  switches := by
    intro i hi _ p
    exact ⟨true, by rw [param_measured hi]; rfl⟩

end MuxLoop

/-- The loop is traced, as no connection in it is broken. -/
theorem trace_reached_loop :
    (MuxLoop.drawn true).measured = .ok (MuxLoop.measured true) ∧ (MuxLoop.measured true).Traceable ℚ ∧
      ¬ (MuxLoop.measured true).Severed ∧ ∃ n : Network ℚ,
        ((MuxLoop.drawn true).trace .zeroOrder).result = .ok n ∧ n.Reaches (MuxLoop.measured true) := by
  have hm := MuxLoop.measured_drawn true
  have h := MuxLoop.traceable_measured
  obtain ⟨hsevered, hreached⟩ := Diagram.trace_reached hm h .zeroOrder
  have hintact : ¬ (MuxLoop.measured true).Severed := fun hbroken =>
    (hsevered.mpr hbroken).ne_ok _ (congrArg Noted.result (MuxLoop.trace_drawn true))
  exact ⟨hm, h, hintact, hreached hintact⟩

namespace Probe

def pair : Value := .tensor ⟨[2], [1, 1]⟩

/-- A source that is measured by a cost, and a `Goto` block with two numbers for a tag. -/
def drawn (source : Diagram.Block) (switches : List (String × Value)) : Diagram where
  name := "probe"
  workspace := []
  blocks := #[source, ⟨"cost", "SubSystem", "probe/cost", some "DiscreteCost", none, switches, 1, []⟩,
    ⟨"goto", "Goto", "probe/goto", none, none, [("GotoTag", pair)], 1, []⟩]
  lines := [⟨⟨0, .outport, 1⟩, ⟨1, .inport, 1⟩⟩]

def measured (source : Diagram.Block) (switches : List (String × Value)) : Diagram :=
  { drawn source switches with compiled := some [(⟨0, .outport, 1⟩, [1, 1])] }

def input : Diagram.Block :=
  ⟨"u", "SubSystem", "probe/u", some "InputFromWorkspace", none, [], 0, [some [1, 1]]⟩

def fromBlock (params : List (String × Value)) : Diagram.Block :=
  ⟨"from", "From", "probe/from", none, none, params, 0, [some [1, 1]]⟩

def untagged : Diagram.Block := fromBlock []

def blurred : Diagram.Block := fromBlock [("GotoTag", pair)]

def unclear : List (String × Value) := [("initial_step", pair)]

def Source (source : Diagram.Block) : Prop := source ∈ [input, untagged, blurred]

variable {source : Diagram.Block} {switches : List (String × Value)}

theorem Source.cases (h : Source source) : source = input ∨ source = untagged ∨ source = blurred := by
  simpa [Source] using h

theorem measured_drawn (h : Source source) :
    (drawn source switches).measured = .ok (measured source switches) := by
  obtain rfl | rfl | rfl := h.cases
  all_goals cbv

theorem kind_source (h : Source source) : BlockKind.of source ∈ [.route, .input] := by
  obtain rfl | rfl | rfl := h.cases
  · rw [show BlockKind.of input = .input from BlockKind.of_input rfl]
    decide
  · exact List.mem_cons_self
  · exact List.mem_cons_self

theorem kind_cost : BlockKind.of ((measured source switches).block 1) = .cost := by
  cbv

theorem kind_goto : BlockKind.of ((measured source switches).block 2) = .primitive := by
  cbv

theorem sinks_measured (h : Source source) : Search.sinks (measured source switches) = [1] := by
  obtain rfl | rfl | rfl := h.cases
  all_goals cbv

/-- What holds of the source, of the cost and of the `Goto` block. -/
theorem forall_block {P : Nat → Prop} (hsource : P 0) (hcost : P 1) (hgoto : P 2) :
    ∀ i < (measured source switches).blocks.size, P i := by
  intro i hi
  have hsize : (measured source switches).blocks.size = 3 := rfl
  obtain rfl | rfl | rfl : i = 0 ∨ i = 1 ∨ i = 2 := by omega
  · exact hsource
  · exact hcost
  · exact hgoto

theorem wellDrawn (h : Source source) : (measured source switches).WellDrawn ℚ := by
  have hpass : source.type ∉ ["Goto", "Outport", "Demux"] := by
    obtain rfl | rfl | rfl := h.cases <;> decide
  have hport : source.type ∉ ["Inport", "Outport"] := by
    obtain rfl | rfl | rfl := h.cases <;> decide
  have hparam {name : String} (hname : name ≠ "GotoTag") (v : Value) :
      (measured source switches).param 0 name v = v := by
    obtain rfl | rfl | rfl := h.cases
    · rfl
    · rfl
    · have hnone : (measured blurred switches).param? 0 name = none := by
        change Option.map _ (List.lookup name [("GotoTag", pair)]) = none
        rw [List.lookup_cons, beq_false_of_ne hname]
        rfl
      rw [Diagram.param, hnone]
      rfl
  have hother {k : BlockKind} (hk : k ∉ [.route, .input, .cost, .primitive]) :
      ∀ i < (measured source switches).blocks.size,
        BlockKind.of ((measured source switches).block i) ≠ k := by
    refine forall_block (fun heq => hk ?_) (fun heq => hk ?_) (fun heq => hk ?_)
    · rw [← heq]
      exact List.mem_append_left [.cost, .primitive] (kind_source h)
    · rw [← heq, kind_cost]
      decide
    · rw [← heq, kind_goto]
      decide
  have hcost : (BlockKind.of ((measured source switches).block 1)).isBoundary ≠ true := by
    rw [kind_cost]
    decide
  have hgoto : (BlockKind.of ((measured source switches).block 2)).isBoundary ≠ true := by
    rw [kind_goto]
    decide
  exact {
    compiled := rfl
    drawn := by
      obtain rfl | rfl | rfl := h.cases <;>
        exact List.forall_mem_singleton.mpr (List.mem_singleton.mpr rfl)
    ends := by
      rw [sinks_measured h]
      exact List.forall_mem_singleton.mpr (by decide)
    single := forall_block (fun h => absurd h hpass) (fun _ => rfl) fun _ => rfl
    numbered := forall_block (fun h => absurd h hport)
      (fun h => absurd h (show "SubSystem" ∉ ["Inport", "Outport"] by decide))
      fun h => absurd h (show "Goto" ∉ ["Inport", "Outport"] by decide)
    muxes := fun i hi _ hmux => absurd hmux (hother (by decide) i hi)
    windows := forall_block (fun _ => ⟨_, by rw [hparam (by decide)]; rfl⟩)
      (fun h => absurd h hcost) fun h => absurd h hgoto
    holds := forall_block (fun _ => .inl (hparam (by decide) _))
      (fun h => absurd h hcost) fun h => absurd h hgoto
    bounds := fun i hi hbound => absurd hbound (hother (by decide) i hi)
    lowering := forall_block (fun hkind => absurd (hkind ▸ kind_source h) (by decide))
      (fun hkind => absurd (kind_cost.symm.trans hkind) (by decide)) fun _ => .inr (.inl ⟨_, rfl⟩) }

theorem trace_source {e : Fault} (h : Source source)
    (hsearch : (Search.ofDiagram (measured source switches) .zeroOrder : Noted ℚ (Search ℚ)) =
      ⟨[], .error e⟩) :
    ((drawn source switches).trace .zeroOrder : Noted ℚ (Network ℚ)).result = .error e := by
  rw [Diagram.trace, Diagram.prepared, measured_drawn h]
  change Noted.result (Search.ofDiagram (measured source switches) .zeroOrder >>= _) = _
  rw [hsearch]
  rfl

theorem trace_untagged : ((drawn untagged []).trace .zeroOrder : Noted ℚ (Network ℚ)).result =
    .error (.missingParameter "probe/from" "GotoTag") := by
  have hsource : Source untagged := by simp [Source]
  refine trace_source hsource ?_
  unfold Search.ofDiagram
  rw [sinks_measured hsource]
  change Search.run (measured untagged []) .zeroOrder ⟨[], [⟨0, .outport, 1⟩]⟩ _ = _
  rw [Search.run_cons]
  rfl

theorem trace_blurred : ((drawn blurred []).trace .zeroOrder : Noted ℚ (Network ℚ)).result =
    .error .severalTruths := by
  have hsource : Source blurred := by simp [Source]
  refine trace_source hsource ?_
  unfold Search.ofDiagram
  rw [sinks_measured hsource]
  change Search.run (measured blurred []) .zeroOrder ⟨[], [⟨0, .outport, 1⟩]⟩ _ = _
  rw [Search.run_cons]
  rfl

theorem trace_unclear : ((drawn input unclear).trace .zeroOrder : Noted ℚ (Network ℚ)).result =
    .error .severalTruths := by
  rw [Diagram.trace, Diagram.prepared, measured_drawn (by simp [Source])]
  rfl

/-- The probe is well drawn, but tracing it neither reports a broken connection nor returns. -/
def Stops (source : Diagram.Block) (switches : List (String × Value)) (e : Fault) : Prop :=
  (drawn source switches).measured = .ok (measured source switches) ∧
    (measured source switches).WellDrawn ℚ ∧
    ((drawn source switches).trace .zeroOrder : Noted ℚ (Network ℚ)).result = .error e ∧
    ¬ Disconnected ((drawn source switches).trace .zeroOrder : Noted ℚ (Network ℚ)).result

theorem stops (h : Source source) {e : Fault} (he : ∀ block broken, e ≠ .connection block broken)
    (htrace : ((drawn source switches).trace .zeroOrder : Noted ℚ (Network ℚ)).result = .error e) :
    Stops source switches e := by
  refine ⟨measured_drawn h, wellDrawn h, htrace, fun hbroken => ?_⟩
  obtain ⟨block, broken, hbroken⟩ := hbroken
  exact he block broken (Except.error.inj (htrace.symm.trans hbroken))

end Probe

/-- Where tags cannot be read or compared, or switches cannot be read, a trace stops for that reason. -/
theorem trace_stops_at_parameters :
    Probe.Stops Probe.untagged [] (.missingParameter "probe/from" "GotoTag") ∧
      Probe.Stops Probe.blurred [] .severalTruths ∧
      Probe.Stops Probe.input Probe.unclear .severalTruths :=
  ⟨Probe.stops (by simp [Probe.Source]) nofun Probe.trace_untagged,
    Probe.stops (by simp [Probe.Source]) nofun Probe.trace_blurred,
    Probe.stops (by simp [Probe.Source]) nofun Probe.trace_unclear⟩

end Transcription
