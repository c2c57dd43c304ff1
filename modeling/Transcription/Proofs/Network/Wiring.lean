import Mathlib
import Transcription.Network.Trace
import Transcription.Proofs.Network.Registration
import Transcription.Run

namespace Transcription

variable {α : Type} [Scalar α]

namespace Search

def Recorded (d : Diagram) (t : BlockTable α) : Prop := ∀ b ∈ t.blocks, d.Records b.source b

variable {d : Diagram} {hold : Hold} {s : Search α}

theorem blocks_visitReroute {i : Nat} {p : Port} {v : Visit α} (hv : s.visitReroute d i p = .ok v) :
    v.search.blocks = s.blocks := by
  unfold Search.visitReroute at hv
  obtain ⟨width, _, hv⟩ := except_bind_eq_ok.mp hv
  obtain ⟨taps, _, hv⟩ := except_bind_eq_ok.mp hv
  cases hv
  rfl

theorem blocks_visitBlock {i : Nat} {b : TracedBlock α} {v : Visit α}
    (hv : s.visitBlock d i b = .ok v) : v.search.blocks = s.blocks := by
  unfold Search.visitBlock at hv
  obtain ⟨wires, hw, hv⟩ := except_bind_eq_ok.mp hv
  split at hv
  all_goals
    obtain ⟨next, _, hv⟩ := except_bind_eq_ok.mp hv
    cases hv
    rfl

theorem Recorded.push {t : BlockTable α} (h : Recorded d t) {i : Nat} {b : TracedBlock α}
    (hb : (d.record hold i).Quiet b) : Recorded d (t.push b) := by
  have hrec := Diagram.records hb
  intro c hc
  rcases List.mem_append.mp hc with hc | hc
  · exact h c hc
  · rw [List.mem_singleton.mp hc, hrec.source_eq]
    exact hrec

theorem Recorded.visit (h : Recorded d s.blocks) {p : Port} {v : Visit α}
    (hv : (s.visit d hold p).Quiet v) : Recorded d v.search.blocks := by
  unfold Search.visit at hv
  split at hv
  · split at hv
    · rw [blocks_visitReroute (Noted.quiet_lift.mp hv)]
      exact h
    · obtain rfl := Noted.quiet_pure.mp hv
      exact h
  · obtain ⟨b, hb, hv⟩ := Noted.quiet_bind.mp hv
    simp only at hv
    split at hv
    · rw [blocks_visitReroute (Noted.quiet_lift.mp hv)]
      exact h.push hb
    · rw [blocks_visitBlock (Noted.quiet_lift.mp hv)]
      exact h.push hb

theorem Recorded.run {f : Frontier Port} {s' : Search α} (h : Recorded d s.blocks)
    (hr : (Search.run d hold f s).Quiet s') : Recorded d s'.blocks := by
  fun_induction Search.run d hold f s with
  | case1 f s hq =>
    obtain rfl := Noted.quiet_pure.mp hr
    exact h
  | case2 f s p rest hq ih =>
    obtain ⟨v, hv, hr⟩ := Noted.quiet_bind.mp hr
    exact ih v (h.visit hv) hr

theorem run_nil {fresh : List Port} : Search.run d hold ⟨fresh, []⟩ s = pure s := by
  rw [Search.run]

theorem run_cons {p : Port} {fresh rest : List Port} : Search.run d hold ⟨fresh, p :: rest⟩ s =
    s.visit d hold p >>= fun v => Search.run d hold (advance ⟨fresh, p :: rest⟩ rest v) v.search := by
  rw [Search.run]

/-- The first visit to an outport of a block, as the records of the block and what it then does. -/
theorem quiet_visit {p : Port} {b : TracedBlock α} {v : Visit α}
    (hnew : s.blocks.find? p.block = none) (hb : (d.record hold p.block).Quiet b)
    (hv : (if b.kind.isReroute then
        visitReroute { s with blocks := s.blocks.push b } d s.blocks.size p
      else visitBlock { s with blocks := s.blocks.push b } d s.blocks.size b) = .ok v) :
    (s.visit d hold p).Quiet v := by
  unfold Search.visit
  rw [hnew]
  refine Noted.quiet_bind.mpr ⟨b, hb, ?_⟩
  simp only
  split at hv
  · rw [if_pos ‹_›]
    exact Noted.quiet_lift.mpr hv
  · rw [if_neg ‹_›]
    exact Noted.quiet_lift.mpr hv

/-- A run goes on from the frontier and the search that its next visit leads to. -/
theorem quiet_run_cons {p : Port} {fresh rest : List Port} {v : Visit α} {g : Frontier Port}
    {s' : Search α} (hv : (s.visit d hold p).Quiet v) (hg : advance ⟨fresh, p :: rest⟩ rest v = g)
    (hr : (Search.run d hold g v.search).Quiet s') :
    (Search.run d hold ⟨fresh, p :: rest⟩ s).Quiet s' := by
  rw [run_cons]
  subst hg
  exact Noted.quiet_bind.mpr ⟨v, hv, hr⟩

theorem quiet_ofDiagram {is : List Nat} {t : BlockTable α} {f : Frontier Port}
    (hsinks : sinks d = is)
    (hstart : (Search.start d hold is {} ⟨d.allOutports, []⟩).Quiet (t, f))
    (hr : (Search.run d hold f { blocks := t }).Quiet s) : (ofDiagram d hold).Quiet s := by
  subst hsinks
  exact Noted.quiet_bind.mpr ⟨(t, f), hstart, hr⟩

theorem Recorded.start {is : List Nat} {t u : BlockTable α} {f g : Frontier Port}
    (h : Recorded d t) (hs : (Search.start d hold is t f).Quiet (u, g)) : Recorded d u := by
  induction is generalizing t f with
  | nil =>
    cases Noted.quiet_pure.mp hs
    exact h
  | cons i is ih =>
    obtain ⟨b, hb, hs⟩ := Noted.quiet_bind.mp hs
    obtain ⟨drivers, _, hs⟩ := Noted.quiet_bind.mp hs
    exact ih (h.push hb) hs

theorem recorded_ofDiagram (h : (ofDiagram d hold).Quiet s) : Recorded d s.blocks := by
  unfold ofDiagram at h
  obtain ⟨⟨blocks, f⟩, hstart, hrun⟩ := Noted.quiet_bind.mp h
  have hblocks := Recorded.start (fun _ hb => absurd hb List.not_mem_nil) hstart
  exact Recorded.run (s := { blocks }) hblocks hrun

end Search

namespace Network

open WireTable

theorem agree_linkAliases {β : Type} {view : Wire α → β}
    (hview : ∀ w a, view { w with aliasOf := a } = view w) {d : Diagram} {links : List Link}
    {t u : WireTable α} (h : linkAliases d links t = .ok u) : t.Agree view u := by
  induction links generalizing t with
  | nil =>
    cases h
    exact .refl _
  | cons l links ih =>
    unfold linkAliases at h
    split at h
    split at h
    · cases h
    · split at h
      · refine Agree.trans ?_ (ih h)
        exact agree_modify t l.wire fun w => hview w _
      · cases h

/-- A wire keeps its alias unless links start there; it is then an alias of where one of them ends. -/
theorem aliasOf_linkAliases {d : Diagram} {links : List Link} {t u : WireTable α}
    (h : linkAliases d links t = .ok u) {i : Nat} {w : Wire α} (hw : u.wires[i]? = some w) :
    (∃ v, t.wires[i]? = some v ∧ w.aliasOf = v.aliasOf ∧ ∀ l ∈ links, l.wire ≠ i) ∨
      ∃ l ∈ links, l.wire = i ∧ ∃ first, t.first? l.tap.1 = some first ∧
        w.aliasOf = some (first + l.tap.2) := by
  induction links generalizing t with
  | nil =>
    cases h
    exact .inl ⟨w, hw, rfl, List.forall_mem_nil _⟩
  | cons l links ih =>
    obtain ⟨wire, p, sub⟩ := l
    unfold linkAliases at h
    simp only at h
    cases hp : t.first? p with
    | none =>
      rw [hp] at h
      cases h
    | some first =>
      rw [hp] at h
      by_cases hlt : wire < t.size
      · simp only [hlt, if_true] at h
        obtain ⟨v, hv, halias, hrest⟩ | ⟨l, hl, hwire, start, hstart, halias⟩ := ih h
        · rw [getElem?_modify] at hv
          obtain ⟨v₀, hv₀, rfl⟩ := Option.map_eq_some_iff.mp hv
          by_cases hi : wire = i
          · refine .inr ⟨_, List.mem_cons_self, hi, first, hp, ?_⟩
            rw [halias, if_pos hi]
          · refine .inl ⟨v₀, hv₀, ?_, List.forall_mem_cons.mpr ⟨hi, hrest⟩⟩
            rw [halias, if_neg hi]
        · exact .inr ⟨l, List.mem_cons_of_mem _ hl, hwire, start, hstart, halias⟩
      · simp only [hlt, if_false] at h
        cases h

structure Wires (d : Diagram) (t : WireTable α) (b c : TracedBlock α) : Prop where
  source_eq : c.source = b.source
  kind_eq : c.kind = b.kind
  system_eq : c.system = b.system
  hold_eq : c.hold = b.hold
  sinkPhases_eq : c.sinkPhases = b.sinkPhases
  outputs_eq : c.outputs = (d.outports b.source).flatMap t.portIndices
  inputs_lt : ∀ i ∈ c.inputs, i < t.size

theorem wires_wireBlock {d : Diagram} {t : WireTable α} {b c : TracedBlock α}
    (h : wireBlock d t b = .ok c) : Wires d t b c := by
  unfold wireBlock at h
  simp only at h
  split at h
  · cases h
    exact ⟨rfl, rfl, rfl, rfl, rfl, rfl, fun i hi => nomatch hi⟩
  · obtain ⟨inputs, hi, h⟩ := except_bind_eq_ok.mp h
    obtain ⟨ps, _, hi⟩ := except_bind_eq_ok.mp hi
    cases hi
    cases h
    refine ⟨rfl, rfl, rfl, rfl, rfl, rfl, fun i hi => ?_⟩
    obtain ⟨p, _, hp⟩ := List.mem_flatMap.mp hi
    exact portIndices_lt hp

theorem nodup_outports (d : Diagram) (i : Nat) : (d.outports i).Nodup :=
  List.nodup_range.map fun a b h => by simpa using h

/-- Blocks and wires as a search has found them, findings or none. Every wire is the alias of a scalar
that some rerouting outport routes to it, if there is any. -/
structure Linked (n : Network α) : Prop where
  kinds : ∀ k b, n.block? k = some b → b.kind = BlockKind.of (n.diagram.block b.source)
  sources : (n.blocks.blocks.map (·.source)).Nodup
  registered : n.wires.Registered n.diagram
  owner : ∀ (i : Nat) w, n.wires.wires[i]? = some w →
    ∃ b, n.block? w.block = some b ∧ b.source = w.port.block
  outputs : ∀ k b, n.block? k = some b →
    b.outputs = (n.diagram.outports b.source).flatMap n.wires.portIndices
  inputs : ∀ k b, n.block? k = some b → ∀ i ∈ b.inputs, i < n.wires.size
  aliases : ∀ (i : Nat) w, n.wires.wires[i]? = some w →
    (w.aliasOf = none ∧ ∀ s, ¬ n.wires.Routes n.diagram i s) ∨
      ∃ s first, n.wires.Routes n.diagram i s ∧ n.wires.first? s.1 = some first ∧
        w.aliasOf = some (first + s.2)
  routed : ∀ p first, n.wires.first? p = some first → n.diagram.reroutes p = true →
    ∃ taps, n.diagram.route p = .ok taps

/-- A wire that is routed becomes an alias of a scalar it is routed to, and no other wire becomes one. -/
theorem routes_linkAliases {d : Diagram} {s : Search α} {t : WireTable α} (hs : s.Sound d)
    (ht : linkAliases d s.links s.wires = .ok t) {i : Nat} {w : Wire α} (hw : t.wires[i]? = some w) :
    (w.aliasOf = none ∧ ∀ tap, ¬ t.Routes d i tap) ∨
      ∃ tap first, t.Routes d i tap ∧ t.first? tap.1 = some first ∧
        w.aliasOf = some (first + tap.2) := by
  have hagree : s.wires.Agree Wire.tap t := agree_linkAliases (fun _ _ => rfl) ht
  obtain ⟨v, hv, halias, hrest⟩ | ⟨l, hl, hwire, first, hfirst, halias⟩ := aliasOf_linkAliases ht hw
  · refine .inl ⟨halias.trans (hs.plain v (List.mem_of_getElem? hv)).alias_eq, ?_⟩
    rintro tap ⟨p, first, taps, j, hp, hr, htaps, hj, hi⟩
    rw [hagree.first?_eq] at hp
    obtain ⟨taps', htaps', hlinks⟩ := hs.routed p first hp hr
    cases htaps.symm.trans htaps'
    exact hrest _ (hlinks j tap hj) hi.symm
  · refine .inr ⟨l.tap, first, ?_, ?_, halias⟩
    · rw [← hwire]
      exact (Routes.agree hagree).mpr (hs.links l hl)
    · rw [hagree.first?_eq]
      exact hfirst

/-- A network of what a search has found, taken apart. -/
theorem ofSearch_eq_ok {d : Diagram} {s : Search α} {n : Network α} (h : ofSearch d s = .ok n) :
    n.diagram = d ∧ linkAliases d s.links s.wires = .ok n.wires ∧
      s.blocks.blocks.mapM (wireBlock d n.wires) = .ok n.blocks.blocks := by
  unfold ofSearch at h
  obtain ⟨t, ht, h⟩ := except_bind_eq_ok.mp h
  obtain ⟨blocks, hblocks, h⟩ := except_bind_eq_ok.mp h
  cases h
  exact ⟨rfl, ht, hblocks⟩

section Wired

variable {d : Diagram} {s : Search α} {n : Network α} (h : ofSearch d s = .ok n)

include h

theorem exists_wires_block? {k : Nat} {c : TracedBlock α} (hc : n.block? k = some c) :
    ∃ b, s.blocks.blocks[k]? = some b ∧ Wires d n.wires b c := by
  obtain ⟨b, hb, hw⟩ := except_mapM_getElem? (ofSearch_eq_ok h).2.2 hc
  exact ⟨b, hb, wires_wireBlock hw⟩

theorem exists_wires_of_mem {c : TracedBlock α} (hc : c ∈ n.blocks.blocks) :
    ∃ b ∈ s.blocks.blocks, Wires d n.wires b c := by
  obtain ⟨b, hb, hw⟩ := except_mapM_mem (ofSearch_eq_ok h).2.2 hc
  exact ⟨b, hb, wires_wireBlock hw⟩

/-- The blocks of a network are those that a search has recorded. -/
theorem recorded_ofSearch : n.blocks.blocks.map (fun b => (b.source, b.kind)) =
    s.blocks.blocks.map fun b => (b.source, b.kind) := by
  refine except_mapM_map (fun b c hc => ?_) (ofSearch_eq_ok h).2.2
  have hw := wires_wireBlock hc
  rw [hw.source_eq, hw.kind_eq]

theorem sources_ofSearch :
    n.blocks.blocks.map (·.source) = s.blocks.blocks.map (·.source) :=
  except_mapM_map (fun _ _ hc => (wires_wireBlock hc).source_eq) (ofSearch_eq_ok h).2.2

theorem linked_ofSearch (hs : s.Sound d) :
    n.diagram = d ∧ n.Linked ∧ n.wires.Agree Wire.isOutside s.wires := by
  obtain ⟨hd, ht, _⟩ := ofSearch_eq_ok h
  have hagree : s.wires.Agree (fun w => (w.block, w.tap)) n.wires :=
    agree_linkAliases (fun _ _ => rfl) ht
  have hsources := sources_ofSearch h
  subst hd
  refine ⟨rfl, ?_, (agree_linkAliases (fun _ _ => rfl) ht).symm⟩
  exact {
    kinds := by
      intro k c hc
      obtain ⟨b, hb, hw⟩ := exists_wires_block? h hc
      rw [hw.kind_eq, hw.source_eq]
      exact hs.kinds b (List.mem_of_getElem? hb)
    sources := by
      rw [hsources]
      exact hs.sources
    registered := hs.registered.agree (hagree.comp Prod.snd)
    owner := by
      intro i w hw
      obtain ⟨v, hv, hview⟩ := hagree.exists_getElem? hw
      have hblock : v.block = w.block := congrArg Prod.fst hview
      have hport : v.port = w.port := congrArg (·.2.1) hview
      obtain ⟨b, hb, hsource⟩ := hs.owner v (List.mem_of_getElem? hv)
      have hc : (n.blocks.blocks.map (·.source))[w.block]? = some w.port.block := by
        rw [hsources, List.getElem?_map, ← hblock, hb, ← hport, ← hsource]
        rfl
      rw [List.getElem?_map] at hc
      exact Option.map_eq_some_iff.mp hc
    outputs := by
      intro k c hc
      obtain ⟨b, _, hw⟩ := exists_wires_block? h hc
      rw [hw.source_eq]
      exact hw.outputs_eq
    inputs := by
      intro k c hc
      obtain ⟨b, _, hw⟩ := exists_wires_block? h hc
      exact hw.inputs_lt
    aliases := fun i w hw => routes_linkAliases hs ht hw
    routed := by
      intro p first hp hr
      rw [hagree.first?_eq] at hp
      obtain ⟨taps, htaps, _⟩ := hs.routed p first hp hr
      exact ⟨taps, htaps⟩ }

end Wired

/-- Marks, bounds and costs change nothing of it. -/
theorem Linked.agree {n m : Network α} (h : n.Linked) (hd : m.diagram = n.diagram)
    (hb : m.blocks = n.blocks) (hw : n.wires.Agree Wire.signal m.wires) : m.Linked := by
  obtain ⟨diagram, blocks, wires⟩ := m
  cases hd
  cases hb
  exact {
    kinds := h.kinds
    sources := h.sources
    registered := h.registered.agree (hw.comp fun v => v.2.1)
    owner := by
      intro i v hv
      obtain ⟨w, hget, hview⟩ := hw.exists_getElem? hv
      have hblock : w.block = v.block := congrArg Prod.fst hview
      have hport : w.port = v.port := congrArg (·.2.1.1) hview
      rw [← hblock, ← hport]
      exact h.owner i w hget
    outputs := by
      intro k b hk
      rw [(hw.comp fun v => v.2.1.1).portIndices_eq]
      exact h.outputs k b hk
    inputs := by
      intro k b hk i hi
      rw [hw.size_eq]
      exact h.inputs k b hk i hi
    aliases := by
      intro i v hv
      obtain ⟨w, hget, hview⟩ := hw.exists_getElem? hv
      have halias : w.aliasOf = v.aliasOf := congrArg (·.2.2) hview
      rw [hw.first?_eq, ← halias]
      simp only [Routes.agree hw]
      exact h.aliases i w hget
    routed := by
      rw [hw.first?_eq]
      exact h.routed }

section Linked

variable {n : Network α} (h : n.Linked) {k : Nat} {b : TracedBlock α}

include h

theorem Linked.inside (k : Nat) (b : TracedBlock α) (hb : n.block? k = some b) (i : Nat)
    (hi : i ∈ b.inputs ++ b.outputs) : i < n.wires.size := by
  rcases List.mem_append.mp hi with hi | hi
  · exact h.inputs k b hb i hi
  · rw [h.outputs k b hb] at hi
    obtain ⟨p, _, hp⟩ := List.mem_flatMap.mp hi
    exact portIndices_lt hp

theorem Linked.nodup (k : Nat) (b : TracedBlock α) (hb : n.block? k = some b) : b.outputs.Nodup := by
  rw [h.outputs k b hb]
  exact nodup_flatMap_portIndices n.wires (nodup_outports n.diagram b.source)

/-- Blocks of one place in the diagram are one. -/
theorem Linked.source_inj {j : Nat} {c : TracedBlock α} (hb : n.block? k = some b)
    (hc : n.block? j = some c) (he : b.source = c.source) : k = j := by
  have hk : (n.blocks.blocks.map (·.source))[k]? = some b.source := by
    rw [List.getElem?_map]
    exact congrArg _ hb
  have hj : (n.blocks.blocks.map (·.source))[j]? = some b.source := by
    rw [List.getElem?_map, he]
    exact congrArg _ hc
  exact (List.getElem?_inj (List.getElem?_eq_some_iff.mp hk).1 h.sources).mp (hk.trans hj.symm)

/-- The wires that leave a block are its own. -/
theorem Linked.owned (hb : n.block? k = some b) {i : Nat} (hi : i ∈ b.outputs) :
    ∃ w, n.wires.wires[i]? = some w ∧ w.block = k := by
  rw [h.outputs k b hb] at hi
  obtain ⟨p, hp, hi⟩ := List.mem_flatMap.mp hi
  obtain ⟨w, hw, rfl⟩ := mem_portIndices hi
  obtain ⟨c, hc, hsource⟩ := h.owner i w hw
  exact ⟨w, hw, h.source_inj hc hb (hsource.trans (Diagram.mem_outports hp))⟩

end Linked

theorem isOutside_flag (k : BlockKind) (w : Wire α) :
    (flag k w).isOutside = (w.isOutside || k.isBoundary) := by
  cases k <;> simp [flag, Wire.isOutside, BlockKind.isBoundary]

/-- Marking the wires of some blocks, one after the other. -/
theorem outsideAt_setFlags (bs : List (TracedBlock α)) (t : WireTable α) :
    let u := bs.foldl (fun t b => t.modifyAll b.outputs (flag b.kind)) t
    u.size = t.size ∧ ∀ j, u.outsideAt j = true ↔
      t.outsideAt j = true ∨ (j < t.size ∧ ∃ b ∈ bs, b.kind.isBoundary = true ∧ j ∈ b.outputs) := by
  induction bs generalizing t with
  | nil => simp
  | cons b bs ih =>
    obtain ⟨h₁, h₂⟩ := WireTable.outsideAt_modifyAll (isOutside_flag b.kind) t b.outputs
    obtain ⟨k₁, k₂⟩ := ih (t.modifyAll b.outputs (flag b.kind))
    refine ⟨k₁.trans h₁, fun j => (k₂ j).trans ?_⟩
    rw [h₂, h₁, List.exists_mem_cons_iff]
    tauto

section Views

variable {β : Type} {view : Wire α → β}

theorem agree_setFlags (hview : ∀ k w, view (flag k w) = view w) (n : Network α) :
    n.wires.Agree view n.setFlags.wires :=
  agree_foldl (fun t (b : TracedBlock α) => agree_modifyAll t b.outputs (hview b.kind)) _ _

theorem agree_bindWires (hview : ∀ w p l u, view (w.tighten p l u) = view w) (phases : PhaseSet)
    (t : WireTable α) (wires : List Nat) (lower upper : List Float) :
    t.Agree view (bindWires phases t wires lower upper) := by
  have htighten (ps : List MajorPhase) (l u : Limit α) (w : Wire α) :
      view (ps.foldl (fun w p => w.tighten p l u) w) = view w := by
    induction ps generalizing w with
    | nil => rfl
    | cons p ps ih => exact (ih (w.tighten p l u)).trans (hview w p l u)
  refine agree_foldl (fun t (e : Nat × Float × Float) => ?_) _ t
  exact agree_modify t e.1 fun w => htighten _ _ _ w

theorem agree_collectBound (hview : ∀ w p l u, view (w.tighten p l u) = view w) {n : Network α}
    {b : TracedBlock α} {t u : WireTable α} (h : (n.collectBound t b).result = .ok u) :
    t.Agree view u := by
  unfold collectBound at h
  obtain ⟨lower, _, h⟩ := Noted.result_bind.mp h
  obtain ⟨upper, _, h⟩ := Noted.result_bind.mp h
  split at h
  · cases h
    exact agree_bindWires hview _ _ _ _ _
  · cases h
    exact .refl _

theorem agree_collectBounds (hview : ∀ w p l u, view (w.tighten p l u) = view w) {n m : Network α}
    (h : n.collectBounds.result = .ok m) :
    m.diagram = n.diagram ∧ m.blocks = n.blocks ∧ n.wires.Agree view m.wires := by
  unfold collectBounds at h
  obtain ⟨wires, hw, h⟩ := Noted.result_bind.mp h
  cases h
  refine ⟨rfl, rfl, ?_⟩
  have hfold (bs : List (TracedBlock α)) (t : WireTable α)
      (hq : (bs.foldlM n.collectBound t).result = .ok wires) : t.Agree view wires := by
    induction bs generalizing t with
    | nil =>
      cases hq
      exact .refl _
    | cons b bs ih =>
      rw [List.foldlM_cons] at hq
      obtain ⟨u, hu, hq⟩ := Noted.result_bind.mp hq
      exact (agree_collectBound hview hu).trans (ih u hq)
  exact hfold _ _ hw

theorem agree_collectCosts (hview : ∀ w p c, view (w.addCost p c) = view w) (n : Network α) :
    n.wires.Agree view n.collectCosts.wires := by
  have hcost (ps : List MajorPhase) (w : Wire α) :
      view (ps.foldl (fun w p => w.addCost p 1) w) = view w := by
    induction ps generalizing w with
    | nil => rfl
    | cons p ps ih => exact (ih (w.addCost p 1)).trans (hview w p 1)
  refine agree_foldl (fun t (b : TracedBlock α) => ?_) _ _
  exact agree_modifyAll t b.inputs fun w => hcost _ w

end Views

theorem quiet_expect {n : Network α} {b : TracedBlock α} {ok : Bool} {f : Finding α} {u : Unit} :
    (n.expect b ok f).Quiet u ↔ ok = true := by
  cases ok with
  | true => exact ⟨fun _ => rfl, fun _ => rfl⟩
  | false => exact ⟨fun h => absurd h Noted.not_quiet_note, fun h => nomatch h⟩

/-- A block without a finding has as many wires as its ports are wide. -/
theorem quiet_checkBlock {n : Network α} {k : Nat} {b : TracedBlock α}
    (h : (n.checkBlock k b).Quiet ()) (hr : b.kind.isReroute = false) :
    (∃ width : Int, totalWidth n.diagram (n.diagram.outports b.source) = .ok width ∧
      (b.outputs.length : Int) = width) ∧
    (b.kind.isBoundary = false → ∃ width : Int,
      totalWidth n.diagram (n.diagram.inports b.source) = .ok width ∧
        (b.inputs.length : Int) = width) := by
  unfold checkBlock at h
  rw [hr] at h
  obtain ⟨outputs, ho, h⟩ := Noted.quiet_bind.mp h
  obtain ⟨_, hcheck, h⟩ := Noted.quiet_bind.mp h
  obtain ⟨_, hcount, _⟩ := Noted.quiet_bind.mp hcheck
  refine ⟨⟨outputs, Noted.quiet_lift.mp ho, by simpa using quiet_expect.mp hcount⟩, fun hb => ?_⟩
  rw [hb] at h
  obtain ⟨inputs, hi, h⟩ := Noted.quiet_bind.mp h
  obtain ⟨_, hcount, _⟩ := Noted.quiet_bind.mp h
  exact ⟨inputs, Noted.quiet_lift.mp hi, by simpa using quiet_expect.mp hcount⟩

/-- A trace is what a search has found, wired, with marks, bounds and costs on the wires. -/
theorem exists_wired {d : Diagram} {hold : Hold} {n : Network α}
    (h : (traceMeasured d hold).result = .ok n) : ∃ (s : Search α) (wired : Network α),
      (Search.ofDiagram d hold).result = .ok s ∧ ofSearch d s = .ok wired ∧
        n.diagram = wired.diagram ∧ n.blocks = wired.blocks ∧
        wired.wires.Agree Wire.signal n.wires := by
  unfold traceMeasured at h
  obtain ⟨search, hsearch, h⟩ := Noted.result_bind.mp h
  obtain ⟨wired, hwired, h⟩ := Noted.result_bind.mp h
  obtain ⟨bounded, hbounded, h⟩ := Noted.result_bind.mp h
  obtain ⟨_, _, h⟩ := Noted.result_bind.mp h
  cases h
  have hview (w : Wire α) p l u : (w.tighten p l u).signal = w.signal := rfl
  obtain ⟨hdiagram, hblocks, hbound⟩ := agree_collectBounds hview hbounded
  have hsignal := (agree_setFlags (fun _ _ => rfl) wired).trans
    (hbound.trans (agree_collectCosts (fun _ _ _ => rfl) bounded))
  exact ⟨search, wired, hsearch, hwired, hdiagram, hblocks, hsignal⟩

/-- What tracing a diagram puts into a network: besides blocks and wires as they were found, exactly
the wires that leave inputs from outside are marked. -/
structure Traced (n : Network α) : Prop extends n.Linked where
  outside : ∀ i, n.wires.outsideAt i = true ↔ i < n.wires.size ∧
    ∃ k b, n.block? k = some b ∧ b.kind.isBoundary = true ∧ i ∈ b.outputs

theorem traced_traceMeasured {d : Diagram} {hold : Hold} {n : Network α}
    (h : (traceMeasured d hold).result = .ok n) : n.diagram = d ∧ n.Traced := by
  unfold traceMeasured at h
  obtain ⟨search, hsearch, h⟩ := Noted.result_bind.mp h
  obtain ⟨wired, hwired, h⟩ := Noted.result_bind.mp h
  obtain ⟨bounded, hbounded, h⟩ := Noted.result_bind.mp h
  obtain ⟨_, _, h⟩ := Noted.result_bind.mp h
  cases h
  have hsound := Search.sound_ofDiagram hsearch
  obtain ⟨hd, hlinked, hplain⟩ := linked_ofSearch hwired hsound
  let view (w : Wire α) := (w.signal, w.isOutside)
  have hview (w : Wire α) p l u : view (w.tighten p l u) = view w := rfl
  obtain ⟨hdiagram, hblocks, hbound⟩ := agree_collectBounds hview hbounded
  have hmarked := hbound.trans (agree_collectCosts (fun _ _ _ => rfl) bounded)
  have hsignal := (agree_setFlags (fun _ _ => rfl) wired).trans (hmarked.comp Prod.fst)
  obtain ⟨hsize, houtside⟩ := outsideAt_setFlags wired.blocks.blocks wired.wires
  refine ⟨hdiagram.trans hd, hlinked.agree hdiagram hblocks hsignal, fun i => ?_⟩
  have hunmarked : wired.wires.outsideAt i = false := by
    rw [← hplain.outsideAt_eq, outsideAt]
    cases hi : search.wires.wires[i]? with
    | none => rfl
    | some w => exact (hsound.plain w (List.mem_of_getElem? hi)).inside
  have hblock (k : Nat) : bounded.collectCosts.block? k = wired.blocks.blocks[k]? :=
    congrArg (fun bs : BlockTable α => bs.blocks[k]?) hblocks
  rw [(hmarked.comp Prod.snd).outsideAt_eq, hsignal.size_eq]
  refine (houtside i).trans ?_
  rw [hunmarked]
  constructor
  · rintro (h | ⟨hlt, b, hb, hk, hi⟩)
    · cases h
    · obtain ⟨k, hkb⟩ := List.mem_iff_getElem?.mp hb
      exact ⟨hlt, k, b, (hblock k).trans hkb, hk, hi⟩
  · rintro ⟨hlt, k, b, hb, hk, hi⟩
    exact .inr ⟨hlt, b, List.mem_of_getElem? ((hblock k).symm.trans hb), hk, hi⟩

/-- Primitives with one wire for every column and row of their expression, and delays that hold their
values. -/
structure Complete (n : Network α) : Prop where
  expression : ∀ k b, n.block? k = some b → b.kind = .primitive → ∃ E : System α,
    n.diagram.expression b.source = .ok E ∧ E.Proper ∧ b.system = E.closed ∧
      b.inputs.length = E.width ∧ b.outputs.length = E.equations.length
  hold : ∀ k b, n.block? k = some b → b.kind = .delay → b.hold = some .zeroOrder

/-- The expression of a primitive reads its inputs and gives its outputs. -/
theorem Complete.fits {n : Network α} (h : n.Complete) {k : Nat} {b : TracedBlock α} {E : System α}
    (hb : n.block? k = some b) (hk : b.kind = .primitive)
    (hE : n.diagram.expression b.source = .ok E) :
    E.Proper ∧ b.inputs.length = E.width ∧ b.outputs.length = E.equations.length := by
  obtain ⟨E', hE', hproper, _, hin, hout⟩ := h.expression k b hb hk
  obtain rfl := Except.ok.inj (hE'.symm.trans hE)
  exact ⟨hproper, hin, hout⟩

/-- A trace without a finding leaves no block incomplete. -/
theorem complete_traceMeasured {d : Diagram} {hold : Hold} {n : Network α}
    (h : (traceMeasured d hold).Quiet n) : n.Complete := by
  obtain ⟨hd, _⟩ := traced_traceMeasured (congrArg Noted.result h)
  unfold traceMeasured at h
  obtain ⟨search, hsearch, h⟩ := Noted.quiet_bind.mp h
  obtain ⟨wired, hwired, h⟩ := Noted.quiet_bind.mp h
  obtain ⟨bounded, hbounded, h⟩ := Noted.quiet_bind.mp h
  obtain ⟨_, hcheck, h⟩ := Noted.quiet_bind.mp h
  obtain rfl := Noted.quiet_pure.mp h
  have hrecorded := Search.recorded_ofDiagram hsearch
  have hview (w : Wire α) p l u : (w.tighten p l u).signal = w.signal := rfl
  obtain ⟨_, hkept, _⟩ := agree_collectBounds hview (congrArg Noted.result hbounded)
  have hwires (k : Nat) (b : TracedBlock α) (hb : bounded.collectCosts.block? k = some b) :
      ∃ b₀, d.Records b₀.source b₀ ∧ Wires d wired.wires b₀ b := by
    have hget : wired.block? k = some b := by
      rw [← hb]
      exact (congrArg (fun bs : BlockTable α => bs.blocks[k]?) hkept).symm
    obtain ⟨b₀, hb₀, hw⟩ := exists_wires_block? (Noted.quiet_lift.mp hwired) hget
    exact ⟨b₀, hrecorded b₀ (List.mem_of_getElem? hb₀), hw⟩
  constructor
  · intro k b hb hkind
    obtain ⟨b₀, hrec, hw⟩ := hwires k b hb
    have hsystem := hrec.system_eq (hw.kind_eq.symm.trans hkind)
    obtain ⟨E, hE, hclosed, ⟨ws, hws, hsum⟩, hout⟩ := Diagram.equations_eq_ok hsystem
    have hquiet := quiet_checkBlock (Noted.quiet_forM.mp hcheck (k, b) (mem_entries.mpr hb))
      (by rw [hkind]; rfl)
    obtain ⟨⟨width, hwidth, houtputs⟩, hinputs⟩ := hquiet
    obtain ⟨total, htotal, hin⟩ := hinputs (by rw [hkind]; rfl)
    rw [hd, hw.source_eq] at hwidth htotal
    rw [hd, hw.source_eq]
    refine ⟨E, hE, Diagram.proper_expression hE, hw.system_eq.trans hclosed, ?_, ?_⟩
    · have : total = Diagram.sumWidths ws := Except.ok.inj (htotal.symm.trans (by
        rw [totalWidth, show (d.inports b₀.source).mapM d.portWidth = .ok ws from hws]; rfl))
      omega
    · have : width = (E.equations.length : Int) := Except.ok.inj (hwidth.symm.trans hout)
      omega
  · intro k b hb hkind
    obtain ⟨b₀, hrec, hw⟩ := hwires k b hb
    rw [hw.hold_eq]
    exact hrec.hold_eq (hw.kind_eq.symm.trans hkind)

structure Netted (n : Network α) : Prop extends n.Linked where
  outside : ∀ i < n.wires.size, n.wires.outsideAt i = true ↔
    ∃ k b, n.block? k = some b ∧ b.kind.isBoundary = true ∧
      ∃ j ∈ b.outputs, n.wires.netOf j = n.wires.netOf i
  dense : ∀ net < n.wires.netCount, ∃ i < n.wires.size, n.wires.netOf i = net

structure Wired (n : Network α) : Prop extends n.Netted, n.Complete

/-- A net has at most one wire of a block that reroutes nothing. -/
def SingleSourced (n : Network α) : Prop :=
  ∀ (i j : Nat) (w v : Wire α) (b c : TracedBlock α), n.wires.wires[i]? = some w →
    n.wires.wires[j]? = some v → w.net = v.net → n.block? w.block = some b → n.block? v.block = some c →
      b.kind.isReroute = false → c.kind.isReroute = false → i = j

/-- Wires on nets of their own share none. -/
theorem singleSourced_of_nodup {n : Network α} (h : (n.wires.wires.map (·.net)).Nodup) :
    n.SingleSourced := by
  intro i j w v b c hw hv hnet _ _ _ _
  have hi : (n.wires.wires.map (·.net))[i]? = some w.net := by rw [List.getElem?_map, hw]; rfl
  have hj : (n.wires.wires.map (·.net))[j]? = some w.net := by
    rw [List.getElem?_map, hv, hnet]
    rfl
  exact (List.getElem?_inj (List.getElem?_eq_some_iff.mp hi).1 h).mp (hi.trans hj.symm)

/-- Merging wires into nets leaves all wires in place. -/
theorem netted_mergeWires {d : Diagram} {hold : Hold} {n m : Network α} {count : Nat}
    (hn : (traceMeasured d hold).result = .ok n) (hm : (Run.mergeWires n).result = .ok (count, m)) :
    m.Netted ∧ m.diagram = d ∧ m.blocks = n.blocks := by
  obtain ⟨hd, ht⟩ := traced_traceMeasured hn
  obtain ⟨⟨_, wires⟩, hw, hm⟩ := Noted.result_bind.mp hm
  cases hm
  have hmerge := merged_of_canonicalize hw
  refine ⟨⟨ht.toLinked.agree rfl rfl hmerge.agree, ?_, ?_⟩, hd, rfl⟩
  · intro i hi
    rw [hmerge.agree.size_eq] at hi
    rw [hmerge.outsideAt_iff i hi]
    constructor
    · rintro ⟨j, _, hnet, hj⟩
      obtain ⟨_, k, b, hb, hk, hmem⟩ := (ht.outside j).mp hj
      exact ⟨k, b, hb, hk, j, hmem, hnet⟩
    · rintro ⟨k, b, hb, hk, j, hmem, hnet⟩
      have hlt := ht.inside k b hb j (List.mem_append_right _ hmem)
      exact ⟨j, hlt, hnet, (ht.outside j).mpr ⟨hlt, k, b, hb, hk, hmem⟩⟩
  · intro net hnet
    obtain ⟨i, hi, he⟩ := hmerge.dense net hnet
    exact ⟨i, hmerge.agree.size_eq.symm ▸ hi, he⟩

theorem wired_mergeWires {d : Diagram} {hold : Hold} {n m : Network α} {count : Nat}
    (hn : (traceMeasured d hold).Quiet n) (hm : (Run.mergeWires n).result = .ok (count, m)) :
    m.Wired ∧ m.diagram = d := by
  obtain ⟨hnetted, hd, hblocks⟩ := netted_mergeWires (congrArg Noted.result hn) hm
  obtain ⟨hd', _⟩ := traced_traceMeasured (congrArg Noted.result hn)
  have hcomplete := complete_traceMeasured hn
  have hblock (k : Nat) : m.block? k = n.block? k :=
    congrArg (fun bs : BlockTable α => bs.blocks[k]?) hblocks
  refine ⟨⟨hnetted, ?_, ?_⟩, hd⟩
  · intro k b hb
    rw [hd, ← hd']
    exact hcomplete.expression k b ((hblock k).symm.trans hb)
  · intro k b hb
    exact hcomplete.hold k b ((hblock k).symm.trans hb)

variable {n : Network α}

theorem Netted.group_ne_nil (h : n.Netted) {net : Nat} (hn : net < n.wires.netCount) :
    n.wires.group net ≠ [] := by
  obtain ⟨i, hi, rfl⟩ := h.dense net hn
  have hget := List.getElem?_eq_getElem hi
  refine List.ne_nil_of_mem (a := n.wires.wires[i]) (List.mem_filter.mpr ⟨List.getElem_mem hi, ?_⟩)
  exact decide_eq_true (netOf_eq hget).symm

theorem Linked.netOf_lt (h : n.Linked) {k : Nat} {b : TracedBlock α} (hb : n.block? k = some b) {i : Nat}
    (hi : i ∈ b.inputs ++ b.outputs) : n.wires.netOf i < n.wires.netCount :=
  WireTable.netOf_lt (h.inside k b hb i hi)

/-- Outputs on one net are one output of one block. -/
theorem Linked.output_unique (h : n.Linked) (hs : n.SingleSourced) {j k : Nat} {b c : TracedBlock α}
    (hb : n.block? j = some b) (hc : n.block? k = some c) (hbr : b.kind.isReroute = false)
    (hcr : c.kind.isReroute = false) {i l : Nat} (hi : i ∈ b.outputs) (hl : l ∈ c.outputs)
    (hnet : n.wires.netOf i = n.wires.netOf l) : i = l ∧ j = k := by
  obtain ⟨w, hw, rfl⟩ := h.owned hb hi
  obtain ⟨v, hv, rfl⟩ := h.owned hc hl
  rw [netOf_eq hw, netOf_eq hv] at hnet
  have hil := hs i l w v b c hw hv hnet hb hc hbr hcr
  subst hil
  exact ⟨rfl, congrArg Wire.block (Option.some.inj (hw.symm.trans hv))⟩

theorem Netted.driven (h : n.Netted) (hs : n.SingleSourced) : n.Driven where
  inside k b hb i hi := h.netOf_lt hb hi
  single j b k c hb hc hbr hcr i hi l hl hnet := (h.output_unique hs hb hc hbr hcr hi hl hnet).2
  outside w hw hflag := by
    obtain ⟨i, hi⟩ := List.mem_iff_getElem?.mp hw
    have hlt := (List.getElem?_eq_some_iff.mp hi).1
    have ho : n.wires.outsideAt i = true := by
      rw [outsideAt, hi]
      exact hflag
    obtain ⟨k, b, hb, hk, j, hj, hnet⟩ := (h.outside i hlt).mp ho
    exact ⟨k, b, hb, hk, j, hj, hnet.trans (netOf_eq hi)⟩

theorem netOf_withLiveness (n : Network α) (live : List PhaseSet) :
    (n.withLiveness live).wires.netOf = n.wires.netOf := by
  funext i
  simp only [netOf, withLiveness, List.getElem?_map, Option.map_map]
  rfl

theorem netCount_withLiveness (n : Network α) (live : List PhaseSet) :
    (n.withLiveness live).wires.netCount = n.wires.netCount := by
  simp [withLiveness, netCount, Function.comp_def]

theorem Netted.group_withLiveness (h : n.Netted) (live : List PhaseSet) {net : Nat}
    (hn : net < n.wires.netCount) : (n.withLiveness live).wires.group net ≠ [] := by
  obtain ⟨w, hw⟩ := List.exists_mem_of_ne_nil _ (h.group_ne_nil hn)
  obtain ⟨hmem, hnet⟩ := List.mem_filter.mp hw
  refine List.ne_nil_of_mem (List.mem_filter.mpr ⟨List.mem_map_of_mem hmem, ?_⟩)
  exact hnet

end Network

end Transcription
