import Mathlib
import Transcription.Network.Trace
import Transcription.Proofs.Block.Recording
import Transcription.Proofs.Network.Rules
import Transcription.Proofs.Wire.Nets

namespace Transcription

variable {α : Type} [Scalar α]

def Diagram.reroutes (d : Diagram) (p : Port) : Bool := (BlockKind.of (d.block p.block)).isReroute

structure Wire.Plain (w : Wire α) : Prop where
  alias_eq : w.aliasOf = none
  inside : w.isOutside = false
  lower_eq : w.lower = .constant .negInf
  upper_eq : w.upper = .constant .posInf
  cost_eq : w.rawCost = .constant 0

namespace WireTable

/-- Outports that are registered have a wire for each of their scalars, and all wires are theirs. -/
structure Registered (d : Diagram) (t : WireTable α) : Prop where
  wire_of_port : ∀ p first, t.first? p = some first → ∃ width, d.portWidth p = .ok width ∧
    ∀ sub < width.toNat, ∃ w, t.wires[first + sub]? = some w ∧ w.tap = (p, (sub : Int))
  port_of_wire : ∀ i w, t.wires[i]? = some w → ∃ first width, t.first? w.port = some first ∧
    d.portWidth w.port = .ok width ∧ w.sub < width.toNat ∧ i = first + w.sub

/-- No two wires carry one scalar. -/
theorem Registered.tap_inj {d : Diagram} {t : WireTable α} (h : t.Registered d) {i j : Nat}
    {w v : Wire α} (hw : t.wires[i]? = some w) (hv : t.wires[j]? = some v) (he : w.tap = v.tap) :
    i = j := by
  obtain ⟨first, _, hfirst, _, _, rfl⟩ := h.port_of_wire i w hw
  obtain ⟨start, _, hstart, _, _, rfl⟩ := h.port_of_wire j v hv
  have hport : w.port = v.port := congrArg Prod.fst he
  have hsub : (w.sub : Int) = v.sub := congrArg Prod.snd he
  rw [hport, hstart] at hfirst
  cases hfirst
  omega

def Routes (d : Diagram) (t : WireTable α) (i : Nat) (s : Diagram.Tap) : Prop :=
  ∃ p first taps j, t.first? p = some first ∧ d.reroutes p = true ∧ d.route p = .ok taps ∧
    taps[j]? = some s ∧ i = first + j

/-- Registering an outport changes nothing if it is registered, and adds its wires at the end
otherwise. -/
theorem addPort_cases (t : WireTable α) (block : Nat) (p : Port) (width : Int) :
    (∃ first, t.first? p = some first ∧ t.addPort block p width = (first, t)) ∨
      (t.first? p = none ∧ t.addPort block p width =
        (t.size, ⟨t.wires ++ newWires block p width.toNat t.size, t.firsts ++ [(p, t.size)]⟩)) := by
  unfold addPort
  cases hp : t.first? p with
  | some first => exact .inl ⟨first, rfl, rfl⟩
  | none => exact .inr ⟨rfl, rfl⟩

theorem first?_append (t : WireTable α) (ws : List (Wire α)) (p q : Port) (first : Nat) :
    (⟨ws, t.firsts ++ [(p, first)]⟩ : WireTable α).first? q =
      (t.first? q).or (if q = p then some first else none) := by
  unfold first?
  rw [List.lookup_append]
  congr 1
  by_cases hq : q = p
  · simp [hq]
  · have hne : (q == p) = false := by simpa using hq
    simp [List.lookup_cons, hq, hne]

theorem getElem?_newWires {block : Nat} {p : Port} {width first i : Nat} {w : Wire α} :
    (newWires block p width first)[i]? = some w ↔
      i < width ∧ { block, port := p, sub := i, net := first + i } = w := by
  unfold newWires
  by_cases hi : i < width <;> simp [hi]

theorem first?_addPort (t : WireTable α) (block : Nat) (p : Port) (width : Int) :
    (t.addPort block p width).2.first? p = some (t.addPort block p width).1 := by
  obtain ⟨first, hp, he⟩ | ⟨hp, he⟩ := t.addPort_cases block p width
  · rw [he, hp]
  · rw [he, first?_append, hp]
    simp

/-- Outports stay where they were registered. -/
theorem first?_addPort_of_some {t : WireTable α} {q : Port} {start : Nat} (h : t.first? q = some start)
    (block : Nat) (p : Port) (width : Int) : (t.addPort block p width).2.first? q = some start := by
  obtain ⟨first, _, he⟩ | ⟨_, he⟩ := t.addPort_cases block p width
  · rw [he, h]
  · rw [he, first?_append, h]
    rfl

/-- Registering an outport registers no other one. -/
theorem first?_addPort_cases {t : WireTable α} {block : Nat} {p q : Port} {width : Int} {start : Nat}
    (h : (t.addPort block p width).2.first? q = some start) : t.first? q = some start ∨ q = p := by
  obtain ⟨first, _, he⟩ | ⟨_, he⟩ := t.addPort_cases block p width
  · rw [he] at h
    exact .inl h
  · rw [he, first?_append] at h
    by_cases hq : q = p
    · exact .inr hq
    · simpa [hq] using h

/-- The wires after registering an outport: those from before, and new ones that name it. -/
theorem mem_addPort {t : WireTable α} {block : Nat} {p : Port} {width : Int} {w : Wire α}
    (h : w ∈ (t.addPort block p width).2.wires) :
    w ∈ t.wires ∨ (w.block = block ∧ w.port = p ∧ w.Plain) := by
  obtain ⟨first, _, he⟩ | ⟨_, he⟩ := t.addPort_cases block p width
  · rw [he] at h
    exact .inl h
  · rw [he] at h
    rcases List.mem_append.mp h with h | h
    · exact .inl h
    · obtain ⟨sub, _, rfl⟩ := List.mem_map.mp h
      exact .inr ⟨rfl, rfl, rfl, rfl, rfl, rfl, rfl⟩

theorem Registered.addPort {d : Diagram} {t : WireTable α} (h : t.Registered d) (block : Nat) {p : Port}
    {width : Int} (hwidth : d.portWidth p = .ok width) :
    (t.addPort block p width).2.Registered d := by
  obtain ⟨first, _, he⟩ | ⟨hp, he⟩ := t.addPort_cases block p width
  · rw [he]
    exact h
  rw [he]
  constructor
  · intro q start hq
    rw [first?_append] at hq
    by_cases hqp : q = p
    · subst hqp
      simp only [hp, if_true, Option.none_or, Option.some.injEq] at hq
      subst hq
      refine ⟨width, hwidth, fun sub hsub => ?_⟩
      have hplace : t.size + sub - t.wires.length = sub := Nat.add_sub_cancel_left _ _
      refine ⟨{ block, port := q, sub, net := t.size + sub }, ?_, rfl⟩
      refine (List.getElem?_append_right (Nat.le_add_right t.size sub)).trans ?_
      rw [hplace]
      exact getElem?_newWires.mpr ⟨hsub, rfl⟩
    · simp only [hqp, if_false, Option.or_none] at hq
      obtain ⟨width', hw, hwires⟩ := h.wire_of_port q start hq
      refine ⟨width', hw, fun sub hsub => ?_⟩
      obtain ⟨w, hget, htap⟩ := hwires sub hsub
      refine ⟨w, ?_, htap⟩
      rw [List.getElem?_append_left (List.getElem?_eq_some_iff.mp hget).1]
      exact hget
  · intro i w hw
    by_cases hi : i < t.wires.length
    · rw [List.getElem?_append_left hi] at hw
      obtain ⟨start, width', hstart, hrest⟩ := h.port_of_wire i w hw
      refine ⟨start, width', ?_, hrest⟩
      rw [first?_append, hstart]
      rfl
    · rw [List.getElem?_append_right (Nat.le_of_not_lt hi)] at hw
      obtain ⟨hlt, rfl⟩ := getElem?_newWires.mp hw
      refine ⟨t.size, width, ?_, hwidth, hlt, ?_⟩
      · rw [first?_append, hp]
        simp
      · simp only [size]
        omega

/-- Tables that show the same scalars register the same outports. -/
theorem Registered.agree {d : Diagram} {t u : WireTable α} (h : t.Registered d)
    (hu : t.Agree Wire.tap u) : u.Registered d where
  wire_of_port p first hp := by
    rw [hu.first?_eq] at hp
    obtain ⟨width, hwidth, hwires⟩ := h.wire_of_port p first hp
    refine ⟨width, hwidth, fun sub hsub => ?_⟩
    obtain ⟨w, hw, htap⟩ := hwires sub hsub
    obtain ⟨v, hv, htap'⟩ := hu.symm.exists_getElem? hw
    exact ⟨v, hv, htap'.trans htap⟩
  port_of_wire i v hv := by
    obtain ⟨w, hw, htap⟩ := hu.exists_getElem? hv
    have hport : w.port = v.port := congrArg Prod.fst htap
    have hsub : (w.sub : Int) = v.sub := congrArg Prod.snd htap
    obtain ⟨first, width, hfirst, hwidth, hlt, rfl⟩ := h.port_of_wire i w hw
    rw [hport] at hfirst hwidth
    rw [hu.first?_eq]
    exact ⟨first, width, hfirst, hwidth, by omega, by omega⟩

theorem Routes.agree {β : Type} {view : Wire α → β} {d : Diagram} {t u : WireTable α}
    (hu : t.Agree view u) {i : Nat} {s : Diagram.Tap} : u.Routes d i s ↔ t.Routes d i s := by
  rw [Routes, Routes, hu.first?_eq]

end WireTable

theorem Diagram.mem_outports {d : Diagram} {i : Nat} {p : Port} (h : p ∈ d.outports i) :
    p.block = i := by
  obtain ⟨_, _, rfl⟩ := List.mem_map.mp h
  rfl

/-- A block with some reference is not found under another one. -/
theorem Search.nodup_sinks (d : Diagram) : (Search.sinks d).Nodup := by
  have hnodup (r : String) : (d.ofReference r).Nodup := List.nodup_range.filter _
  refine List.nodup_append.mpr ⟨hnodup _, hnodup _, ?_⟩
  intro i hi j hj he
  subst he
  have hreference {r : String} (h : i ∈ d.ofReference r) : (d.block i).reference = some r := by
    have := (List.mem_filter.mp h).2
    cases hr : (d.block i).reference with
    | none => simp [hr] at this
    | some s => simpa [hr] using this
  have := (hreference hi).symm.trans (hreference hj)
  simp [Diagram.boundReference, Diagram.costReference] at this

omit [Scalar α] in
theorem BlockTable.find?_eq_some {t : BlockTable α} {source i : Nat} {b : TracedBlock α}
    (h : t.find? source = some (i, b)) : t.blocks[i]? = some b ∧ b.source = source :=
  ⟨mem_entries.mp (List.mem_of_find?_eq_some h), by simpa using List.find?_some h⟩

omit [Scalar α] in
theorem BlockTable.find?_eq_none {t : BlockTable α} {source : Nat} (h : t.find? source = none) :
    source ∉ t.blocks.map (·.source) := by
  intro hmem
  obtain ⟨b, hb, rfl⟩ := List.mem_map.mp hmem
  obtain ⟨k, hk⟩ := List.mem_iff_getElem?.mp hb
  simpa using List.find?_eq_none.mp h _ (mem_entries.mpr hk)

namespace Search

variable {d : Diagram} {hold : Hold} {s : Search α}

/-- What every search keeps: blocks are recorded once and with their kind, wires name the block they
leave, and links are those of the rerouting outports that are registered. -/
structure Sound (d : Diagram) (s : Search α) : Prop where
  recorded : ∀ b ∈ s.blocks.blocks, ∃ hold, (d.record hold b.source).result = .ok b
  sources : (s.blocks.blocks.map (·.source)).Nodup
  registered : s.wires.Registered d
  owner : ∀ w ∈ s.wires.wires, ∃ b, s.blocks.blocks[w.block]? = some b ∧ b.source = w.port.block
  plain : ∀ w ∈ s.wires.wires, w.Plain
  links : ∀ l ∈ s.links, s.wires.Routes d l.wire l.tap
  routed : ∀ p first, s.wires.first? p = some first → d.reroutes p = true →
    ∃ taps, d.route p = .ok taps ∧ ∀ j tap, taps[j]? = some tap → ⟨first + j, tap⟩ ∈ s.links

theorem Sound.kinds (h : s.Sound d) (b : TracedBlock α) (hb : b ∈ s.blocks.blocks) :
    b.kind = BlockKind.of (d.block b.source) := by
  obtain ⟨hold, hrec⟩ := h.recorded b hb
  exact (Diagram.record_eq hrec).2

theorem Sound.push (h : s.Sound d) {b : TracedBlock α}
    (hrec : (d.record hold b.source).result = .ok b)
    (hnew : b.source ∉ s.blocks.blocks.map (·.source)) :
    ({ s with blocks := s.blocks.push b } : Search α).Sound d where
  recorded c hc := by
    rcases List.mem_append.mp hc with hc | hc
    · exact h.recorded c hc
    · rw [List.mem_singleton.mp hc]
      exact ⟨hold, hrec⟩
  sources := by
    have hpush : (s.blocks.push b).blocks.map (·.source) =
        s.blocks.blocks.map (·.source) ++ [b.source] := by simp [BlockTable.push]
    rw [hpush]
    exact List.nodup_append.mpr ⟨h.sources, List.nodup_singleton _, fun x hx y hy he => hnew (by
      rw [← List.mem_singleton.mp hy, ← he]
      exact hx)⟩
  registered := h.registered
  owner w hw := by
    obtain ⟨c, hc, hsource⟩ := h.owner w hw
    refine ⟨c, ?_, hsource⟩
    exact (List.getElem?_append_left (List.getElem?_eq_some_iff.mp hc).1).trans hc
  plain := h.plain
  links := h.links
  routed := h.routed

/-- Registering an outport of a recorded block, with links for the scalars it routes. -/
theorem Sound.addPort (h : s.Sound d) {i : Nat} {b : TracedBlock α} {p : Port} {width : Int}
    {links : List Link} (hb : s.blocks.blocks[i]? = some b) (hsource : b.source = p.block)
    (hwidth : d.portWidth p = .ok width)
    (hlinks : ∀ l ∈ links, (s.wires.addPort i p width).2.Routes d l.wire l.tap)
    (hrouted : d.reroutes p = true → ∃ taps, d.route p = .ok taps ∧ ∀ j tap, taps[j]? = some tap →
      ⟨(s.wires.addPort i p width).1 + j, tap⟩ ∈ links) :
    ({ s with wires := (s.wires.addPort i p width).2, links := s.links ++ links } : Search α).Sound
      d where
  recorded := h.recorded
  sources := h.sources
  registered := h.registered.addPort i hwidth
  owner w hw := by
    rcases WireTable.mem_addPort hw with hw | ⟨hblock, hport, _⟩
    · exact h.owner w hw
    · exact ⟨b, by rw [hblock]; exact hb, by rw [hport]; exact hsource⟩
  plain w hw := by
    rcases WireTable.mem_addPort hw with hw | ⟨_, _, hplain⟩
    · exact h.plain w hw
    · exact hplain
  links l hl := by
    rcases List.mem_append.mp hl with hl | hl
    · obtain ⟨q, first, taps, j, hq, hrest⟩ := h.links l hl
      exact ⟨q, first, taps, j, WireTable.first?_addPort_of_some hq i p width, hrest⟩
    · exact hlinks l hl
  routed q first hq hr := by
    by_cases hqp : q = p
    · subst hqp
      obtain ⟨taps, hroute, htaps⟩ := hrouted hr
      rw [WireTable.first?_addPort] at hq
      cases hq
      exact ⟨taps, hroute, fun j tap hj => List.mem_append_right _ (htaps j tap hj)⟩
    · rcases WireTable.first?_addPort_cases hq with hq | hq
      · obtain ⟨taps, hroute, htaps⟩ := h.routed q first hq hr
        exact ⟨taps, hroute, fun j tap hj => List.mem_append_left _ (htaps j tap hj)⟩
      · exact absurd hq hqp

theorem mem_linksFrom {first : Nat} {taps : List Diagram.Tap} {l : Link} :
    l ∈ linksFrom first taps ↔ ∃ j, taps[j]? = some l.tap ∧ l.wire = first + j := by
  constructor
  · intro h
    obtain ⟨⟨tap, j⟩, hj, rfl⟩ := List.mem_map.mp h
    exact ⟨j, List.mem_zipIdx_iff_getElem?.mp hj, rfl⟩
  · intro ⟨j, hj, hwire⟩
    refine List.mem_map.mpr ⟨(l.tap, j), List.mem_zipIdx_iff_getElem?.mpr hj, ?_⟩
    exact congrArg (Link.mk · l.tap) hwire.symm

theorem Sound.visitReroute (h : s.Sound d) {i : Nat} {b : TracedBlock α} {p : Port} {v : Visit α}
    (hb : s.blocks.blocks[i]? = some b) (hsource : b.source = p.block) (hr : d.reroutes p = true)
    (hv : s.visitReroute d i p = .ok v) : v.search.Sound d := by
  unfold Search.visitReroute at hv
  obtain ⟨width, hwidth, hv⟩ := except_bind_eq_ok.mp hv
  obtain ⟨taps, htaps, hv⟩ := except_bind_eq_ok.mp hv
  cases hv
  apply h.addPort hb hsource hwidth
  · intro l hl
    obtain ⟨j, hj, hwire⟩ := mem_linksFrom.mp hl
    exact ⟨p, _, taps, j, WireTable.first?_addPort _ _ _ _, hr, htaps, hj, hwire⟩
  · intro _
    exact ⟨taps, htaps, fun j tap hj => mem_linksFrom.mpr ⟨j, hj, rfl⟩⟩

theorem Sound.registerAll {i : Nat} {b : TracedBlock α} {ports : List Port} {t : WireTable α}
    (h : s.Sound d) (hb : s.blocks.blocks[i]? = some b)
    (hports : ∀ p ∈ ports, b.source = p.block ∧ d.reroutes p = false)
    (ht : registerAll d i s.wires ports = .ok t) : ({ s with wires := t } : Search α).Sound d := by
  unfold Search.registerAll at ht
  induction ports generalizing s with
  | nil =>
    cases ht
    exact h
  | cons p ports ih =>
    obtain ⟨⟨hsource, hr⟩, hrest⟩ := List.forall_mem_cons.mp hports
    rw [List.foldlM_cons] at ht
    obtain ⟨u, hu, ht⟩ := except_bind_eq_ok.mp ht
    obtain ⟨width, hwidth, hu⟩ := except_bind_eq_ok.mp hu
    cases hu
    have hadd : ({ s with wires := (s.wires.addPort i p width).2 } : Search α).Sound d := by
      have := h.addPort hb hsource hwidth (List.forall_mem_nil _) (by rw [hr]; exact nofun)
      simpa using this
    exact ih (s := { s with wires := (s.wires.addPort i p width).2 }) hadd hb hrest ht

theorem Sound.visitBlock (h : s.Sound d) {i : Nat} {b : TracedBlock α} {v : Visit α}
    (hb : s.blocks.blocks[i]? = some b) (hr : b.kind.isReroute = false)
    (hv : s.visitBlock d i b = .ok v) : v.search.Sound d := by
  unfold Search.visitBlock at hv
  obtain ⟨wires, hw, hv⟩ := except_bind_eq_ok.mp hv
  have hports : ∀ p ∈ d.outports b.source, b.source = p.block ∧ d.reroutes p = false := by
    intro p hp
    have hblock := Diagram.mem_outports hp
    refine ⟨hblock.symm, ?_⟩
    rw [Diagram.reroutes, hblock, ← h.kinds b (List.mem_of_getElem? hb), hr]
  have hsound := h.registerAll hb hports hw
  split at hv
  all_goals
    obtain ⟨next, _, hv⟩ := except_bind_eq_ok.mp hv
    cases hv
    exact hsound

theorem Sound.visit (h : s.Sound d) {p : Port} {v : Visit α}
    (hv : (s.visit d hold p).result = .ok v) : v.search.Sound d := by
  unfold Search.visit at hv
  split at hv
  · rename_i i b hfind
    obtain ⟨hb, hsource⟩ := BlockTable.find?_eq_some hfind
    split at hv
    · rename_i hr
      refine h.visitReroute hb hsource ?_ hv
      rw [Diagram.reroutes, ← hsource, ← h.kinds b (List.mem_of_getElem? hb), hr]
    · cases hv
      exact h
  · rename_i hfind
    obtain ⟨b, hrecord, hv⟩ := Noted.result_bind.mp hv
    obtain ⟨hsource, hkind⟩ := Diagram.record_eq hrecord
    have hpush := h.push (b := b) (by rw [hsource]; exact hrecord)
      (by rw [hsource]; exact BlockTable.find?_eq_none hfind)
    have hb : (s.blocks.push b).blocks[s.blocks.size]? = some b :=
      List.getElem?_concat_length
    simp only at hv
    split at hv
    · rename_i hr
      exact hpush.visitReroute hb hsource (by rw [Diagram.reroutes, ← hkind, hr]) hv
    · rename_i hr
      exact hpush.visitBlock hb (Bool.eq_false_iff.mpr hr) hv

/-- What every visit keeps of a search, a run keeps. -/
theorem run_keeps {P : Search α → Prop}
    (hvisit : ∀ {s p v}, P s → (s.visit d hold p).result = .ok v → P v.search) {f : Frontier Port}
    {s' : Search α} (h : P s) (hr : (Search.run d hold f s).result = .ok s') : P s' := by
  fun_induction Search.run d hold f s with
  | case1 f s hq =>
    cases hr
    exact h
  | case2 f s p rest hq ih =>
    obtain ⟨v, hv, hr⟩ := Noted.result_bind.mp hr
    exact ih v (hvisit h hv) hr

theorem Sound.run {f : Frontier Port} {s' : Search α} (h : s.Sound d)
    (hr : (Search.run d hold f s).result = .ok s') : s'.Sound d :=
  run_keeps (fun h hv => h.visit hv) h hr

omit [Scalar α] in
/-- A block that is recorded leaves the others unrecorded. -/
theorem not_mem_sources_push {t : BlockTable α} {b : TracedBlock α} {j : Nat}
    (hj : j ∉ t.blocks.map (·.source)) (hne : j ≠ b.source) :
    j ∉ (t.push b).blocks.map (·.source) := by
  intro hmem
  obtain ⟨c, hc, rfl⟩ := List.mem_map.mp hmem
  rcases List.mem_append.mp hc with hc | hc
  · exact hj (List.mem_map_of_mem hc)
  · exact hne (congrArg _ (List.mem_singleton.mp hc))

theorem Sound.start {is : List Nat} {t : BlockTable α} {f : Frontier Port}
    {r : BlockTable α × Frontier Port} (h : ({ blocks := t } : Search α).Sound d) (his : is.Nodup)
    (hnew : ∀ i ∈ is, i ∉ t.blocks.map (·.source))
    (hs : (Search.start d hold is t f).result = .ok r) : ({ blocks := r.1 } : Search α).Sound d := by
  induction is generalizing t f with
  | nil =>
    cases hs
    exact h
  | cons i is ih =>
    obtain ⟨b, hb, hs⟩ := Noted.result_bind.mp hs
    obtain ⟨drivers, _, hs⟩ := Noted.result_bind.mp hs
    obtain ⟨hsource, _⟩ := Diagram.record_eq hb
    obtain ⟨hi, hrest⟩ := List.nodup_cons.mp his
    have hpush := h.push (b := b) (by rw [hsource]; exact hb)
      (by rw [hsource]; exact hnew i List.mem_cons_self)
    refine ih hpush hrest (fun j hj => ?_) hs
    refine not_mem_sources_push (hnew j (List.mem_cons_of_mem _ hj)) ?_
    rintro rfl
    exact hi (hsource ▸ hj)

theorem sound_empty : ({ blocks := {} } : Search α).Sound d where
  recorded _ hb := nomatch hb
  sources := List.nodup_nil
  registered := {
    wire_of_port := fun _ _ hp => by cases hp
    port_of_wire := fun _ _ hw => by cases hw }
  owner _ hw := nomatch hw
  plain _ hw := nomatch hw
  links _ hl := nomatch hl
  routed _ _ hp := by cases hp

theorem sound_ofDiagram (h : (ofDiagram d hold).result = .ok s) : s.Sound d := by
  unfold ofDiagram at h
  obtain ⟨⟨blocks, f⟩, hstart, hrun⟩ := Noted.result_bind.mp h
  have hsinks := sound_empty.start (nodup_sinks d) (fun _ _ => List.not_mem_nil) hstart
  exact hsinks.run hrun

end Search

end Transcription
