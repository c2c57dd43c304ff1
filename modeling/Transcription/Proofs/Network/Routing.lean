import Transcription.Proofs.Network.Wiring

namespace Transcription

open Relation

variable {α : Type} [Scalar α]

namespace Diagram

def upstream? (d : Diagram) (s : Tap) : Option Tap :=
  if d.reroutes s.1 && 0 ≤ s.2 then
    match d.route s.1 with
    | .ok taps => taps[s.2.toNat]?
    | .error _ => none
  else none

def Upstream (d : Diagram) (s t : Tap) : Prop := d.upstream? s = some t

/-- Scalars that are followed up to one scalar, which leaves a block that reroutes nothing or stands
on a cycle. -/
def SameSignal (d : Diagram) (s t : Tap) : Prop :=
  ∃ e, ReflTransGen d.Upstream s e ∧ ReflTransGen d.Upstream t e ∧
    (d.reroutes e.1 = false ∨ TransGen d.Upstream e e)

theorem upstream?_eq_some {d : Diagram} {p : Port} {sub : Nat} {t : Tap} :
    d.upstream? (p, sub) = some t ↔
      d.reroutes p = true ∧ ∃ taps, d.route p = .ok taps ∧ taps[sub]? = some t := by
  unfold upstream?
  cases hr : d.reroutes p with
  | false => simp
  | true =>
    cases d.route p with
    | error e => simp
    | ok taps => simp

end Diagram

namespace Network

/-- An outport that was reached carries these scalars of others. -/
def Carries (n : Network α) (p : Port) (taps : List Diagram.Tap) : Prop :=
  (n.wires.first? p).isSome = true ∧ n.diagram.reroutes p = true ∧ n.diagram.route p = .ok taps

/-- Outports carry no more scalars of others than they are wide, and only such that exist. -/
structure RoutesWithin (n : Network α) : Prop where
  count : ∀ p taps width, n.Carries p taps → n.diagram.portWidth p = .ok width →
    (taps.length : Int) ≤ width
  scalar : ∀ p taps, n.Carries p taps → ∀ s ∈ taps,
    ∃ width, n.diagram.portWidth s.1 = .ok width ∧ 0 ≤ s.2 ∧ s.2 < width

structure RoutesFit (n : Network α) : Prop extends n.RoutesWithin where
  full : ∀ p taps width, n.Carries p taps → n.diagram.portWidth p = .ok width →
    width ≤ (taps.length : Int)

variable {n : Network α}

theorem Linked.reroutes_eq (h : n.Linked) {i : Nat} {w : Wire α} (hw : n.wires.wires[i]? = some w)
    {b : TracedBlock α} (hb : n.block? w.block = some b) :
    n.diagram.reroutes w.port = b.kind.isReroute := by
  obtain ⟨c, hc, hsource⟩ := h.owner i w hw
  cases hb.symm.trans hc
  rw [Diagram.reroutes, ← hsource, h.kinds w.block b hb]

section Within

variable (h : n.Linked) (hr : n.RoutesWithin) {i : Nat} {w : Wire α}
  (hw : n.wires.wires[i]? = some w)

include h hr hw

/-- What is routed to a wire is what its own scalar comes from. -/
theorem Linked.routes_iff {s : Diagram.Tap} :
    n.wires.Routes n.diagram i s ↔ n.diagram.upstream? w.tap = some s := by
  unfold Wire.tap
  rw [Diagram.upstream?_eq_some]
  constructor
  · intro ⟨p, first, taps, j, hp, hreroutes, htaps, hj, hi⟩
    obtain ⟨width, hwidth, hwires⟩ := h.registered.wire_of_port p first hp
    have hcount := hr.count p taps width ⟨Option.isSome_of_eq_some hp, hreroutes, htaps⟩ hwidth
    have hlt := (List.getElem?_eq_some_iff.mp hj).1
    obtain ⟨v, hv, htap⟩ := hwires j (by omega)
    rw [← hi] at hv
    cases hw.symm.trans hv
    have hport : w.port = p := congrArg Prod.fst htap
    have hsub : (w.sub : Int) = j := congrArg Prod.snd htap
    rw [hport, Int.ofNat_inj.mp hsub]
    exact ⟨hreroutes, taps, htaps, hj⟩
  · intro ⟨hreroutes, taps, htaps, hj⟩
    obtain ⟨first, width, hfirst, _, _, hi⟩ := h.registered.port_of_wire i w hw
    exact ⟨w.port, first, taps, w.sub, hfirst, hreroutes, htaps, hj, hi⟩

/-- A wire is an alias of the wire of the scalar that its own comes from, and of none if there is no
such scalar. -/
theorem Linked.aliasOf_cases :
    (n.diagram.upstream? w.tap = none ∧ w.aliasOf = none) ∨
      ∃ (j : Nat) (v : Wire α), n.wires.wires[j]? = some v ∧ n.diagram.Upstream w.tap v.tap ∧
        w.aliasOf = some (j : Int) := by
  rcases h.aliases i w hw with ⟨halias, hnone⟩ | ⟨s, first, hs, hfirst, halias⟩
  · refine .inl ⟨?_, halias⟩
    rw [Option.eq_none_iff_forall_ne_some]
    intro s hs
    exact hnone s ((h.routes_iff hr hw).mpr hs)
  · refine .inr ?_
    have hup := (h.routes_iff hr hw).mp hs
    obtain ⟨p, start, taps, j, hp, hreroutes, htaps, hj, _⟩ := hs
    obtain ⟨width, hwidth, hle, hlt⟩ := hr.scalar p taps
      ⟨Option.isSome_of_eq_some hp, hreroutes, htaps⟩ s (List.mem_of_getElem? hj)
    obtain ⟨width', hwidth', hwires⟩ := h.registered.wire_of_port s.1 first hfirst
    cases hwidth.symm.trans hwidth'
    obtain ⟨v, hv, htap⟩ := hwires s.2.toNat (by omega)
    have htap' : v.tap = s := by rw [htap, Int.toNat_of_nonneg hle]
    refine ⟨first + s.2.toNat, v, hv, htap' ▸ hup, ?_⟩
    rw [halias, Nat.cast_add, Int.toNat_of_nonneg hle]

end Within

/-- Aliases stay among the wires that are routed. Where outports route no more scalars than they are
wide, only wires of rerouting blocks are aliases, each of the very scalar that is routed to it. -/
theorem aliases_are_upstream {d : Diagram} {hold : Hold} {n : Network α}
    (ht : (d.trace hold).result = .ok n) (hr : n.RoutesWithin) {i : Nat} {w : Wire α}
    (hw : n.wires.wires[i]? = some w) :
    (∃ b, n.block? w.block = some b ∧ (b.kind.isReroute = false → w.aliasOf = none)) ∧
      ∀ target, w.aliasOf = some target → ∃ (j : Nat) (v : Wire α), target = (j : Int) ∧
        n.wires.wires[j]? = some v ∧ n.diagram.upstream? w.tap = some v.tap := by
  obtain ⟨_, htraced⟩ := traced_traceMeasured ht
  have h := htraced.toLinked
  have hcases := h.aliasOf_cases hr hw
  constructor
  · obtain ⟨b, hb, _⟩ := h.owner i w hw
    refine ⟨b, hb, fun hreroute => ?_⟩
    rcases hcases with ⟨_, halias⟩ | ⟨j, v, _, hup, _⟩
    · exact halias
    · have hreroutes := (Diagram.upstream?_eq_some.mp hup).1
      rw [h.reroutes_eq hw hb, hreroute] at hreroutes
      cases hreroutes
  · intro target htarget
    rcases hcases with ⟨_, halias⟩ | ⟨j, v, hv, hup, halias⟩
    · cases htarget.symm.trans halias
    · cases htarget.symm.trans halias
      exact ⟨j, v, rfl, hv, hup⟩

end Network

namespace MuxLoop

/-- A held value and an input side by side, of which the first goes back to be held. The dimensions of
the two together are declared or left to be worked out. -/
def diagram (declared : Option Dims) : Diagram where
  name := "loop"
  workspace := []
  blocks := #[
    ⟨"b", "SubSystem", "loop/b", some "InputFromWorkspace", none, [], 0, [none]⟩,
    ⟨"x", "UnitDelay", "loop/x", none, none, [], 1, [none]⟩,
    ⟨"mux", "Mux", "loop/mux", none, none, [], 2, [declared]⟩,
    ⟨"demux", "Demux", "loop/demux", none, none, [], 1, [none, none]⟩,
    ⟨"cost", "SubSystem", "loop/cost", some "DiscreteCost", none, [], 1, []⟩]
  lines := [⟨⟨1, .outport, 1⟩, ⟨2, .inport, 1⟩⟩, ⟨⟨0, .outport, 1⟩, ⟨2, .inport, 2⟩⟩,
    ⟨⟨2, .outport, 1⟩, ⟨3, .inport, 1⟩⟩, ⟨⟨3, .outport, 1⟩, ⟨1, .inport, 1⟩⟩,
    ⟨⟨2, .outport, 1⟩, ⟨4, .inport, 1⟩⟩]

def out (i : Nat) : Port := ⟨i, .outport, 1⟩

/-- The dimensions of all outports. Nothing in the loop is known unless some of it is declared, so all
of it is taken to be scalar. -/
def dimensions : Bool → Diagram.Known
  | true => [(out 1, [1, 1]), (⟨3, .outport, 2⟩, [1, 1]), (out 3, [1, 1]), (out 0, [1, 1]),
      (out 2, [1, 2])]
  | false => [(out 1, [1, 1]), (out 2, [1, 1]), (out 3, [1, 1]), (⟨3, .outport, 2⟩, [1, 1]),
      (out 0, [1, 1])]

theorem dimensions_declared : (diagram (some [1, 2])).dimensions = .ok (dimensions true) := by cbv

theorem dimensions_open : (diagram none).dimensions = .ok (dimensions false) := by cbv

def drawn (declared : Bool) : Diagram := diagram (if declared then some [1, 2] else none)

def measured (declared : Bool) : Diagram :=
  { drawn declared with compiled := some (dimensions declared) }

theorem measured_drawn (declared : Bool) : (drawn declared).measured = .ok (measured declared) := by
  have hdimensions : (drawn declared).dimensions = .ok (dimensions declared) := by
    cases declared with
    | true => exact dimensions_declared
    | false => exact dimensions_open
  rw [Diagram.measured, show (drawn declared).compiled = none from rfl, Diagram.compile, hdimensions]
  rfl

theorem prepared_drawn (declared : Bool) : (drawn declared).prepared = measured declared := by
  rw [Diagram.prepared, measured_drawn]

def block : Nat → TracedBlock ℚ
  | 0 => { source := 0, kind := .input, hold := some .zeroOrder }
  | 1 => { source := 1, kind := .delay, hold := some .zeroOrder }
  | 2 => { source := 2, kind := .mux }
  | 3 => { source := 3, kind := .demux }
  | _ => { source := 4, kind := .cost, sinkPhases := .majors }

theorem kind_input (declared : Bool) : BlockKind.of ((measured declared).block 0) = .input :=
  BlockKind.of_input rfl

theorem record_block (declared : Bool) {i : Nat} (hi : i < 5) :
    (measured declared).record .zeroOrder i = ⟨[], .ok (block i)⟩ := by
  obtain rfl | rfl | rfl | rfl | rfl : i = 0 ∨ i = 1 ∨ i = 2 ∨ i = 3 ∨ i = 4 := by omega
  · exact Diagram.record_plainInput rfl rfl rfl
  all_goals cases declared <;> cbv

def width (declared : Bool) : Nat := if declared then 2 else 1

def wires (declared : Bool) : List (Wire ℚ) :=
  (List.range (width declared)).map (fun sub => { block := 1, port := out 2, sub, net := sub }) ++
    [(2, 1), (3, 0), (4, 3)].zipIdx.map fun ((block, source), i) =>
      { block, port := out source, sub := 0, net := width declared + i }

def found (declared : Bool) (count : Nat) : Search ℚ where
  blocks := ⟨([4, 2, 1, 0, 3].map block).take (count + 1)⟩
  wires :=
    { wires := (wires declared).take (if count = 0 then 0 else width declared + (count - 1))
      firsts := [(out 2, 0), (out 1, width declared), (out 0, width declared + 1),
        (out 3, width declared + 2)].take count }
  links := [⟨0, (out 1, 0)⟩, ⟨1, (out 0, 0)⟩, ⟨width declared + 2, (out 2, 0)⟩].take
    (if count = 0 then 0 else if count < 4 then 2 else 3)

theorem visit_mux (declared : Bool) : ((found declared 0).visit (measured declared) .zeroOrder
    (out 2)).Quiet ⟨found declared 1, [], [out 1, out 0]⟩ := by
  refine Noted.quiet_bind.mpr ⟨_, record_block declared (by decide), ?_⟩
  cases declared <;> rfl

theorem visit_delay (declared : Bool) : ((found declared 1).visit (measured declared) .zeroOrder
    (out 1)).Quiet ⟨found declared 2, [out 1], [out 3]⟩ := by
  refine Noted.quiet_bind.mpr ⟨_, record_block declared (by decide), ?_⟩
  cases declared <;> rfl

theorem visit_input (declared : Bool) : ((found declared 2).visit (measured declared) .zeroOrder
    (out 0)).Quiet ⟨found declared 3, [out 0], []⟩ := by
  refine Noted.quiet_bind.mpr ⟨_, record_block declared (by decide), ?_⟩
  cases declared <;> rfl

theorem visit_demux (declared : Bool) : ((found declared 3).visit (measured declared) .zeroOrder
    (out 3)).Quiet ⟨found declared 4, [], [out 2]⟩ := by
  refine Noted.quiet_bind.mpr ⟨_, record_block declared (by decide), ?_⟩
  cases declared <;> rfl

theorem search_measured (declared : Bool) :
    (Search.ofDiagram (measured declared) .zeroOrder).Quiet (found declared 4) := by
  have hsinks : Search.sinks (measured declared) = [4] := by cases declared <;> cbv
  apply Search.quiet_ofDiagram (t := ⟨[block 4]⟩)
    (f := ⟨[out 0, out 1, out 3, ⟨3, .outport, 2⟩], [out 2]⟩) hsinks
  · refine Noted.quiet_bind.mpr ⟨_, record_block declared (i := 4) (by decide), ?_⟩
    cases declared <;> rfl
  refine Search.quiet_run_cons (g := ⟨[out 3, ⟨3, .outport, 2⟩], [out 1, out 0]⟩)
    (visit_mux declared) rfl ?_
  refine Search.quiet_run_cons (g := ⟨[⟨3, .outport, 2⟩], [out 0, out 3]⟩) (visit_delay declared) rfl ?_
  refine Search.quiet_run_cons (g := ⟨[⟨3, .outport, 2⟩], [out 3]⟩) (visit_input declared) rfl ?_
  refine Search.quiet_run_cons (g := ⟨[⟨3, .outport, 2⟩], []⟩) (visit_demux declared) rfl ?_
  exact Search.run_nil

/-- What the wires are aliases of. The two together route two scalars, and where they are taken to be
one the held value becomes an alias of the input. -/
def aliases : Bool → List (Option Int)
  | true => [some 2, some 3, none, none, some 0]
  | false => [some 1, some 2, none, some 0]

def traced (declared : Bool) : Network ℚ where
  diagram := measured declared
  blocks := ⟨[
    { block 4 with inputs := List.range (width declared) },
    { block 2 with outputs := List.range (width declared) },
    { block 1 with inputs := [width declared + 2], outputs := [width declared] },
    { block 0 with outputs := [width declared + 1] },
    { block 3 with outputs := [width declared + 2] }]⟩
  wires := {
    wires := List.zipWith (fun (w : Wire ℚ) (a : Option Int) => { w with aliasOf := a })
      ((List.range (width declared)).map (fun sub => {
        block := 1, port := out 2, sub, net := sub
        cost := .constant (0 + 1), rawCost := .constant (0 + 1) }) ++ [
      { block := 2, port := out 1, sub := 0, net := width declared, state := true },
      { block := 3, port := out 0, sub := 0, net := width declared + 1, input := true },
      { block := 4, port := out 3, sub := 0, net := width declared + 2 }]) (aliases declared)
    firsts := [(out 2, 0), (out 1, width declared), (out 0, width declared + 1),
      (out 3, width declared + 2)] }

theorem trace_drawn (declared : Bool) :
    ((drawn declared).trace .zeroOrder).Quiet (traced declared) := by
  rw [Diagram.trace, prepared_drawn]
  refine Noted.quiet_bind.mpr ⟨_, search_measured declared, ?_⟩
  cases declared <;> rfl

/-- With its width declared, the loop routes what it is wide. -/
theorem carries_cases {p : Port} {taps : List Diagram.Tap} (h : (traced true).Carries p taps) :
    (p = out 2 ∧ taps = [(out 1, 0), (out 0, 0)]) ∨ (p = out 3 ∧ taps = [(out 2, 0)]) := by
  obtain ⟨hreached, hreroutes, hroute⟩ := h
  have hdelay : (measured true).reroutes (out 1) = false := rfl
  have hinput : (measured true).reroutes (out 0) = false := by
    rw [Diagram.reroutes, show (out 0).block = 0 from rfl, kind_input]
    rfl
  have hroutes : (measured true).route (out 2) = .ok [(out 1, 0), (out 0, 0)] ∧
      (measured true).route (out 3) = .ok [(out 2, 0)] := ⟨rfl, rfl⟩
  obtain ⟨e, he, hp⟩ := List.lookup_isSome_iff.mp hreached
  obtain rfl : p = e.1 := by simpa using hp
  have hports : e.1 ∈ [out 2, out 1, out 0, out 3] := List.mem_map_of_mem (f := Prod.fst) he
  obtain heq | heq | heq | heq : e.1 = out 2 ∨ e.1 = out 1 ∨ e.1 = out 0 ∨ e.1 = out 3 := by
    simpa using hports
  all_goals rw [heq] at hreroutes hroute ⊢
  · exact .inl ⟨rfl, Except.ok.inj (hroute.symm.trans hroutes.1)⟩
  · exact absurd (hdelay.symm.trans hreroutes) (by decide)
  · exact absurd (hinput.symm.trans hreroutes) (by decide)
  · exact .inr ⟨rfl, Except.ok.inj (hroute.symm.trans hroutes.2)⟩

theorem routesFit : (traced true).RoutesFit := by
  have hwidths : (measured true).portWidth (out 2) = .ok 2 ∧ (measured true).portWidth (out 3) = .ok 1 ∧
      (measured true).portWidth (out 1) = .ok 1 ∧ (measured true).portWidth (out 0) = .ok 1 :=
    ⟨rfl, rfl, rfl, rfl⟩
  refine ⟨⟨?_, ?_⟩, ?_⟩
  · intro p taps width hp hwidth
    obtain ⟨rfl, rfl⟩ | ⟨rfl, rfl⟩ := carries_cases hp
    · cases hwidths.1.symm.trans hwidth
      decide
    · cases hwidths.2.1.symm.trans hwidth
      decide
  · intro p taps hp s hs
    obtain ⟨rfl, rfl⟩ | ⟨rfl, rfl⟩ := carries_cases hp
    · obtain rfl | rfl : s = (out 1, 0) ∨ s = (out 0, 0) := by simpa using hs
      · exact ⟨1, hwidths.2.2.1, by decide, by decide⟩
      · exact ⟨1, hwidths.2.2.2, by decide, by decide⟩
    · obtain rfl : s = (out 2, 0) := by simpa using hs
      exact ⟨2, hwidths.1, by decide, by decide⟩
  · intro p taps width hp hwidth
    obtain ⟨rfl, rfl⟩ | ⟨rfl, rfl⟩ := carries_cases hp
    · cases hwidths.1.symm.trans hwidth
      decide
    · cases hwidths.2.1.symm.trans hwidth
      decide

end MuxLoop

namespace Network

/-- The loop with its width declared: its first wire is an alias of the held value. -/
theorem aliases_are_upstream_loop :
    ((MuxLoop.drawn true).trace .zeroOrder : Noted ℚ _).result = .ok (MuxLoop.traced true) ∧
      (MuxLoop.traced true).RoutesWithin ∧
      ∃ w, (MuxLoop.traced true).wires.wires[0]? = some w ∧ w.aliasOf = some 2 ∧
        (∃ b, (MuxLoop.traced true).block? w.block = some b ∧
          (b.kind.isReroute = false → w.aliasOf = none)) ∧
        ∀ target, w.aliasOf = some target → ∃ (j : Nat) (v : Wire ℚ), target = (j : Int) ∧
          (MuxLoop.traced true).wires.wires[j]? = some v ∧
          (MuxLoop.traced true).diagram.upstream? w.tap = some v.tap := by
  have htrace := congrArg Noted.result (MuxLoop.trace_drawn true)
  have hwithin := MuxLoop.routesFit.toRoutesWithin
  exact ⟨htrace, hwithin, _, rfl, rfl, aliases_are_upstream htrace hwithin (i := 0) rfl⟩

/-- The loop with its width left to be worked out: no finding, and the wire of the held value is an
alias of the input. -/
theorem held_value_is_alias :
    ∃ (n : Network ℚ) (w : Wire ℚ) (b : TracedBlock ℚ),
      (MuxLoop.drawn false).trace .zeroOrder = ⟨[], .ok n⟩ ∧ n.wires.wires[1]? = some w ∧
        n.block? w.block = some b ∧ b.kind.isReroute = false ∧ w.aliasOf = some 2 :=
  ⟨_, _, _, MuxLoop.trace_drawn false, rfl, rfl, rfl, rfl⟩

variable {n : Network α}

def pointers (n : Network α) : List (Option Int) := n.wires.wires.map (·.aliasOf)

theorem length_pointers (n : Network α) : n.pointers.length = n.wires.size := List.length_map _

theorem getElem?_pointers {i : Nat} {w : Wire α} (hw : n.wires.wires[i]? = some w) :
    n.pointers[i]? = some w.aliasOf := by
  rw [pointers, List.getElem?_map, hw]
  rfl

theorem exists_wire {i : Nat} (hi : i < n.pointers.length) : ∃ w, n.wires.wires[i]? = some w := by
  rw [length_pointers] at hi
  exact ⟨_, List.getElem?_eq_getElem hi⟩

section Within

variable (h : n.Linked) (hr : n.RoutesWithin)

include h hr

/-- Where wires are aliases, their scalars come from. -/
theorem Linked.pointsAt_iff {i j : Nat} {w v : Wire α} (hw : n.wires.wires[i]? = some w)
    (hv : n.wires.wires[j]? = some v) :
    PointsAt n.pointers i j ↔ n.diagram.Upstream w.tap v.tap := by
  have hpos {k : Nat} {u : Wire α} (hu : n.wires.wires[k]? = some u) :
      position n.pointers.length (k : Int) = .ok k := by
    rw [length_pointers]
    exact position_natCast (List.getElem?_eq_some_iff.mp hu).1
  rcases h.aliasOf_cases hr hw with ⟨hnone, halias⟩ | ⟨k, u, hu, hup, halias⟩
  · constructor
    · intro ⟨target, htarget, _⟩
      rw [getElem?_pointers hw, halias] at htarget
      cases htarget
    · intro hup
      cases hnone.symm.trans hup
  · constructor
    · intro ⟨target, htarget, hj⟩
      rw [getElem?_pointers hw, halias] at htarget
      cases htarget
      cases (hpos hu).symm.trans hj
      cases hu.symm.trans hv
      exact hup
    · intro hup'
      have htap : u.tap = v.tap := Option.some.inj (hup.symm.trans hup')
      cases h.registered.tap_inj hu hv htap
      exact ⟨j, by rw [getElem?_pointers hw, halias], hpos hu⟩

/-- The scalar that a wire's own comes from has a wire. -/
theorem Linked.exists_pointsAt {i : Nat} {w : Wire α} (hw : n.wires.wires[i]? = some w)
    {s : Diagram.Tap} (hs : n.diagram.Upstream w.tap s) :
    ∃ (j : Nat) (v : Wire α), n.wires.wires[j]? = some v ∧ v.tap = s ∧ PointsAt n.pointers i j := by
  rcases h.aliasOf_cases hr hw with ⟨hnone, _⟩ | ⟨j, v, hv, hup, _⟩
  · cases hnone.symm.trans hs
  · exact ⟨j, v, hv, Option.some.inj (hup.symm.trans hs), (h.pointsAt_iff hr hw hv).mpr hup⟩

theorem Linked.pointsInside : PointsInside n.pointers := by
  intro i target htarget
  obtain ⟨w, hw⟩ := exists_wire (List.getElem?_eq_some_iff.mp htarget).1
  have halias : w.aliasOf = some target :=
    Option.some.inj ((getElem?_pointers hw).symm.trans htarget)
  rcases h.aliasOf_cases hr hw with ⟨_, hnone⟩ | ⟨j, v, hv, hup, _⟩
  · cases hnone.symm.trans halias
  · obtain ⟨target', htarget', hj⟩ := (h.pointsAt_iff hr hw hv).mpr hup
    cases htarget.symm.trans htarget'
    exact ⟨j, hj⟩

/-- Following aliases from wire to wire follows scalars. -/
theorem Linked.upstream_of_pointsAt {i j : Nat} {w v : Wire α} (hw : n.wires.wires[i]? = some w)
    (hv : n.wires.wires[j]? = some v) (hij : ReflTransGen (PointsAt n.pointers) i j) :
    ReflTransGen n.diagram.Upstream w.tap v.tap := by
  induction hij generalizing v with
  | refl =>
    cases hw.symm.trans hv
    exact .refl
  | tail _ hkj ih =>
    obtain ⟨u, hu⟩ := exists_wire hkj.lt.1
    exact (ih hu).tail ((h.pointsAt_iff hr hu hv).mp hkj)

/-- Following scalars follows aliases from wire to wire. -/
theorem Linked.pointsAt_of_upstream {i : Nat} {w : Wire α} (hw : n.wires.wires[i]? = some w)
    {s : Diagram.Tap} (hs : ReflTransGen n.diagram.Upstream w.tap s) :
    ∃ (j : Nat) (v : Wire α), n.wires.wires[j]? = some v ∧ v.tap = s ∧
      ReflTransGen (PointsAt n.pointers) i j := by
  induction hs with
  | refl => exact ⟨i, w, hw, rfl, .refl⟩
  | tail _ hts ih =>
    obtain ⟨k, u, hu, htap, hik⟩ := ih
    rw [← htap] at hts
    obtain ⟨j, v, hv, htap', hkj⟩ := h.exists_pointsAt hr hu hts
    exact ⟨j, v, hv, htap', hik.tail hkj⟩

/-- Aliases go around a cycle where scalars do. -/
theorem Linked.cycle_iff {i : Nat} {w : Wire α} (hw : n.wires.wires[i]? = some w) :
    TransGen (PointsAt n.pointers) i i ↔ TransGen n.diagram.Upstream w.tap w.tap := by
  rw [TransGen.head'_iff, TransGen.head'_iff]
  constructor
  · intro ⟨j, hij, hji⟩
    obtain ⟨v, hv⟩ := exists_wire hij.lt.2
    exact ⟨v.tap, (h.pointsAt_iff hr hw hv).mp hij, h.upstream_of_pointsAt hr hv hw hji⟩
  · intro ⟨s, hs, hback⟩
    obtain ⟨j, v, hv, htap, hij⟩ := h.exists_pointsAt hr hw hs
    rw [← htap] at hback
    obtain ⟨k, u, hu, htap', hjk⟩ := h.pointsAt_of_upstream hr hv hback
    cases h.registered.tap_inj hu hw htap'
    exact ⟨j, hij, hjk⟩

end Within

section Fit

variable (h : n.Linked) (hr : n.RoutesFit)

include h hr

/-- Exactly the wires of rerouting blocks are aliases. -/
theorem Linked.reroutes_iff {i : Nat} {w : Wire α} (hw : n.wires.wires[i]? = some w) :
    n.diagram.reroutes w.port = true ↔ ∃ j, PointsAt n.pointers i j := by
  constructor
  · intro hreroutes
    obtain ⟨first, width, hfirst, hwidth, hlt, _⟩ := h.registered.port_of_wire i w hw
    obtain ⟨taps, htaps⟩ := h.routed w.port first hfirst hreroutes
    have hfull := hr.full w.port taps width ⟨Option.isSome_of_eq_some hfirst, hreroutes, htaps⟩ hwidth
    have hsub : w.sub < taps.length := by omega
    have hup : n.diagram.Upstream w.tap taps[w.sub] :=
      Diagram.upstream?_eq_some.mpr ⟨hreroutes, taps, htaps, List.getElem?_eq_getElem hsub⟩
    obtain ⟨j, _, _, _, hij⟩ := h.exists_pointsAt hr.toRoutesWithin hw hup
    exact ⟨j, hij⟩
  · intro ⟨j, hij⟩
    obtain ⟨v, hv⟩ := exists_wire hij.lt.2
    exact (Diagram.upstream?_eq_some.mp ((h.pointsAt_iff hr.toRoutesWithin hw hv).mp hij)).1

/-- Aliases connect the wires that carry one signal. -/
theorem Linked.eqvGen_iff_sameSignal {i j : Nat} {w v : Wire α} (hw : n.wires.wires[i]? = some w)
    (hv : n.wires.wires[j]? = some v) :
    EqvGen (PointsAt n.pointers) i j ↔ n.diagram.SameSignal w.tap v.tap := by
  have hwithin := hr.toRoutesWithin
  rw [eqvGen_iff_join (pointsAt_unique _)]
  constructor
  · intro ⟨z, hiz, hjz⟩
    obtain ⟨e, hze, hend⟩ := exists_terminal_or_cycle (fun _ _ => And.right ∘ PointsAt.lt) z
    have hie := hiz.trans hze
    have he : e < n.pointers.length := by
      rcases ReflTransGen.cases_tail hie with heq | ⟨y, _, hye⟩
      · rw [heq, length_pointers]
        exact (List.getElem?_eq_some_iff.mp hw).1
      · exact hye.lt.2
    obtain ⟨u, hu⟩ := exists_wire he
    refine ⟨u.tap, h.upstream_of_pointsAt hwithin hw hu hie,
      h.upstream_of_pointsAt hwithin hv hu (hjz.trans hze), ?_⟩
    rcases hend with hend | hcycle
    · refine .inl (Bool.eq_false_iff.mpr fun hreroutes => ?_)
      obtain ⟨y, hy⟩ := (h.reroutes_iff hr hu).mp hreroutes
      exact hend y hy
    · exact .inr ((h.cycle_iff hwithin hu).mp hcycle)
  · intro ⟨s, hws, hvs, _⟩
    obtain ⟨k, u, hu, htap, hik⟩ := h.pointsAt_of_upstream hwithin hw hws
    obtain ⟨l, x, hx, htap', hjl⟩ := h.pointsAt_of_upstream hwithin hv hvs
    cases h.registered.tap_inj hu hx (htap.trans htap'.symm)
    exact ⟨k, hik, hjl⟩

end Fit

def Sources (n : Network α) (net i : Nat) : Prop :=
  ∃ w b, n.wires.wires[i]? = some w ∧ w.net = net ∧ n.block? w.block = some b ∧
    b.kind.isReroute = false

/-- The wires that leave blocks which reroute nothing are those that are no aliases. -/
theorem Linked.sources_iff (h : n.Linked) (hr : n.RoutesFit) {m : Network α} (hb : m.blocks = n.blocks)
    (hw : n.wires.Agree Wire.signal m.wires) {net i : Nat} :
    m.Sources net i ↔ i < n.pointers.length ∧ m.wires.netOf i = net ∧
      ∀ j, ¬ PointsAt n.pointers i j := by
  have hblock (k : Nat) : m.block? k = n.block? k :=
    congrArg (fun bs : BlockTable α => bs.blocks[k]?) hb
  constructor
  · intro ⟨w, b, hget, hnet, hwb, hreroute⟩
    obtain ⟨v, hv, hview⟩ := hw.exists_getElem? hget
    have hvb : n.block? v.block = some b := by
      rw [← hblock, show v.block = w.block from congrArg Prod.fst hview, hwb]
    refine ⟨?_, (WireTable.netOf_eq hget).trans hnet, fun j hj => ?_⟩
    · rw [length_pointers]
      exact (List.getElem?_eq_some_iff.mp hv).1
    · have hreroutes := (h.reroutes_iff hr hv).mpr ⟨j, hj⟩
      rw [h.reroutes_eq hv hvb, hreroute] at hreroutes
      cases hreroutes
  · intro ⟨hlt, hnet, hend⟩
    obtain ⟨v, hv⟩ := exists_wire hlt
    obtain ⟨w, hget, hview⟩ := hw.symm.exists_getElem? hv
    obtain ⟨b, hvb, _⟩ := h.owner i v hv
    refine ⟨w, b, hget, (WireTable.netOf_eq hget).symm.trans hnet, ?_, ?_⟩
    · rw [hblock, show w.block = v.block from congrArg Prod.fst hview, hvb]
    · rw [← h.reroutes_eq hv hvb]
      refine Bool.eq_false_iff.mpr fun hreroutes => ?_
      obtain ⟨j, hj⟩ := (h.reroutes_iff hr hv).mp hreroutes
      exact hend j hj

theorem singleSourced_iff : n.SingleSourced ↔
    ∀ net i j, n.Sources net i → n.Sources net j → i = j := by
  constructor
  · intro h net i j ⟨w, b, hw, hnet, hb, hbr⟩ ⟨v, c, hv, hnet', hc, hcr⟩
    exact h i j w v b c hw hv (hnet.trans hnet'.symm) hb hc hbr hcr
  · intro h i j w v b c hw hv hnet hb hc hbr hcr
    exact h v.net i j ⟨w, b, hw, hnet, hb, hbr⟩ ⟨v, c, hv, rfl, hc, hcr⟩

theorem singleSourced_of_existsUnique (h : ∀ net < n.wires.netCount, ∃! i, n.Sources net i) :
    n.SingleSourced := by
  refine singleSourced_iff.mpr fun net i j hi hj => ?_
  have hlt : net < n.wires.netCount := by
    obtain ⟨w, _, hw, hnet, _⟩ := hi
    rw [← hnet, ← WireTable.netOf_eq hw]
    exact WireTable.netOf_lt (List.getElem?_eq_some_iff.mp hw).1
  exact (h net hlt).unique hi hj

/-- When nets are the classes of connected aliases, a net has one source at most, and has one exactly
when no alias closes a cycle on it. -/
theorem Linked.existsUnique_source (h : n.Linked) (hr : n.RoutesFit) {m : Network α}
    (hb : m.blocks = n.blocks) (hw : n.wires.Agree Wire.signal m.wires)
    (hnet : ∀ i < n.pointers.length, ∀ j < n.pointers.length,
      m.wires.netOf i = m.wires.netOf j ↔ EqvGen (PointsAt n.pointers) i j) :
    m.SingleSourced ∧ ∀ k < n.pointers.length, (∃! i, m.Sources (m.wires.netOf k) i) ↔
      ∀ i, Closes n.pointers i → m.wires.netOf i ≠ m.wires.netOf k := by
  have hunique (net i j : Nat) (hi : m.Sources net i) (hj : m.Sources net j) : i = j := by
    obtain ⟨hilt, hinet, hi⟩ := (h.sources_iff hr hb hw).mp hi
    obtain ⟨hjlt, hjnet, hj⟩ := (h.sources_iff hr hb hw).mp hj
    exact terminal_unique (pointsAt_unique _) hi hj
      ((hnet i hilt j hjlt).mp (hinet.trans hjnet.symm))
  refine ⟨singleSourced_iff.mpr hunique, fun k hk => ?_⟩
  have hsame {i : Nat} : EqvGen (PointsAt n.pointers) k i ↔
      i < n.pointers.length ∧ m.wires.netOf i = m.wires.netOf k := by
    constructor
    · intro hki
      have hi := (lt_of_eqvGen hki).mp hk
      exact ⟨hi, ((hnet k hk i hi).mpr hki).symm⟩
    · intro ⟨hi, he⟩
      exact (hnet k hk i hi).mp he.symm
  have hend := exists_terminal_iff n.pointers k
  simp only [hsame] at hend
  constructor
  · intro ⟨e, he, _⟩ i hi hik
    obtain ⟨helt, henet, hterminal⟩ := (h.sources_iff hr hb hw).mp he
    obtain ⟨j, hij, hback⟩ := hi
    exact hend.mp ⟨e, ⟨helt, henet⟩, hterminal⟩ i ⟨j, hij, hback⟩ ⟨hij.lt.1, hik⟩
  · intro hnone
    obtain ⟨e, ⟨helt, henet⟩, hterminal⟩ := hend.mpr fun i hi hik => hnone i hi hik.2
    have he := (h.sources_iff hr hb hw).mpr ⟨helt, henet, hterminal⟩
    exact ⟨e, he, fun i hsource => hunique _ i e hsource he⟩

end Network

/-- Of nets only bounds that exclude one another are noted. -/
theorem WireTable.noteEmpty_eq (t : WireTable α) (path : Nat → String) (net : Nat) :
    (t.noteEmpty path net).result = .ok () ∧ ∀ note ∈ (t.noteEmpty path net).notes, ∀ i,
      note.finding ≠ .aliasCycle i := by
  unfold noteEmpty
  split
  · exact ⟨rfl, nofun⟩
  · dsimp only
    split
    · exact ⟨rfl, nofun⟩
    · refine ⟨rfl, fun note hnote i he => ?_⟩
      rw [List.mem_singleton.mp hnote] at he
      cases he

def WireTable.cycleNote (t : WireTable α) (path : Nat → String) (i : Nat) : Diagnostic α :=
  ⟨.aliasCycle i, (t.wires[i]?).map fun w => w.label path⟩

/-- Resolving aliases notes the elements that close a cycle, and then the nets without room. -/
theorem WireTable.canonicalize_notes {t : WireTable α} {closed labels : List Nat}
    (h : resolveAliases (t.wires.map (·.aliasOf)) = (closed, .ok labels)) (path : Nat → String) :
    t.canonicalize path =
      ⟨closed.map (t.cycleNote path) ++ (t.renumber labels).merge.nets.flatMap fun net =>
          ((t.renumber labels).merge.noteEmpty path net).notes,
        .ok (labels.eraseDups.length, (t.renumber labels).merge)⟩ := by
  have hcycles : (closed.forM fun i => Noted.note (.aliasCycle i)
      ((t.wires[i]?).map fun w => w.label path)) = ⟨closed.map (t.cycleNote path), .ok ()⟩ := by
    rw [Noted.forM_eq (fun _ _ => rfl), List.map_eq_flatMap]
    rfl
  unfold WireTable.canonicalize
  rw [h]
  dsimp only
  rw [hcycles, Noted.bind_eq rfl, Noted.bind_eq rfl,
    Noted.forM_eq (fun net _ => (noteEmpty_eq _ path net).1), Noted.bind_eq rfl]
  simp [pure, liftM, monadLift, MonadLift.monadLift, Noted.ofResult]

/-- Resolving aliases notes every element that closes a cycle. -/
theorem WireTable.canonicalize_eq {t : WireTable α} {closed labels : List Nat}
    (h : resolveAliases (t.wires.map (·.aliasOf)) = (closed, .ok labels)) (path : Nat → String) :
    ∃ notes, t.canonicalize path =
        ⟨notes, .ok (labels.eraseDups.length, (t.renumber labels).merge)⟩ ∧
      ∀ i, (∃ note ∈ notes, note.finding = .aliasCycle i) ↔ i ∈ closed := by
  refine ⟨_, canonicalize_notes h path, fun i => ?_⟩
  constructor
  · intro h
    obtain ⟨note, hnote, hfinding⟩ := h
    rcases List.mem_append.mp hnote with hnote | hnote
    · obtain ⟨k, hk, rfl⟩ := List.mem_map.mp hnote
      cases hfinding
      exact hk
    · obtain ⟨net, _, hnote⟩ := List.mem_flatMap.mp hnote
      exact absurd hfinding ((noteEmpty_eq _ path net).2 note hnote i)
  · intro hi
    exact ⟨_, List.mem_append_left _ (List.mem_map_of_mem hi), rfl⟩

namespace Network

variable {n : Network α}

/-- Merging wires changes nothing else. -/
theorem mergeWires_eq {notes : List (Diagnostic α)} {count : Nat} {wires : WireTable α}
    (h : n.wires.canonicalize n.diagram.path = ⟨notes, .ok (count, wires)⟩) :
    Run.mergeWires n = ⟨notes, .ok (count, { n with wires })⟩ := by
  unfold Run.mergeWires
  rw [h]
  simp [Noted.bind_eq, pure]

/-- Merging makes nets of the wires that aliases connect, and notes the aliases that close a cycle. -/
theorem Linked.merges (h : n.Linked) (hr : n.RoutesWithin) :
    ∃ notes count m, Run.mergeWires n = ⟨notes, .ok (count, m)⟩ ∧ m.blocks = n.blocks ∧
      n.wires.Merged m.wires ∧
      (∀ i < n.pointers.length, ∀ j < n.pointers.length,
        m.wires.netOf i = m.wires.netOf j ↔ EqvGen (PointsAt n.pointers) i j) ∧
      ∀ i, (∃ note ∈ notes, note.finding = .aliasCycle i) ↔ Closes n.pointers i := by
  obtain ⟨closed, labels, hresolve, hlen, hdense, hlabels, hclosed, _⟩ :=
    resolveAliases_eq (h.pointsInside hr)
  rw [length_pointers] at hlen
  obtain ⟨notes, hcanonical, hnotes⟩ :=
    WireTable.canonicalize_eq (t := n.wires) hresolve n.diagram.path
  refine ⟨notes, labels.eraseDups.length, { n with wires := (n.wires.renumber labels).merge },
    mergeWires_eq hcanonical, rfl, WireTable.merged_renumber hlen hdense, ?_,
    fun i => (hnotes i).trans (hclosed i)⟩
  intro i hi j hj
  rw [← hlabels i hi j hj]
  rw [length_pointers] at hi hj
  rw [WireTable.netOf_merge_renumber hlen hi, WireTable.netOf_merge_renumber hlen hj]
  rw [← hlen] at hi hj
  simp [hi, hj]

/-- Aliases make nets of the wires that carry one signal. Where outports are as wide as they carry
scalars of others, two wires are of one net exactly when their scalars are followed up to the same
place, so a net has one wire at most that leaves a block which reroutes nothing, and has one exactly
when no cycle was noted on it. -/
theorem nets_are_signals {d : Diagram} {hold : Hold} (ht : (d.trace hold).result = .ok n)
    (hr : n.RoutesFit) :
    ∃ notes count m, Run.mergeWires n = ⟨notes, .ok (count, m)⟩ ∧
      (∀ (i j : Nat) (w v : Wire α), n.wires.wires[i]? = some w → n.wires.wires[j]? = some v →
        (m.wires.netOf i = m.wires.netOf j ↔ n.diagram.SameSignal w.tap v.tap)) ∧
      m.SingleSourced ∧
      ∀ net < m.wires.netCount, (∃! i, m.Sources net i) ↔
        ∀ note ∈ notes, ∀ i, note.finding = .aliasCycle i → m.wires.netOf i ≠ net := by
  have hlinked := (traced_traceMeasured ht).2.toLinked
  obtain ⟨notes, count, m, hm, hblocks, hmerged, hnet, hnotes⟩ := hlinked.merges hr.toRoutesWithin
  obtain ⟨hsingle, hsource⟩ := hlinked.existsUnique_source hr hblocks hmerged.agree hnet
  refine ⟨notes, count, m, hm, ?_, hsingle, ?_⟩
  · intro i j w v hw hv
    rw [← hlinked.eqvGen_iff_sameSignal hr hw hv]
    apply hnet
    · rw [length_pointers]
      exact (List.getElem?_eq_some_iff.mp hw).1
    · rw [length_pointers]
      exact (List.getElem?_eq_some_iff.mp hv).1
  · intro net hlt
    obtain ⟨k, hk, hknet⟩ := hmerged.dense net hlt
    rw [← length_pointers] at hk
    rw [← hknet, hsource k hk]
    constructor
    · intro h note hnote i hfinding
      exact h i ((hnotes i).mp ⟨note, hnote, hfinding⟩)
    · intro h i hi
      obtain ⟨note, hnote, hfinding⟩ := (hnotes i).mpr hi
      exact h note hnote i hfinding

/-- The loop with its width declared: its first wire carries the held value, and no cycle is noted. -/
theorem nets_are_signals_loop :
    ((MuxLoop.drawn true).trace .zeroOrder : Noted ℚ _).result = .ok (MuxLoop.traced true) ∧
      (MuxLoop.traced true).RoutesFit ∧
      ∃ notes count m, Run.mergeWires (MuxLoop.traced true) = ⟨notes, .ok (count, m)⟩ ∧
        (∀ (i j : Nat) (w v : Wire ℚ), (MuxLoop.traced true).wires.wires[i]? = some w →
          (MuxLoop.traced true).wires.wires[j]? = some v →
            (m.wires.netOf i = m.wires.netOf j ↔
              (MuxLoop.traced true).diagram.SameSignal w.tap v.tap)) ∧
        m.SingleSourced ∧
        ∀ net < m.wires.netCount, (∃! i, m.Sources net i) ↔
          ∀ note ∈ notes, ∀ i, note.finding = .aliasCycle i → m.wires.netOf i ≠ net :=
  ⟨congrArg Noted.result (MuxLoop.trace_drawn true), MuxLoop.routesFit,
    nets_are_signals (congrArg Noted.result (MuxLoop.trace_drawn true)) MuxLoop.routesFit⟩

end Network

end Transcription
