import Transcription.Proofs.Block.Faults
import Transcription.Proofs.Diagram.Measuring
import Transcription.Proofs.Diagram.Reordering
import Transcription.Proofs.Network.Routing

namespace Transcription

open Relation

variable {α : Type} [Scalar α]

namespace Diagram

def Wide (d : Diagram) (p : Port) (w : Nat) : Prop := d.portWidth p = .ok (w : Int)

/-- The dimensions of an outport follow from those that are declared. -/
def Deducible (d : Diagram) (p : Port) : Prop := ∃ κ, d.Derived κ ∧ (κ p).isSome = true

structure Splits (d : Diagram) (m : Port) (demux : Nat) (sources : List Port) (widths : List Nat) :
    Prop where
  joins : BlockKind.of (d.block m.block) = .mux
  drivers : d.drivers m.block = .ok sources
  splits : BlockKind.of (d.block demux) = .demux
  inport : 0 < (d.block demux).inports
  feeds : d.source? ⟨demux, .inport, 1⟩ = some m
  wide : List.Forall₂ d.Wide sources widths

/-- The signals leave blocks that reroute nothing, and nothing is declared for `m`. The demultiplexer has an
outport for each signal, declared to be as wide, or not declared when all signals are equally wide. -/
structure SplitsDrawn (d : Diagram) (m : Port) (demux : Nat) (sources : List Port) (widths : List Nat) :
    Prop extends d.Splits m demux sources widths where
  nonempty : sources ≠ []
  exist : ∀ p ∈ sources, p ∈ d.allOutports
  direct : ∀ p ∈ sources, d.reroutes p = false
  undeclared : d.Undeclared m
  count : (d.block demux).outports.length = widths.length
  declared : ∀ (j w : Nat), widths[j]? = some w →
    (∃ ds, d.declared? ⟨demux, .outport, j + 1⟩ = some ds ∧ ds.width = w) ∨
      (d.declared? ⟨demux, .outport, j + 1⟩ = none ∧ ∀ v ∈ widths, v = w)

structure SplitsFit (d : Diagram) (m : Port) (demux : Nat) (sources : List Port) (widths : List Nat) :
    Prop extends d.Splits m demux sources widths where
  whole : d.Wide m widths.sum
  parts : List.Forall₂ d.Wide (d.outports demux) widths

variable {d : Diagram} {m p q : Port} {demux i j w : Nat} {sources : List Port} {widths : List Nat}

theorem port_of_getElem? (h : (d.outports i)[j]? = some p) : p = ⟨i, .outport, j + 1⟩ := by
  obtain ⟨hj, rfl⟩ := List.getElem?_eq_some_iff.mp h
  simp [outports]

theorem type_of_mux {b : Block} (h : BlockKind.of b = .mux) : b.type = "Mux" := by
  have hr : (BlockKind.of b).isReroute = true := by rw [h]; rfl
  rcases isReroute_cases hr with ⟨hk, _⟩ | ⟨hk, _⟩ | ⟨_, htype⟩ | ⟨hk, _⟩
  case inr.inr.inl => exact htype
  all_goals cases h.symm.trans hk

theorem type_of_demux {b : Block} (h : BlockKind.of b = .demux) : b.type = "Demux" := by
  have hr : (BlockKind.of b).isReroute = true := by rw [h]; rfl
  rcases isReroute_cases hr with ⟨hk, _⟩ | ⟨hk, _⟩ | ⟨hk, _⟩ | ⟨_, htype⟩
  case inr.inr.inr => exact htype
  all_goals cases h.symm.trans hk

def joined (ps : List Port) (widths : List Nat) : List Tap :=
  (List.zipWith (fun p (w : Nat) => taps p 0 w) ps widths).flatten

theorem getElem?_taps {start : Int} (h : i < w) : (taps p start w)[i]? = some (p, start + i) := by
  simp [taps, h]

theorem length_joined {ps : List Port} (h : ps.length = widths.length) :
    (joined ps widths).length = widths.sum := by
  induction ps generalizing widths with
  | nil =>
    obtain rfl := List.length_eq_zero_iff.mp h.symm
    rfl
  | cons p ps ih =>
    cases widths with
    | nil => cases h
    | cons w widths =>
      have hrest : (joined ps widths).length = widths.sum := ih (Nat.succ.inj h)
      rw [joined, List.zipWith_cons_cons, List.flatten_cons, List.length_append, length_taps, ← joined,
        hrest, List.sum_cons, Int.toNat_natCast]

/-- A scalar of one of the signals stands behind all scalars of those before it. -/
theorem getElem?_joined {ps : List Port} (hp : ps[j]? = some p) (hw : widths[j]? = some w) (hi : i < w) :
    (joined ps widths)[(widths.take j).sum + i]? = some (p, (i : Int)) := by
  induction ps generalizing widths j with
  | nil => cases hp
  | cons q ps ih =>
    cases widths with
    | nil => cases hw
    | cons v widths =>
      rw [joined, List.zipWith_cons_cons, List.flatten_cons, ← joined]
      cases j with
      | zero =>
        cases hp
        cases hw
        rw [List.take_zero, List.sum_nil, Nat.zero_add, List.getElem?_append_left, getElem?_taps hi, zero_add]
        rw [length_taps]
        exact hi
      | succ j =>
        have hlength : (taps q 0 v).length = v := by rw [length_taps, Int.toNat_natCast]
        rw [List.take_succ_cons, List.sum_cons, Nat.add_assoc, List.getElem?_append_right (by omega), hlength,
          Nat.add_sub_cancel_left]
        exact ih hp hw

theorem sum_take_add_le (hw : widths[j]? = some w) : (widths.take j).sum + w ≤ widths.sum := by
  obtain ⟨hj, rfl⟩ := List.getElem?_eq_some_iff.mp hw
  rw [← List.sum_take_add_sum_drop widths j, List.drop_eq_getElem_cons hj, List.sum_cons]
  omega

theorem mem_joined {ps : List Port} (h : List.Forall₂ d.Wide ps widths) {s : Tap}
    (hs : s ∈ joined ps widths) : ∃ width, d.portWidth s.1 = .ok width ∧ 0 ≤ s.2 ∧ s.2 < width := by
  induction h with
  | nil => cases hs
  | @cons p w ps widths hp _ ih =>
    rw [joined, List.zipWith_cons_cons, List.flatten_cons, ← joined] at hs
    rcases List.mem_append.mp hs with hs | hs
    · obtain ⟨i, hi, rfl⟩ := List.mem_map.mp hs
      rw [List.mem_range, Int.toNat_natCast] at hi
      exact ⟨w, hp, by simp, by simpa using hi⟩
    · exact ih hs

theorem mapM_wide {ps : List Port} (h : List.Forall₂ d.Wide ps widths) :
    ps.mapM d.portWidth = .ok (widths.map Nat.cast) :=
  except_mapM_eq_ok.mpr (List.forall₂_map_right_iff.mpr h)

theorem Splits.reroutes_mux (h : d.Splits m demux sources widths) : d.reroutes m = true := by
  rw [reroutes, h.joins]
  rfl

theorem Splits.reroutes_demux (h : d.Splits m demux sources widths) :
    d.reroutes ⟨demux, .outport, j⟩ = true := by
  rw [reroutes, h.splits]
  rfl

/-- A multiplexer passes on the signals side by side. -/
theorem Splits.route_mux (h : d.Splits m demux sources widths) :
    d.route m = .ok (joined sources widths) := by
  have hroute : d.route m = (do return (← (d.inports m.block).mapM d.drivenTaps).flatten) := by
    simp only [route, type_of_mux h.joins]
  have htaps {qs ps : List Port} {ws : List Nat} (hqs : List.Forall₂ (fun q p => d.driver q = .ok p) qs ps)
      (hws : List.Forall₂ d.Wide ps ws) :
      qs.mapM d.drivenTaps = .ok (List.zipWith (fun p (w : Nat) => taps p 0 w) ps ws) := by
    induction hqs generalizing ws with
    | nil =>
      cases hws
      rfl
    | @cons q p qs ps hq _ ih =>
      obtain _ | @⟨_, w, _, ws, hw, hws⟩ := hws
      have hdriven : d.drivenTaps q = .ok (taps p 0 w) := by
        rw [Wide] at hw
        simp only [drivenTaps, hq, bind, Except.bind, hw]
        rfl
      rw [List.mapM_cons, hdriven, ih hws]
      rfl
  rw [hroute, htaps (except_mapM_eq_ok.mp h.drivers) h.wide]
  rfl

theorem SplitsFit.part (h : d.SplitsFit m demux sources widths) (hw : widths[j]? = some w) :
    d.Wide ⟨demux, .outport, j + 1⟩ w := by
  obtain ⟨hj, rfl⟩ := List.getElem?_eq_some_iff.mp hw
  have hport := h.parts.get (h.parts.length_eq ▸ hj) hj
  simpa [outports] using hport

/-- An outport of a demultiplexer passes on a signal out of what drives it. -/
theorem SplitsFit.route_demux (h : d.SplitsFit m demux sources widths) (hw : widths[j]? = some w) :
    d.route ⟨demux, .outport, j + 1⟩ = .ok (taps m (widths.take j).sum w) := by
  have hroute : d.route ⟨demux, .outport, j + 1⟩ = d.splitTaps ⟨demux, .outport, j + 1⟩ := by
    simp only [route, type_of_demux h.splits]
    rfl
  have hport : d.port .inport demux 1 = .ok ⟨demux, .inport, 1⟩ :=
    port_inport (by decide) (by exact_mod_cast h.inport)
  have hwidth : d.portWidth ⟨demux, .outport, j + 1⟩ = .ok (w : Int) := h.part hw
  have hbefore : ((d.outports demux).take j).mapM d.portWidth = .ok ((widths.take j).map Nat.cast) :=
    mapM_wide (List.forall₂_take j h.parts)
  rw [hroute, splitTaps]
  simp only [bind, Except.bind, hport, driver_eq_ok.mpr h.feeds, Nat.add_sub_cancel, hbefore, hwidth,
    sumWidths_natCast]
  rfl

/-- A scalar of an outport of the demultiplexer comes from the same scalar of the signal in its place. -/
theorem SplitsFit.upstream (h : d.SplitsFit m demux sources widths) (hp : sources[j]? = some p)
    (hw : widths[j]? = some w) (hi : i < w) :
    ReflTransGen d.Upstream (⟨demux, .outport, j + 1⟩, (i : Int)) (p, (i : Int)) := by
  have hsplit : d.Upstream (⟨demux, .outport, j + 1⟩, (i : Int))
      (m, ((widths.take j).sum + i : Nat)) := by
    refine upstream?_eq_some.mpr ⟨h.reroutes_demux, _, h.route_demux hw, ?_⟩
    rw [getElem?_taps hi, Nat.cast_add]
  have hjoin : d.Upstream (m, ((widths.take j).sum + i : Nat)) (p, (i : Int)) :=
    upstream?_eq_some.mpr ⟨h.reroutes_mux, _, h.route_mux, getElem?_joined hp hw hi⟩
  exact (ReflTransGen.single hsplit).tail hjoin

theorem width_vector (n : Int) : (Dims.vector n).width = n := by
  simp [Dims.vector, Dims.width]

theorem reroutes_prepared (d : Diagram) (p : Port) : d.prepared.reroutes p = d.reroutes p := by
  obtain ⟨compiled, heq⟩ := exists_prepared d
  rw [heq]
  rfl

/-- The width of an outport is that of its dimensions, once they are worked out. -/
theorem portWidth_of_measured {known : Known} (h : d.measured = .ok { d with compiled := some known })
    (hp : p.side = .outport) : d.portWidth p = .ok ((known.lookup p).getD Dims.scalar).width := by
  simp only [portWidth, portDims, hp, outportDims, h, bind, Except.bind, Option.getD_some]
  rfl

/-- A diagram that says how wide something is has worked out its dimensions. -/
theorem exists_measured (hc : d.Current) (hw : d.Wide p w) :
    ∃ known, d.dimensions = .ok known ∧ d.measured = .ok { d with compiled := some known } := by
  obtain ⟨ds, hds, _⟩ := except_bind_eq_ok.mp hw
  obtain ⟨q, hq⟩ : ∃ q, d.outportDims q = .ok ds := by
    unfold portDims at hds
    split at hds
    · obtain ⟨q, _, hq⟩ := except_bind_eq_ok.mp hds
      exact ⟨q, hq⟩
    · exact ⟨p, hds⟩
  obtain ⟨d', hd', _⟩ := except_bind_eq_ok.mp hq
  obtain ⟨known, rfl, hbefore | hknown⟩ := measured_eq_ok hd'
  · exact ⟨known, hc known hbefore, hd'⟩
  · exact ⟨known, hknown, hd'⟩

/-- Widths are those of what follows from declared dimensions, and of scalar ones where nothing does. -/
theorem exists_settled (hc : d.Current) (hw : d.Wide p w) :
    ∃ known κ, d.prepared = { d with compiled := some known } ∧ d.Settled κ ∧ ∀ q ∈ d.allOutports,
      d.portWidth q = .ok ((κ q).getD Dims.scalar).width ∧
        d.prepared.portWidth q = .ok ((κ q).getD Dims.scalar).width := by
  obtain ⟨known, hknown, hmeasured⟩ := exists_measured hc hw
  have hprepared : d.prepared = { d with compiled := some known } := by rw [prepared, hmeasured]
  obtain ⟨κ, hsettled, hfinal⟩ := settled_of_dimensions hknown
  refine ⟨known, κ, hprepared, hsettled, fun q hq => ?_⟩
  have hwidth := portWidth_of_measured hmeasured (side_of_mem hq)
  have hwidth' : d.prepared.portWidth q = .ok ((known.lookup q).getD Dims.scalar).width :=
    portWidth_of_measured (by rw [hprepared]; rfl) (side_of_mem hq)
  rw [hwidth, hwidth', hfinal q hq]
  exact ⟨rfl, rfl⟩

/-- The dimensions in the end are those of the rule, where that never makes do with some of its inputs. -/
theorem Settled.eq_value {κ : Port → Option Dims} (hκ : d.Settled κ) (hp : d.Undeclared p) {r : DimsRule}
    (hr : d.rule p = .ok r) (hstrict : ∀ f, r.value f true = r.value f false) :
    κ p = r.value (fun q => (d.source? q).bind κ) false := by
  have hinferred (κ' : Port → Option Dims) (partly : Bool) :
      d.inferred κ' partly p = r.value (fun q => (d.source? q).bind κ') false := by
    cases partly <;> simp only [inferred, hr, hstrict]
  rw [← hinferred κ false]
  cases hds : κ p with
  | none => rw [hinferred, ← hinferred κ true, hκ.exhausted p hp.1 hds]
  | some ds =>
    refine (hκ.derived.inferred_of_guess hp (fun κ' es _ _ _ hes => ?_) hds).symm
    rw [hinferred, ← hes, hinferred]

/-- Signals that are all known make a vector as wide as all of them. -/
theorem mapM_known {κ : Port → Option Dims} {ps : List Port}
    (hw : List.Forall₂ (fun p (w : Nat) => ((κ p).getD Dims.scalar).width = w) ps widths)
    (hknown : ∀ p ∈ ps, (κ p).isSome = true) :
    ∃ dss, (ps.map κ).mapM id = some dss ∧ dss.map Dims.width = widths.map Nat.cast := by
  induction hw with
  | nil => exact ⟨[], rfl, rfl⟩
  | @cons p w ps widths hp _ ih =>
    obtain ⟨hknown, hrest⟩ := List.forall_mem_cons.mp hknown
    obtain ⟨ds, hds⟩ := Option.isSome_iff_exists.mp hknown
    obtain ⟨dss, hdss, hwidths⟩ := ih hrest
    rw [hds] at hp
    refine ⟨ds :: dss, ?_, ?_⟩
    · rw [List.map_cons, List.mapM_cons, hds, hdss]
      rfl
    · rw [List.map_cons, List.map_cons, hwidths, show ds.width = w from hp]

theorem lt_size_of_demux (h : BlockKind.of (d.block demux) = .demux) : demux < d.blocks.size := by
  by_contra hsize
  have hdefault : d.block demux = default := by simp [block, Array.getD, hsize]
  rw [hdefault] at h
  cases h

namespace SplitsDrawn

variable {κ : Port → Option Dims} (h : d.SplitsDrawn m demux sources widths)

include h

theorem mem_part (hj : j < widths.length) : (⟨demux, .outport, j + 1⟩ : Port) ∈ d.allOutports := by
  refine mem_allOutports.mpr ⟨lt_size_of_demux h.splits, List.mem_map.mpr ⟨j, ?_, rfl⟩⟩
  rw [List.mem_range, Block.outportCount, h.count]
  exact hj

/-- The multiplexer has the dimensions of all signals, or it has one signal that is taken to be scalar. -/
theorem mux_cases (hκ : d.Settled κ)
    (hwide : List.Forall₂ (fun p (w : Nat) => ((κ p).getD Dims.scalar).width = w) sources widths)
    (hknown : 2 ≤ sources.length → ∀ p ∈ sources, (κ p).isSome = true) :
    κ m = some (Dims.vector widths.sum) ∨ (κ m = none ∧ widths = [1]) := by
  have hrule : d.rule m = .ok (.joined (d.inports m.block)) := by
    simp [rule, type_of_mux h.joins, pure, Except.pure]
  have hinputs : sources.map κ = (d.inports m.block).map fun q => (d.source? q).bind κ := by
    refine except_mapM_map (fun q p hp => ?_) h.drivers
    rw [driver_eq_ok.mp hp]
    rfl
  have hmux : κ m = ((sources.map κ).mapM id).map fun ds =>
      Dims.vector (sumWidths (ds.map Dims.width)) := by
    rw [hκ.eq_value h.undeclared hrule fun _ => rfl, DimsRule.value, ← hinputs]
  by_cases hall : ∀ p ∈ sources, (κ p).isSome = true
  · obtain ⟨dss, hdss, heq⟩ := mapM_known hwide hall
    left
    rw [hmux, hdss, Option.map_some, heq, sumWidths_natCast]
  · right
    have hlength : sources.length < 2 := by
      by_contra hlong
      exact hall (hknown (Nat.not_lt.mp hlong))
    have hpos := List.length_pos_iff.mpr h.nonempty
    obtain ⟨p, rfl⟩ := List.length_eq_one_iff.mp (show sources.length = 1 by omega)
    have hopen : κ p = none := by simpa using hall
    -- the one signal leaves the multiplexer open as well, so both are taken to be scalar
    refine ⟨by rw [hmux]; simp [hopen], ?_⟩
    obtain ⟨w, ws, hw, hws, rfl⟩ := List.forall₂_cons_left_iff.mp hwide
    cases hws
    have hscalar : (w : Int) = 1 := by rw [← hw, hopen]; rfl
    rw [Nat.cast_eq_one.mp hscalar]

/-- An outport of the demultiplexer is as wide as the signal in its place. -/
theorem width_part (hκ : d.Settled κ)
    (hmux : κ m = some (Dims.vector widths.sum) ∨ (κ m = none ∧ widths = [1]))
    (hw : widths[j]? = some w) : ((κ ⟨demux, .outport, j + 1⟩).getD Dims.scalar).width = w := by
  have hj : j < widths.length := (List.getElem?_eq_some_iff.mp hw).1
  have hmem := h.mem_part hj
  rcases h.declared j w hw with ⟨ds, hds, hwidth⟩ | ⟨hopen, heq⟩
  · rw [hκ.derived.keeps _ hmem ds hds]
    exact hwidth
  have hhead : (d.inports demux).head? = some ⟨demux, .inport, 1⟩ := by
    obtain ⟨n, hn⟩ := Nat.exists_eq_succ_of_ne_zero (Nat.ne_of_gt h.inport)
    rw [inports, hn, List.range_succ_eq_map]
    rfl
  have hrule : d.rule ⟨demux, .outport, j + 1⟩ =
      .ok (.shared (some ⟨demux, .inport, 1⟩) widths.length) := by
    have hcount : max ((d.block demux).outportCount : Int) 1 = widths.length := by
      rw [Block.outportCount, h.count]
      omega
    simp [rule, type_of_demux h.splits, hhead, hcount, pure, Except.pure]
  have hpart : κ ⟨demux, .outport, j + 1⟩ =
      (κ m).map fun ds => Dims.vector (Int.fdiv ds.width widths.length) := by
    rw [hκ.eq_value ⟨hmem, hopen⟩ hrule fun _ => rfl, DimsRule.value, Option.bind_some, h.feeds]
    rfl
  rcases hmux with hmux | ⟨hmux, rfl⟩
  · have hsum : widths.sum = widths.length * w := by
      rw [List.sum_eq_card_nsmul widths w heq, smul_eq_mul]
    rw [hpart, hmux, Option.map_some, Option.getD_some, width_vector, width_vector, hsum, Nat.cast_mul,
      Int.mul_fdiv_cancel_left _ (by omega)]
  · cases heq 1 (List.mem_singleton_self 1)
    rw [hpart, hmux]
    rfl

/-- Once dimensions are worked out all widths are as they should be, unless the multiplexer has several
signals and some of them are not known. -/
theorem fits (hc : d.Current) (hdeduced : 2 ≤ sources.length → ∀ p ∈ sources, d.Deducible p) :
    d.prepared.SplitsFit m demux sources widths := by
  obtain ⟨p, hp⟩ := List.exists_mem_of_ne_nil sources h.nonempty
  obtain ⟨w, _, hw⟩ := forall₂_exists_right h.wide hp
  obtain ⟨known, κ, hprepared, hκ, hwidths⟩ := exists_settled hc hw
  have hwide : List.Forall₂ (fun p (w : Nat) => ((κ p).getD Dims.scalar).width = w) sources widths := by
    refine ((List.forall₂_and_left _ _).mpr ⟨h.exist, h.wide⟩).imp fun p w hp => ?_
    exact Except.ok.inj ((hwidths p hp.1).1.symm.trans hp.2)
  have hmux := h.mux_cases hκ hwide fun hlong p hp => by
    obtain ⟨κ', hκ', hsome⟩ := hdeduced hlong p hp
    exact hκ.known_of_derived hκ' p hsome
  have hwhole : d.prepared.Wide m widths.sum := by
    rw [Wide, (hwidths m h.undeclared.1).2]
    rcases hmux with hmux | ⟨hmux, rfl⟩
    · rw [hmux, Option.getD_some, width_vector]
    · rw [hmux]
      rfl
  have hparts : List.Forall₂ d.prepared.Wide (d.outports demux) widths := by
    refine forall₂_of_getElem? (by simp [outports, Block.outportCount, h.count]) fun j p w hp hw => ?_
    have hj : j < widths.length := (List.getElem?_eq_some_iff.mp hw).1
    obtain rfl := port_of_getElem? hp
    rw [Wide, (hwidths _ (h.mem_part hj)).2, h.width_part hκ hmux hw]
  have hsources : List.Forall₂ d.prepared.Wide sources widths := by
    refine ((List.forall₂_and_left _ _).mpr ⟨h.exist, h.wide⟩).imp fun p w hp => ?_
    rw [Wide, (hwidths p hp.1).2, ← (hwidths p hp.1).1]
    exact hp.2
  rw [hprepared] at hwhole hparts hsources ⊢
  exact ⟨⟨h.joins, h.drivers, h.splits, h.inport, h.feeds, hsources⟩, hwhole, hparts⟩

end SplitsDrawn

end Diagram

namespace Network

variable {n : Network α} {p : Port}

structure RoutesWithinAt (n : Network α) (p : Port) : Prop where
  count : ∀ taps width, n.Carries p taps → n.diagram.portWidth p = .ok width →
    (taps.length : Int) ≤ width
  scalar : ∀ taps, n.Carries p taps → ∀ s ∈ taps,
    ∃ width, n.diagram.portWidth s.1 = .ok width ∧ 0 ≤ s.2 ∧ s.2 < width

theorem routesWithin_of_ports (h : ∀ p, n.RoutesWithinAt p) : n.RoutesWithin :=
  ⟨fun p => (h p).count, fun p => (h p).scalar⟩

def WireOf (n : Network α) (s : Diagram.Tap) (i : Nat) : Prop :=
  ∃ w, n.wires.wires[i]? = some w ∧ w.tap = s

/-- An outport that passes on as many scalars as it is wide, all of them there, keeps within. -/
theorem routesWithinAt_of_route {taps : List Diagram.Tap} {w : Nat} (hroute : n.diagram.route p = .ok taps)
    (hlength : taps.length = w) (hw : n.diagram.Wide p w)
    (hs : ∀ s ∈ taps, ∃ width, n.diagram.portWidth s.1 = .ok width ∧ 0 ≤ s.2 ∧ s.2 < width) :
    n.RoutesWithinAt p := by
  constructor
  · intro taps' width hcarries hwidth
    cases hroute.symm.trans hcarries.2.2
    cases hw.symm.trans hwidth
    rw [hlength]
  · intro taps' hcarries
    cases hroute.symm.trans hcarries.2.2
    exact hs

variable {d : Diagram} {m : Port} {demux : Nat} {sources : List Port} {widths : List Nat}

/-- The multiplexer and the demultiplexer keep within. -/
theorem routesWithin_of_fit (h : n.diagram.SplitsFit m demux sources widths)
    (hothers : ∀ p, p ≠ m → p ∉ n.diagram.outports demux → n.RoutesWithinAt p) :
    n.RoutesWithin := by
  refine routesWithin_of_ports fun p => ?_
  by_cases hm : p = m
  · rw [hm]
    exact routesWithinAt_of_route h.route_mux (Diagram.length_joined h.wide.length_eq) h.whole
      fun s => Diagram.mem_joined h.wide
  by_cases hp : p ∈ n.diagram.outports demux
  · obtain ⟨j, hj⟩ := List.mem_iff_getElem?.mp hp
    obtain rfl := Diagram.port_of_getElem? hj
    obtain ⟨w, hw⟩ : ∃ w, widths[j]? = some w := by
      have hlength := h.parts.length_eq
      have hlt := (List.getElem?_eq_some_iff.mp hj).1
      exact ⟨_, List.getElem?_eq_getElem (hlength ▸ hlt)⟩
    refine routesWithinAt_of_route (h.route_demux hw) (Diagram.length_taps _ _ _) (h.part hw) fun s hs => ?_
    obtain ⟨i, hi, rfl⟩ := List.mem_map.mp hs
    rw [List.mem_range, Int.toNat_natCast] at hi
    have hbelow := Diagram.sum_take_add_le hw
    exact ⟨widths.sum, h.whole, by dsimp only; omega, by dsimp only; omega⟩
  · exact hothers p hm hp

theorem WireOf.lt {s : Diagram.Tap} {k : Nat} (h : n.WireOf s k) : k < n.pointers.length := by
  obtain ⟨w, hw, _⟩ := h
  rw [length_pointers]
  exact (List.getElem?_eq_some_iff.mp hw).1

section Nets

variable (h : n.Linked) (hr : n.RoutesWithin) {merged : Network α}
  (hnet : ∀ i < n.pointers.length, ∀ j < n.pointers.length,
    merged.wires.netOf i = merged.wires.netOf j ↔ EqvGen (PointsAt n.pointers) i j)
  {s t : Diagram.Tap} {k l : Nat} (hk : n.WireOf s k)

include h hr hnet hk

/-- A scalar is on the net of every scalar that it is followed to. -/
theorem Linked.exists_netOf (hst : ReflTransGen n.diagram.Upstream s t) :
    ∃ l, n.WireOf t l ∧ merged.wires.netOf k = merged.wires.netOf l := by
  obtain ⟨w, hw, rfl⟩ := hk
  obtain ⟨l, v, hv, htap, hkl⟩ := h.pointsAt_of_upstream hr hw hst
  have hl : n.WireOf t l := ⟨v, hv, htap⟩
  refine ⟨l, hl, (hnet k (WireOf.lt ⟨w, hw, rfl⟩) l hl.lt).mpr ?_⟩
  exact (eqvGen_iff_join (pointsAt_unique _)).mpr ⟨l, hkl, .refl⟩

omit hnet in
/-- A wire that leaves a block which reroutes nothing is no alias. -/
theorem Linked.not_pointsAt (hs : n.diagram.reroutes s.1 = false) (j : Nat) :
    ¬ PointsAt n.pointers k j := by
  intro hkj
  obtain ⟨w, hw, rfl⟩ := hk
  obtain ⟨v, hv⟩ := exists_wire hkj.lt.2
  have hreroutes := (Diagram.upstream?_eq_some.mp ((h.pointsAt_iff hr hw hv).mp hkj)).1
  cases hs.symm.trans hreroutes

/-- Different scalars that leave blocks which reroute nothing are on different nets. -/
theorem Linked.eq_of_netOf (hl : n.WireOf t l) (hs : n.diagram.reroutes s.1 = false)
    (ht : n.diagram.reroutes t.1 = false) (heq : merged.wires.netOf k = merged.wires.netOf l) : s = t := by
  have hkl : k = l := terminal_unique (pointsAt_unique _) (h.not_pointsAt hr hk hs) (h.not_pointsAt hr hl ht)
    ((hnet k hk.lt l hl.lt).mp heq)
  subst hkl
  obtain ⟨w, hw, rfl⟩ := hk
  obtain ⟨v, hv, rfl⟩ := hl
  cases hw.symm.trans hv
  rfl

end Nets

/-- A demultiplexer takes apart what a multiplexer has put together: every scalar of its outports that are
reached is of one net with the same scalar of the signal in the place of the outport, and scalars of the
signals stay on nets of their own. -/
theorem split_is_identity {hold : Hold} (ht : (d.trace hold).result = .ok n) (hc : d.Current)
    (h : d.SplitsDrawn m demux sources widths)
    (hdeduced : 2 ≤ sources.length → ∀ p ∈ sources, d.Deducible p)
    (hothers : ∀ p, p ≠ m → p ∉ d.outports demux → n.RoutesWithinAt p) :
    ∃ notes count merged, Run.mergeWires n = ⟨notes, .ok (count, merged)⟩ ∧
      (∀ (j w : Nat) (p : Port), sources[j]? = some p → widths[j]? = some w →
        (n.wires.first? ⟨demux, .outport, j + 1⟩).isSome = true → ∀ i < w, ∃ k l,
          n.WireOf (⟨demux, .outport, j + 1⟩, (i : Int)) k ∧ n.WireOf (p, (i : Int)) l ∧
            merged.wires.netOf k = merged.wires.netOf l) ∧
      ∀ s t k l, s.1 ∈ sources → t.1 ∈ sources → n.WireOf s k → n.WireOf t l → s ≠ t →
        merged.wires.netOf k ≠ merged.wires.netOf l := by
  obtain ⟨hd, htraced⟩ := traced_traceMeasured ht
  have hlinked := htraced.toLinked
  have hfit : n.diagram.SplitsFit m demux sources widths := hd ▸ h.fits hc hdeduced
  have hwithin : n.RoutesWithin := by
    refine routesWithin_of_fit hfit fun p hm hp => hothers p hm ?_
    rwa [hd, Diagram.outports_prepared] at hp
  obtain ⟨notes, count, merged, hmerge, _, _, hnet, _⟩ := hlinked.merges hwithin
  refine ⟨notes, count, merged, hmerge, fun j w p hp hw hreached i hi => ?_, ?_⟩
  · obtain ⟨first, hfirst⟩ := Option.isSome_iff_exists.mp hreached
    obtain ⟨width, hwidth, hwires⟩ := hlinked.registered.wire_of_port _ first hfirst
    cases hwidth.symm.trans (hfit.part hw)
    have hk : n.WireOf (⟨demux, .outport, j + 1⟩, (i : Int)) (first + i) := hwires i (by simpa using hi)
    obtain ⟨l, hl, heq⟩ := hlinked.exists_netOf hwithin hnet hk (hfit.upstream hp hw hi)
    exact ⟨first + i, l, hk, hl, heq⟩
  · intro s t k l hs ht hk hl hne heq
    have hdirect {p : Port} (hp : p ∈ sources) : n.diagram.reroutes p = false := by
      rw [hd, Diagram.reroutes_prepared]
      exact h.direct p hp
    exact hne (hlinked.eq_of_netOf hwithin hnet hk hl (hdirect hs) (hdirect ht) heq)

end Network

namespace Bundle

def drawn : Diagram where
  name := "bundle"
  workspace := []
  blocks := #[
    ⟨"u", "SubSystem", "bundle/u", some "InputFromWorkspace", none, [], 0, [some [1, 2]]⟩,
    ⟨"v", "SubSystem", "bundle/v", some "InputFromWorkspace", none, [], 0, [some [1, 1]]⟩,
    ⟨"mux", "Mux", "bundle/mux", none, none, [], 2, [none]⟩,
    ⟨"demux", "Demux", "bundle/demux", none, none, [], 1, [some [1, 2], some [1, 1]]⟩,
    ⟨"cost", "SubSystem", "bundle/cost", some "DiscreteCost", none, [], 1, []⟩]
  lines := [⟨⟨0, .outport, 1⟩, ⟨2, .inport, 1⟩⟩, ⟨⟨1, .outport, 1⟩, ⟨2, .inport, 2⟩⟩,
    ⟨⟨2, .outport, 1⟩, ⟨3, .inport, 1⟩⟩, ⟨⟨3, .outport, 2⟩, ⟨4, .inport, 1⟩⟩]

def out (i : Nat) : Port := ⟨i, .outport, 1⟩

def second : Port := ⟨3, .outport, 2⟩

def dimensions : Diagram.Known :=
  [(out 2, [1, 3]), (out 0, [1, 2]), (out 1, [1, 1]), (out 3, [1, 2]), (second, [1, 1])]

def measured : Diagram := { drawn with compiled := some dimensions }

theorem prepared_drawn : drawn.prepared = measured := by cbv

def block : Nat → TracedBlock ℚ
  | 0 => { source := 0, kind := .input, hold := some .zeroOrder }
  | 1 => { source := 1, kind := .input, hold := some .zeroOrder }
  | 2 => { source := 2, kind := .mux }
  | 3 => { source := 3, kind := .demux }
  | _ => { source := 4, kind := .cost, sinkPhases := .majors }

theorem kind_input {i : Nat} (hi : i < 2) : BlockKind.of (drawn.block i) = .input := by
  obtain rfl | rfl : i = 0 ∨ i = 1 := by omega
  all_goals exact BlockKind.of_input rfl

theorem record_input {i : Nat} (hi : i < 2) : measured.record .zeroOrder i = ⟨[], .ok (block i)⟩ := by
  obtain rfl | rfl : i = 0 ∨ i = 1 := by omega
  all_goals exact Diagram.record_plainInput rfl rfl rfl

theorem record_mux : measured.record .zeroOrder 2 = ⟨[], .ok (block 2)⟩ := by cbv

theorem record_demux : measured.record .zeroOrder 3 = ⟨[], .ok (block 3)⟩ := by cbv

theorem record_cost : measured.record .zeroOrder 4 = ⟨[], .ok (block 4)⟩ := by cbv

def wires : List (Wire ℚ) :=
  [(1, second, 0), (2, out 2, 0), (2, out 2, 1), (2, out 2, 2), (3, out 0, 0), (3, out 0, 1),
    (4, out 1, 0)].zipIdx.map fun ((block, port, sub), net) => { block, port, sub, net }

def found (count : Nat) : Search ℚ where
  blocks := ⟨([4, 3, 2, 0, 1].map block).take (count + 1)⟩
  wires :=
    { wires := wires.take ([0, 1, 4, 6, 7].getD count 0)
      firsts := [(second, 0), (out 2, 1), (out 0, 4), (out 1, 6)].take count }
  links := [⟨0, (out 2, 2)⟩, ⟨1, (out 0, 0)⟩, ⟨2, (out 0, 1)⟩, ⟨3, (out 1, 0)⟩].take
    ([0, 1, 4, 4, 4].getD count 0)

theorem search_measured : (Search.ofDiagram measured .zeroOrder).Quiet (found 4) := by
  have hsinks : Search.sinks measured = [4] := by cbv
  have hstart : (Search.start measured .zeroOrder [4] {} ⟨measured.allOutports, []⟩).Quiet
      (⟨[block 4]⟩, ⟨[out 0, out 1, out 2, out 3], [second]⟩) :=
    Noted.quiet_bind.mpr ⟨_, record_cost, rfl⟩
  have hdemux : ((found 0).visit measured .zeroOrder second).Quiet ⟨found 1, [], [out 2]⟩ :=
    Search.quiet_visit rfl record_demux rfl
  have hmux : ((found 1).visit measured .zeroOrder (out 2)).Quiet
      ⟨found 2, [], [out 0, out 0, out 1]⟩ :=
    Search.quiet_visit rfl record_mux rfl
  have hfirst : ((found 2).visit measured .zeroOrder (out 0)).Quiet ⟨found 3, [out 0], []⟩ :=
    Search.quiet_visit rfl (record_input (by decide)) rfl
  have hlast : ((found 3).visit measured .zeroOrder (out 1)).Quiet ⟨found 4, [out 1], []⟩ :=
    Search.quiet_visit rfl (record_input (by decide)) rfl
  refine Search.quiet_ofDiagram hsinks hstart ?_
  refine Search.quiet_run_cons (g := ⟨[out 0, out 1, out 3], [out 2]⟩) hdemux rfl ?_
  refine Search.quiet_run_cons (g := ⟨[out 3], [out 0, out 1]⟩) hmux rfl ?_
  refine Search.quiet_run_cons (g := ⟨[out 3], [out 1]⟩) hfirst rfl ?_
  refine Search.quiet_run_cons (g := ⟨[out 3], []⟩) hlast rfl ?_
  exact Search.run_nil

def traced : Network ℚ where
  diagram := measured
  blocks := ⟨[
    { block 4 with inputs := [0] },
    { block 3 with outputs := [0] },
    { block 2 with outputs := [1, 2, 3] },
    { block 0 with outputs := [4, 5] },
    { block 1 with outputs := [6] }]⟩
  wires := {
    wires := [
      { block := 1, port := second, sub := 0, net := 0, aliasOf := some 3
        cost := .constant (0 + 1), rawCost := .constant (0 + 1) },
      { block := 2, port := out 2, sub := 0, net := 1, aliasOf := some 4 },
      { block := 2, port := out 2, sub := 1, net := 2, aliasOf := some 5 },
      { block := 2, port := out 2, sub := 2, net := 3, aliasOf := some 6 },
      { block := 3, port := out 0, sub := 0, net := 4, input := true },
      { block := 3, port := out 0, sub := 1, net := 5, input := true },
      { block := 4, port := out 1, sub := 0, net := 6, input := true }]
    firsts := [(second, 0), (out 2, 1), (out 0, 4), (out 1, 6)] }

theorem trace_drawn : (drawn.trace .zeroOrder).Quiet traced := by
  rw [Diagram.trace, prepared_drawn]
  exact Noted.quiet_bind.mpr ⟨_, search_measured, rfl⟩

theorem splits : drawn.SplitsDrawn (out 2) 3 [out 0, out 1] [2, 1] where
  joins := rfl
  drivers := rfl
  splits := rfl
  inport := by decide
  feeds := rfl
  wide := .cons (by unfold Diagram.Wide; cbv) (.cons (by unfold Diagram.Wide; cbv) .nil)
  nonempty := by decide
  exist := by decide
  direct p hp := by
    obtain rfl | rfl : p = out 0 ∨ p = out 1 := by simpa using hp
    all_goals rw [Diagram.reroutes, show (out _).block = _ from rfl, kind_input (by decide)]; rfl
  undeclared := ⟨by decide, rfl⟩
  count := rfl
  declared j w hw := by
    have hj : j < 2 := (List.getElem?_eq_some_iff.mp hw).1
    left
    obtain rfl | rfl : j = 0 ∨ j = 1 := by omega
    all_goals
      cases hw
      exact ⟨_, rfl, rfl⟩

theorem deducible {p : Port} (hp : p ∈ [out 0, out 1]) : drawn.Deducible p := by
  refine ⟨drawn.given, .given, ?_⟩
  obtain rfl | rfl : p = out 0 ∨ p = out 1 := by simpa using hp
  all_goals decide

/-- The other outports that are reached reroute nothing. -/
theorem others {p : Port} (hm : p ≠ out 2) (hp : p ∉ drawn.outports 3) : traced.RoutesWithinAt p := by
  have hcarries (taps : List Diagram.Tap) : ¬ traced.Carries p taps := by
    rintro ⟨hreached, hreroutes, _⟩
    obtain ⟨e, he, hpe⟩ := List.lookup_isSome_iff.mp hreached
    obtain rfl : p = e.1 := by simpa using hpe
    have hports : e.1 ∈ [second, out 2, out 0, out 1] := List.mem_map_of_mem (f := Prod.fst) he
    have hsecond : e.1 ≠ second := fun heq => hp (heq ▸ by decide)
    have hsource : e.1 ∈ [out 0, out 1] := by simpa [hm, hsecond] using hports
    cases (splits.direct e.1 hsource).symm.trans hreroutes
  exact ⟨fun taps _ h => absurd h (hcarries taps), fun taps h => absurd h (hcarries taps)⟩

end Bundle

namespace Network

/-- The second part of the bundle is on the net of the second input. -/
theorem split_is_identity_bundle :
    (Bundle.drawn.trace .zeroOrder : Noted ℚ _).result = .ok Bundle.traced ∧ Bundle.drawn.Current ∧
      Bundle.drawn.SplitsDrawn (Bundle.out 2) 3 [Bundle.out 0, Bundle.out 1] [2, 1] ∧
      (∀ p ∈ [Bundle.out 0, Bundle.out 1], Bundle.drawn.Deducible p) ∧
      (∀ p, p ≠ Bundle.out 2 → p ∉ Bundle.drawn.outports 3 → Bundle.traced.RoutesWithinAt p) ∧
      ∃ notes count merged, Run.mergeWires Bundle.traced = ⟨notes, .ok (count, merged)⟩ ∧
        (∃ k l, Bundle.traced.WireOf (Bundle.second, 0) k ∧ Bundle.traced.WireOf (Bundle.out 1, 0) l ∧
          merged.wires.netOf k = merged.wires.netOf l) ∧
        ∀ s t k l, s.1 ∈ [Bundle.out 0, Bundle.out 1] → t.1 ∈ [Bundle.out 0, Bundle.out 1] →
          Bundle.traced.WireOf s k → Bundle.traced.WireOf t l → s ≠ t →
            merged.wires.netOf k ≠ merged.wires.netOf l := by
  have htrace := congrArg Noted.result Bundle.trace_drawn
  have hdeduced : ∀ p ∈ [Bundle.out 0, Bundle.out 1], Bundle.drawn.Deducible p :=
    fun p => Bundle.deducible
  have hothers (p : Port) : p ≠ Bundle.out 2 → p ∉ Bundle.drawn.outports 3 →
      Bundle.traced.RoutesWithinAt p := Bundle.others
  obtain ⟨notes, count, merged, hmerge, hparts, hdistinct⟩ :=
    split_is_identity htrace (by nofun) Bundle.splits (fun _ => hdeduced) hothers
  exact ⟨htrace, by nofun, Bundle.splits, hdeduced, hothers, notes, count, merged, hmerge,
    hparts 1 1 (Bundle.out 1) rfl rfl rfl 0 (by decide), hdistinct⟩

end Network

theorem MuxLoop.splits : (drawn false).SplitsDrawn (out 2) 3 [out 1, out 0] [1, 1] where
  joins := rfl
  drivers := rfl
  splits := rfl
  inport := by decide
  feeds := rfl
  wide :=
    have hmeasured := measured_drawn false
    .cons (Diagram.portWidth_of_measured hmeasured rfl)
      (.cons (Diagram.portWidth_of_measured hmeasured rfl) .nil)
  nonempty := by decide
  exist := by decide
  direct p hp := by
    obtain rfl | rfl : p = out 1 ∨ p = out 0 := by simpa using hp
    · rfl
    · have hkind : BlockKind.of ((drawn false).block 0) = .input := kind_input false
      rw [Diagram.reroutes, show (out 0).block = 0 from rfl, hkind]
      rfl
  undeclared := ⟨by decide, rfl⟩
  count := rfl
  declared j w hw := by
    have hj : j < 2 := (List.getElem?_eq_some_iff.mp hw).1
    right
    obtain rfl | rfl : j = 0 ∨ j = 1 := by omega
    all_goals
      cases hw
      exact ⟨rfl, by decide⟩

namespace Network

/-- The held value and the input of the loop go side by side, and neither is wider than one scalar. Their
wires come to be on one net. -/
theorem loop_joins_sources :
    (MuxLoop.drawn false).Current ∧
      (MuxLoop.drawn false).SplitsDrawn (MuxLoop.out 2) 3 [MuxLoop.out 1, MuxLoop.out 0] [1, 1] ∧
      ∃ (n merged : Network ℚ) (notes : List (Diagnostic ℚ)) (count : Nat),
        (MuxLoop.drawn false).trace .zeroOrder = ⟨[], .ok n⟩ ∧
        Run.mergeWires n = ⟨notes, .ok (count, merged)⟩ ∧ n.WireOf (MuxLoop.out 1, 0) 1 ∧
        n.WireOf (MuxLoop.out 0, 0) 2 ∧ merged.wires.netOf 1 = merged.wires.netOf 2 := by
  have hresolve : resolveAliases ((MuxLoop.traced false).wires.wires.map (·.aliasOf)) =
      ([], .ok [0, 0, 0, 0]) := rfl
  have hmerge := mergeWires_eq (WireTable.canonicalize_notes hresolve (MuxLoop.traced false).diagram.path)
  refine ⟨by nofun, MuxLoop.splits, _, _, _, _, MuxLoop.trace_drawn false, hmerge, ⟨_, rfl, rfl⟩,
    ⟨_, rfl, rfl⟩, ?_⟩
  rw [WireTable.netOf_merge_renumber rfl (by decide), WireTable.netOf_merge_renumber rfl (by decide)]
  rfl

end Network

end Transcription
