import Transcription.Proofs.Network.Sinks
import Transcription.Proofs.Value.Equality

namespace Transcription

def Disconnected {β : Type} (x : Except Fault β) : Prop :=
  ∃ block broken, x = .error (.connection block broken)

section Disconnected

variable {β γ : Type}

theorem Disconnected.bind {x : Except Fault β} (h : Disconnected x) (f : β → Except Fault γ) :
    Disconnected (x >>= f) := by
  obtain ⟨block, broken, rfl⟩ := h
  exact ⟨block, broken, rfl⟩

theorem Disconnected.ne_ok {x : Except Fault β} (h : Disconnected x) (b : β) : x ≠ .ok b := by
  obtain ⟨block, broken, rfl⟩ := h
  exact nofun

/-- Steps that each succeed or report a connection do so together. -/
theorem mapM_cases {f : β → Except Fault γ} (broken : β → Prop) {xs : List β}
    (h : ∀ x ∈ xs, (∃ y, f x = .ok y) ∨ Disconnected (f x) ∧ broken x) :
    (∃ ys, xs.mapM f = .ok ys) ∨ Disconnected (xs.mapM f) ∧ ∃ x ∈ xs, broken x := by
  induction xs with
  | nil => exact .inl ⟨[], rfl⟩
  | cons x xs ih =>
    obtain ⟨hx, hxs⟩ := List.forall_mem_cons.mp h
    rw [List.mapM_cons]
    rcases hx with ⟨y, hy⟩ | ⟨hx, hbroken⟩
    · rw [hy]
      rcases ih hxs with ⟨ys, hys⟩ | ⟨hrest, z, hz, hbroken⟩
      · exact .inl ⟨y :: ys, by rw [hys]; rfl⟩
      · exact .inr ⟨hrest.bind _, z, List.mem_cons_of_mem _ hz, hbroken⟩
    · exact .inr ⟨hx.bind _, x, List.mem_cons_self, hbroken⟩

end Disconnected

namespace Diagram

def scalars (d : Diagram) (p : Port) : Nat :=
  match d.portWidth p with
  | .ok width => width.toNat
  | .error _ => 0

def Numbered (d : Diagram) (i : Nat) (n : Int) : Prop :=
  ∃ v, d.required i "Port" = .ok v ∧ v.toInt = .ok n

def Follows (d : Diagram) (p q : Port) : Prop :=
  match BlockKind.of (d.block p.block) with
  | .input | .external => False
  | .subsystemBoundary =>
    ((d.block p.block).type = "SubSystem" ∧ ∃ inner,
      d.innerPort? p.block "Outport" p.number = .ok (some inner) ∧ q = ⟨inner, .inport, 1⟩) ∨
    ((d.block p.block).type = "Inport" ∧ ∃ parent n, (d.block p.block).parent = some parent ∧
      d.Numbered p.block n ∧ n ≤ (d.block parent).inports ∧ q = ⟨parent, .inport, n.toNat⟩)
  | .route => ∃ goto, d.goto? p.block = .ok (some goto) ∧ q = ⟨goto, .inport, 1⟩
  | .demux => q = ⟨p.block, .inport, 1⟩
  | _ => q ∈ d.inports p.block

/-- The counterpart of an outport is missing: the `Outport` block of a subsystem, the inport of the
subsystem around an `Inport` block, or the `Goto` block of a tag. -/
def Lacks (d : Diagram) (p : Port) : Prop :=
  match BlockKind.of (d.block p.block) with
  | .subsystemBoundary =>
    ((d.block p.block).type = "SubSystem" ∧
      d.innerPort? p.block "Outport" p.number = .ok none) ∨
    ((d.block p.block).type = "Inport" ∧ ∃ parent n, (d.block p.block).parent = some parent ∧
      d.Numbered p.block n ∧ (d.block parent).inports < n)
  | .route => d.goto? p.block = .ok none
  | _ => False

/-- The least set of outports that has the drivers of all sinks and, with an outport, those that it
resolves to if it reroutes signals. Otherwise it has with an outport all outports of its block, and the
drivers of all inports of its block unless that is an input from outside. -/
inductive Reached (d : Diagram) : Port → Prop
  | sink {i : Nat} {q p : Port} (hi : i ∈ Search.sinks d) (hq : q ∈ d.inports i)
    (hp : d.source? q = some p) : Reached d p
  | routed {p : Port} {taps : List Tap} {tap : Tap} (h : Reached d p) (hr : d.reroutes p = true)
    (htaps : d.route p = .ok taps) (ht : tap ∈ taps) : Reached d tap.1
  | beside {p q : Port} (h : Reached d p) (hr : d.reroutes p = false)
    (hq : q ∈ d.outports p.block) : Reached d q
  | driver {p q s : Port} (h : Reached d p) (hr : d.reroutes p = false)
    (hb : (BlockKind.of (d.block p.block)).isBoundary = false) (hq : q ∈ d.inports p.block)
    (hs : d.source? q = some s) : Reached d s

/-- The connection of an outport is broken: its counterpart is missing, or an inport that its signals
come in by has no line. -/
def SeveredAt (d : Diagram) (p : Port) : Prop :=
  d.Lacks p ∨ ∃ q, d.Follows p q ∧ d.source? q = none

def Severed (d : Diagram) : Prop :=
  (∃ i ∈ Search.sinks d, ∃ q ∈ d.inports i, d.source? q = none) ∨ ∃ p, d.Reached p ∧ d.SeveredAt p

/-- Without rerouting, signals come in by all inports of a block, or from outside by none. -/
theorem follows_iff {d : Diagram} {p q : Port} (hr : d.reroutes p = false) :
    d.Follows p q ↔ (BlockKind.of (d.block p.block)).isBoundary = false ∧ q ∈ d.inports p.block := by
  unfold reroutes at hr
  unfold Follows
  cases hk : BlockKind.of (d.block p.block) <;> rw [hk] at hr <;>
    simp_all [BlockKind.isReroute, BlockKind.isBoundary]

theorem not_lacks {d : Diagram} {p : Port} (hr : d.reroutes p = false) : ¬ d.Lacks p := by
  unfold reroutes at hr
  unfold Lacks
  cases hk : BlockKind.of (d.block p.block) <;> rw [hk] at hr <;> simp_all [BlockKind.isReroute]

/-- It can be said of the tag of every `Goto` block whether it is that of a `From` block. Of an array of
several entries it cannot. -/
def Comparable (d : Diagram) : Prop :=
  ∀ i < d.blocks.size, (d.block i).type = "From" → ∀ tag, d.required i "GotoTag" = .ok tag →
    ∀ j < d.blocks.size, (d.block j).type = "Goto" → ∃ same, d.hasTag j i tag = .ok same

theorem comparable_of_keys {d : Diagram} (h : ∀ i < d.blocks.size, (d.block i).type ∈ ["From", "Goto"] →
    ∃ tag, d.required i "GotoTag" = .ok tag ∧ tag.isKey = true) : d.Comparable := by
  intro i hi htype tag htag j hj htype'
  obtain ⟨t, ht, hkey⟩ := h i hi (by simp [htype])
  obtain ⟨t', ht', hkey'⟩ := h j hj (by simp [htype'])
  cases ht.symm.trans htag
  rw [hasTag, ht']
  simp only [bind, Except.bind]
  split
  · exact Value.exists_sameItself hkey'
  · exact Value.exists_same _ _ hkey' hkey

/-- A diagram whose dimensions are worked out, in which lines leave outports that exist but none
leaves a sink, and blocks that pass on one signal have one inport. Port numbers, windows, holds and
bounds can be read. Equations of primitives can be worked out, have no polynomial form or miss a line at
an inport of the block itself. -/
structure WellDrawn (α : Type) [Scalar α] (d : Diagram) : Prop where
  compiled : d.compiled.isSome = true
  drawn : ∀ l ∈ d.lines, l.source ∈ d.allOutports
  ends : ∀ l ∈ d.lines, l.source.block ∉ Search.sinks d
  single : ∀ i < d.blocks.size, (d.block i).type ∈ ["Goto", "Outport", "Demux"] →
    (d.block i).inports = 1
  numbered : ∀ i < d.blocks.size, (d.block i).type ∈ ["Inport", "Outport"] →
    (d.block i).parent.isSome = true → ∃ n, d.Numbered i n ∧ 1 ≤ n
  muxes : ∀ i < d.blocks.size, ∀ sources, BlockKind.of (d.block i) = .mux →
    d.drivers i = .ok sources → ∀ p ∈ d.outports i, d.scalars p = (sources.map d.scalars).sum
  windows : ∀ i < d.blocks.size, (BlockKind.of (d.block i)).isBoundary = true →
    ∃ window, Period.ofValue (d.param i "move_blocking_info" .none) = .ok window
  holds : ∀ i < d.blocks.size, (BlockKind.of (d.block i)).isBoundary = true →
    d.param i "interpType" .none = .none ∨
      ∃ hold, Hold.ofValue (d.param i "interpType" .none) = .ok hold
  bounds : ∀ i < d.blocks.size, BlockKind.of (d.block i) = .bound →
    (∃ t, (d.param i "lb" (.float (-Numeral.infinity))).tensor? = .ok t) ∧
      ∃ t, (d.param i "ub" (.float Numeral.infinity)).tensor? = .ok t
  lowering : ∀ i < d.blocks.size, BlockKind.of (d.block i) = .primitive →
    (∃ s : System α, d.equations i = .ok s) ∨
      (∃ operation, (d.equations i : Except Fault (System α)) = .error (.unsupported operation)) ∨
      ∃ q ∈ d.inports i, d.source? q = none ∧
        (d.equations i : Except Fault (System α)) = .error (.connection (d.path i) (.inport q.number))

/-- Such a diagram in which every `From` and `Goto` block has a tag, these can be compared, and what
switches sinks on can be read. Nothing but a broken connection stops a trace of it. -/
structure Traceable (α : Type) [Scalar α] (d : Diagram) : Prop extends d.WellDrawn α where
  tagged : ∀ i < d.blocks.size, (d.block i).type ∈ ["From", "Goto"] →
    ∃ tag, d.required i "GotoTag" = .ok tag
  comparable : d.Comparable
  switches : ∀ i < d.blocks.size, (BlockKind.of (d.block i)).isSink = true →
    ∀ p, ∃ on, isOn (d.param i (phaseParam p) (.text "on")) = .ok on

/-- What a trace reads of a diagram besides the equations of its primitives: dimensions that are worked
out, lines that leave outports that exist but no sink, the one inport of blocks that pass on one signal,
port numbers, tags that can be compared, windows, holds, bounds, and what switches sinks on. -/
structure Legible (d : Diagram) : Prop where
  compiled : d.compiled.isSome = true
  drawn : ∀ l ∈ d.lines, l.source ∈ d.allOutports
  ends : ∀ l ∈ d.lines, l.source.block ∉ Search.sinks d
  single : ∀ i < d.blocks.size, (d.block i).type ∈ ["Goto", "Outport", "Demux"] →
    (d.block i).inports = 1
  numbered : ∀ i < d.blocks.size, (d.block i).type ∈ ["Inport", "Outport"] →
    (d.block i).parent.isSome = true → ∃ n, d.Numbered i n ∧ 1 ≤ n
  muxes : ∀ i < d.blocks.size, ∀ sources, BlockKind.of (d.block i) = .mux →
    d.drivers i = .ok sources → ∀ p ∈ d.outports i, d.scalars p = (sources.map d.scalars).sum
  windows : ∀ i < d.blocks.size, (BlockKind.of (d.block i)).isBoundary = true →
    ∃ window, Period.ofValue (d.param i "move_blocking_info" .none) = .ok window
  holds : ∀ i < d.blocks.size, (BlockKind.of (d.block i)).isBoundary = true →
    d.param i "interpType" .none = .none ∨
      ∃ hold, Hold.ofValue (d.param i "interpType" .none) = .ok hold
  bounds : ∀ i < d.blocks.size, BlockKind.of (d.block i) = .bound →
    (∃ t, (d.param i "lb" (.float (-Numeral.infinity))).tensor? = .ok t) ∧
      ∃ t, (d.param i "ub" (.float Numeral.infinity)).tensor? = .ok t
  tagged : ∀ i < d.blocks.size, (d.block i).type ∈ ["From", "Goto"] →
    ∃ tag, d.required i "GotoTag" = .ok tag
  comparable : d.Comparable
  switches : ∀ i < d.blocks.size, (BlockKind.of (d.block i)).isSink = true →
    ∀ p, ∃ on, isOn (d.param i (phaseParam p) (.text "on")) = .ok on

theorem Traceable.legible {α : Type} [Scalar α] {d : Diagram} (h : d.Traceable α) : d.Legible :=
  ⟨h.compiled, h.drawn, h.ends, h.single, h.numbered, h.muxes, h.windows, h.holds, h.bounds, h.tagged,
    h.comparable, h.switches⟩

variable {d : Diagram} {p q : Port}

theorem side_inports {i : Nat} (h : q ∈ d.inports i) : q.side = .inport := by
  obtain ⟨_, _, rfl⟩ := List.mem_map.mp h
  rfl

theorem side_outports {i : Nat} (h : p ∈ d.outports i) : p.side = .outport := by
  obtain ⟨_, _, rfl⟩ := List.mem_map.mp h
  rfl

theorem mem_allOutports : p ∈ d.allOutports ↔ p.block < d.blocks.size ∧ p ∈ d.outports p.block := by
  simp only [allOutports, List.mem_flatMap, List.mem_range]
  constructor
  · rintro ⟨i, hi, hp⟩
    rw [mem_outports hp]
    exact ⟨hi, hp⟩
  · rintro ⟨hi, hp⟩
    exact ⟨p.block, hi, hp⟩

theorem side_of_mem (hp : p ∈ d.allOutports) : p.side = .outport :=
  side_outports (mem_allOutports.mp hp).2

/-- All outports of a block are among all outports if one of them is. -/
theorem mem_allOutports_of_mem (hp : p ∈ d.allOutports) (hq : q ∈ d.outports p.block) :
    q ∈ d.allOutports := by
  refine mem_allOutports.mpr ?_
  rw [mem_outports hq]
  exact ⟨(mem_allOutports.mp hp).1, hq⟩

theorem exists_line (hq : q.side = .inport) (h : d.source? q = some p) : ∃ l ∈ d.lines, l.source = p := by
  rw [source?, hq] at h
  obtain ⟨l, hl, rfl⟩ := Option.map_eq_some_iff.mp h
  exact ⟨l, List.mem_of_find?_eq_some hl, rfl⟩

def Sourced (d : Diagram) : Prop :=
  ∀ l ∈ d.lines, l.source ∈ d.allOutports ∧ l.source.block ∉ Search.sinks d

/-- What drives an inport is an outport of the diagram. -/
theorem Sourced.mem_of_source (h : d.Sourced) (hq : q.side = .inport) (hs : d.source? q = some p) :
    p ∈ d.allOutports ∧ p.block ∉ Search.sinks d := by
  obtain ⟨l, hl, rfl⟩ := exists_line hq hs
  exact h l hl

/-- The width of an outport is known once dimensions are. -/
theorem portWidth_eq (hc : d.compiled.isSome = true) (hp : p.side = .outport) :
    ∃ width, d.portWidth p = .ok width ∧ d.scalars p = width.toNat := by
  have hmeasured : d.measured = .ok d := by
    rw [measured, if_pos hc]
    rfl
  obtain ⟨width, hwidth⟩ : ∃ width, d.portWidth p = .ok width := by
    rw [portWidth, portDims, hp]
    simp only [outportDims, hmeasured]
    exact ⟨_, rfl⟩
  exact ⟨width, hwidth, by rw [scalars, hwidth]⟩

theorem port_inport {i : Nat} {n : Int} (h₁ : 1 ≤ n) (hn : n ≤ (d.block i).inports) :
    d.port .inport i n = .ok ⟨i, .inport, n.toNat⟩ := by
  have hposition : position (d.count i .inport) (n - 1) = .ok (n - 1).toNat := by
    have hneg : ¬ n - 1 < 0 := by omega
    simp only [position, if_neg hneg]
    rw [if_pos]
    · rfl
    · simp only [Bool.and_eq_true, decide_eq_true_eq]
      change 0 ≤ n - 1 ∧ n - 1 < ((d.block i).inports : Int)
      omega
  rw [port, hposition]
  have hnumber : (n - 1).toNat + 1 = n.toNat := by omega
  simp only [bind, Except.bind, hnumber]
  rfl

theorem driver_cases (d : Diagram) (q : Port) :
    (∃ p, d.driver q = .ok p ∧ d.source? q = some p) ∨
      Disconnected (d.driver q) ∧ d.source? q = none := by
  rw [driver]
  cases h : d.source? q with
  | some p => exact .inl ⟨p, rfl, rfl⟩
  | none => exact .inr ⟨⟨_, _, rfl⟩, rfl⟩

theorem driver_eq_ok : d.driver q = .ok p ↔ d.source? q = some p := by
  rw [driver]
  cases d.source? q with
  | some s => simp [pure, Except.pure]
  | none => simp [throw, throwThe, MonadExceptOf.throw]

theorem drivers_cases (d : Diagram) (i : Nat) :
    (∃ ps, d.drivers i = .ok ps ∧ List.Forall₂ (fun q p => d.source? q = some p) (d.inports i) ps) ∨
      Disconnected (d.drivers i) ∧ ∃ q ∈ d.inports i, d.source? q = none := by
  have hcases := mapM_cases (f := d.driver) (fun q => d.source? q = none)
    fun q (_ : q ∈ d.inports i) => (d.driver_cases q).imp_left fun ⟨p, hp, _⟩ => ⟨p, hp⟩
  refine hcases.imp_left fun ⟨ps, hps⟩ => ⟨ps, hps, ?_⟩
  exact (except_mapM_eq_ok.mp hps).imp fun _ _ h => driver_eq_ok.mp h

theorem length_taps (p : Port) (start width : Int) : (taps p start width).length = width.toNat := by
  simp [taps]

theorem mem_taps {s : Tap} {start width : Int} (h : s ∈ taps p start width) : s.1 = p := by
  obtain ⟨_, _, rfl⟩ := List.mem_map.mp h
  rfl

/-- What resolving an outport comes to: scalars that leave outports with lines, as many as it carries,
and no connection is broken; or the report of a broken one. -/
def Resolves (d : Diagram) (p : Port) : Prop :=
  (∃ taps, d.route p = .ok taps ∧ taps.length = d.scalars p ∧
    (∀ s ∈ taps, ∃ q : Port, q.side = .inport ∧ d.source? q = some s.1) ∧ ¬ d.SeveredAt p) ∨
    Disconnected (d.route p) ∧ d.SeveredAt p

/-- An outport that takes its scalars from what drives one inport resolves if that has a line. -/
theorem resolves_of_driver (hc : d.compiled.isSome = true) (hp : p.side = .outport)
    (hq : q.side = .inport) (hlacks : ¬ d.Lacks p) (hfollows : ∀ r, d.Follows p r ↔ r = q)
    (start : Int) (hroute : ∀ s width, d.driver q = .ok s → d.portWidth p = .ok width →
      d.route p = .ok (taps s start width))
    (hbroken : Disconnected (d.driver q) → Disconnected (d.route p)) : d.Resolves p := by
  obtain ⟨width, hwidth, hscalars⟩ := portWidth_eq hc hp
  rcases d.driver_cases q with ⟨s, hs, hsource⟩ | ⟨hs, hsource⟩
  · refine .inl ⟨taps s start width, hroute s width hs hwidth, ?_, ?_, ?_⟩
    · rw [length_taps, hscalars]
    · intro t ht
      exact ⟨q, hq, by rw [hsource, mem_taps ht]⟩
    · rintro (h | ⟨r, hr, hnone⟩)
      · exact hlacks h
      · rw [(hfollows r).mp hr, hsource] at hnone
        cases hnone
  · exact .inr ⟨hbroken hs, .inr ⟨q, (hfollows q).mpr rfl, hsource⟩⟩

/-- So does one that passes on all of it. -/
theorem resolves_passed (hc : d.compiled.isSome = true) (hp : p.side = .outport)
    (hq : q.side = .inport) (hlacks : ¬ d.Lacks p) (hfollows : ∀ r, d.Follows p r ↔ r = q)
    (hroute : d.route p = d.passed p q) : d.Resolves p := by
  refine resolves_of_driver hc hp hq hlacks hfollows 0 ?_ ?_
  · intro s width hs hwidth
    rw [hroute, passed, hs, hwidth]
    rfl
  · intro h
    rw [hroute, passed]
    exact h.bind _

/-- The scalars of all that drives some inports. -/
theorem mapM_drivenTaps (hc : d.compiled.isSome = true) {qs ps : List Port}
    (h : List.Forall₂ (fun q p => d.source? q = some p) qs ps) (hps : ∀ p ∈ ps, p.side = .outport) :
    ∃ tss, qs.mapM d.drivenTaps = .ok tss ∧ tss.flatten.length = (ps.map d.scalars).sum ∧
      ∀ t ∈ tss.flatten, ∃ q ∈ qs, d.source? q = some t.1 := by
  induction h with
  | nil => exact ⟨[], rfl, rfl, fun t ht => nomatch ht⟩
  | @cons q p qs ps hq _ ih =>
    obtain ⟨hp, hrest⟩ := List.forall_mem_cons.mp hps
    obtain ⟨tss, htss, hlength, hmem⟩ := ih hrest
    obtain ⟨width, hwidth, hscalars⟩ := portWidth_eq hc hp
    have htaps : d.drivenTaps q = .ok (taps p 0 width) := by
      rw [drivenTaps, driver_eq_ok.mpr hq]
      simp only [bind, Except.bind, hwidth]
      rfl
    refine ⟨taps p 0 width :: tss, ?_, ?_, ?_⟩
    · rw [List.mapM_cons, htaps, htss]
      rfl
    · rw [List.flatten_cons, List.length_append, hlength, length_taps, List.map_cons, List.sum_cons,
        hscalars]
    · intro t ht
      rcases List.mem_append.mp ht with ht | ht
      · exact ⟨q, List.mem_cons_self, by rw [hq, mem_taps ht]⟩
      · obtain ⟨r, hr, hsource⟩ := hmem t ht
        exact ⟨r, List.mem_cons_of_mem _ hr, hsource⟩

section Legible

theorem Legible.sourced (h : d.Legible) : d.Sourced := fun l hl => ⟨h.drawn l hl, h.ends l hl⟩

theorem Legible.side_of_source (h : d.Legible) (hq : q.side = .inport)
    (hs : d.source? q = some p) : p.side = .outport := side_of_mem (h.sourced.mem_of_source hq hs).1

theorem Legible.port_one (h : d.Legible) {i : Nat} (hi : i < d.blocks.size)
    (htype : (d.block i).type ∈ ["Goto", "Outport", "Demux"]) :
    d.port .inport i 1 = .ok ⟨i, .inport, 1⟩ :=
  port_inport (by decide) (by rw [h.single i hi htype]; decide)

structure Finds (P : Nat → Prop) (o : Option Nat) : Prop where
  sound : ∀ i, o = some i → P i
  complete : o = none → ∀ i, ¬ P i

def StandsFor (d : Diagram) (subsystem : Nat) (type : String) (n : Int) (i : Nat) : Prop :=
  i < d.blocks.size ∧ (d.block i).parent = some subsystem ∧ (d.block i).type = type ∧ d.Numbered i n

def Tagged (d : Diagram) (fromBlock i : Nat) : Prop :=
  i < d.blocks.size ∧ (d.block i).type = "Goto" ∧
    ∃ tag, d.required fromBlock "GotoTag" = .ok tag ∧ d.hasTag i fromBlock tag = .ok true

theorem Numbered.unique {i : Nat} {m n : Int} (hm : d.Numbered i m) (hn : d.Numbered i n) : m = n := by
  obtain ⟨v, hv, hm⟩ := hm
  obtain ⟨u, hu, hn⟩ := hn
  cases hv.symm.trans hu
  exact Except.ok.inj (hm.symm.trans hn)

/-- Looking for a numbered block finds one of those it looks through, if any has the number. -/
theorem firstNumbered_ok (n : Int) (is : List Nat) (h : ∀ i ∈ is, ∃ k, d.Numbered i k) :
    ∃ o, d.firstNumbered n is = .ok o ∧ Finds (fun i => i ∈ is ∧ d.Numbered i n) o := by
  induction is with
  | nil => exact ⟨none, rfl, nofun, fun _ i hi => nomatch hi.1⟩
  | cons i is ih =>
    obtain ⟨⟨k, v, hv, hk⟩, hrest⟩ := List.forall_mem_cons.mp h
    have hnumber : d.Numbered i k := ⟨v, hv, hk⟩
    rw [firstNumbered, hv]
    by_cases hn : k = n
    · refine ⟨some i, ?_, fun j hj => ?_, nofun⟩
      · simp only [bind, Except.bind, hk, if_pos hn]
        rfl
      · cases hj
        exact ⟨List.mem_cons_self, hn ▸ hnumber⟩
    · obtain ⟨o, ho, hfinds⟩ := ih hrest
      refine ⟨o, ?_, fun j hj => ?_, fun hnone j hj => ?_⟩
      · simp only [bind, Except.bind, hk, if_neg hn]
        exact ho
      · exact (hfinds.sound j hj).imp_left (List.mem_cons_of_mem _)
      · rcases List.mem_cons.mp hj.1 with rfl | hmem
        · exact hn (hnumber.unique hj.2)
        · exact hfinds.complete hnone j ⟨hmem, hj.2⟩

/-- The inner block that stands for a port is found if inner blocks of its type have numbers. -/
theorem innerPort?_ok {type : String} (h : ∀ i < d.blocks.size, (d.block i).type = type →
    (d.block i).parent.isSome = true → ∃ k, d.Numbered i k) (subsystem : Nat) (n : Int) :
    ∃ o, d.innerPort? subsystem type n = .ok o ∧ Finds (d.StandsFor subsystem type n) o := by
  have hmem (i : Nat) : i ∈ ((List.range d.blocks.size).filter fun i =>
      (d.block i).parent = some subsystem && (d.block i).type = type) ↔
        i < d.blocks.size ∧ (d.block i).parent = some subsystem ∧ (d.block i).type = type := by
    simp
  obtain ⟨o, ho, hfinds⟩ := firstNumbered_ok (d := d) n
    ((List.range d.blocks.size).filter fun i =>
      (d.block i).parent = some subsystem && (d.block i).type = type) (by
    intro i hi
    obtain ⟨hlt, hparent, htype⟩ := (hmem i).mp hi
    exact h i hlt htype (by simp [hparent]))
  refine ⟨o, ho, fun i hi => ?_, fun hnone i hi => ?_⟩
  · obtain ⟨hi, hnumber⟩ := hfinds.sound i hi
    obtain ⟨hlt, hparent, htype⟩ := (hmem i).mp hi
    exact ⟨hlt, hparent, htype, hnumber⟩
  · exact hfinds.complete hnone i ⟨(hmem i).mpr ⟨hi.1, hi.2.1, hi.2.2.1⟩, hi.2.2.2⟩

/-- The `Goto` block with the tag of a `From` block is found if tags can be compared. -/
theorem goto?_ok (h : d.Comparable) {i : Nat} (hi : i < d.blocks.size)
    (htype : (d.block i).type = "From") {tag : Value} (htag : d.required i "GotoTag" = .ok tag) :
    ∃ o, d.goto? i = .ok o ∧ Finds (d.Tagged i) o := by
  have hgoto (j : Nat) : j ∈ d.find none (some "Goto") none ↔
      j < d.blocks.size ∧ (d.block j).type = "Goto" := by simp [find]
  obtain ⟨compared, hcompared⟩ := except_mapM_ok
    (f := fun j => do return (j, ← d.hasTag j i tag)) (by
    intro j (hj : j ∈ d.find none (some "Goto") none)
    obtain ⟨same, hsame⟩ := h i hi htype tag htag j ((hgoto j).mp hj).1 ((hgoto j).mp hj).2
    exact ⟨(j, same), by rw [hsame]; rfl⟩)
  have hmem (j : Nat) : j ∈ (compared.filter (·.2)).map (·.1) ↔ d.Tagged i j := by
    constructor
    · intro hj
      obtain ⟨e, he, rfl⟩ := List.mem_map.mp hj
      obtain ⟨he, hsame⟩ := List.mem_filter.mp he
      obtain ⟨k, hk, hke⟩ := except_mapM_mem hcompared he
      obtain ⟨same, hkey, hke⟩ := except_bind_eq_ok.mp hke
      cases hke
      obtain rfl : same = true := hsame
      exact ⟨((hgoto k).mp hk).1, ((hgoto k).mp hk).2, tag, htag, hkey⟩
    · intro hj
      obtain ⟨hlt, htype, t, ht, hsame⟩ := hj
      cases htag.symm.trans ht
      obtain ⟨e, he, hje⟩ := except_mapM_of_mem hcompared ((hgoto j).mpr ⟨hlt, htype⟩)
      rw [hsame] at hje
      cases hje
      exact List.mem_map.mpr ⟨(j, true), List.mem_filter.mpr ⟨he, rfl⟩, rfl⟩
  rw [goto?, htag]
  simp only [bind, Except.bind] at hcompared ⊢
  rw [hcompared]
  refine ⟨_, rfl, fun j hj => (hmem j).mp ?_, fun hnone j hj => ?_⟩
  · rcases Option.or_eq_some_iff.mp hj with hnear | ⟨_, hhead⟩
    · exact List.mem_of_find?_eq_some hnear
    · exact List.mem_of_mem_head? hhead
  · have hhead := (Option.or_eq_none_iff.mp hnone).2
    rw [List.head?_eq_none_iff] at hhead
    have hj := (hmem j).mpr hj
    rw [hhead] at hj
    cases hj

theorem Legible.innerPort?_eq (h : d.Legible) (subsystem : Nat) (n : Int) :
    ∃ o, d.innerPort? subsystem "Outport" n = .ok o ∧
      ∀ inner, o = some inner → inner < d.blocks.size ∧ (d.block inner).type = "Outport" := by
  have hnumbered : ∀ i < d.blocks.size, (d.block i).type = "Outport" →
      (d.block i).parent.isSome = true → ∃ k, d.Numbered i k := by
    intro i hi htype hparent
    obtain ⟨k, hk, _⟩ := h.numbered i hi (by simp [htype]) hparent
    exact ⟨k, hk⟩
  obtain ⟨o, ho, hfinds⟩ := innerPort?_ok hnumbered subsystem n
  exact ⟨o, ho, fun i hi => ⟨(hfinds.sound i hi).1, (hfinds.sound i hi).2.2.1⟩⟩

theorem Legible.goto?_eq (h : d.Legible) {i : Nat} (hi : i < d.blocks.size)
    (htype : (d.block i).type = "From") : ∃ o, d.goto? i = .ok o ∧
      ∀ goto, o = some goto → goto < d.blocks.size ∧ (d.block goto).type = "Goto" := by
  obtain ⟨tag, htag⟩ := h.tagged i hi (by simp [htype])
  obtain ⟨o, ho, hfinds⟩ := goto?_ok h.comparable hi htype htag
  exact ⟨o, ho, fun j hj => ⟨(hfinds.sound j hj).1, (hfinds.sound j hj).2.1⟩⟩

section Outports

variable (h : d.Legible) (hp : p ∈ d.allOutports)

include h hp

theorem Legible.resolves_subsystem (hkind : BlockKind.of (d.block p.block) = .subsystemBoundary)
    (htype : (d.block p.block).type = "SubSystem") : d.Resolves p := by
  have hne : (d.block p.block).type ≠ "Inport" := by
    rw [htype]
    decide
  obtain ⟨o, ho, hinner⟩ := h.innerPort?_eq p.block p.number
  cases o with
  | none =>
    refine .inr ⟨?_, .inl ?_⟩
    · simp only [route, htype, ho]
      exact ⟨_, _, rfl⟩
    · simp only [Lacks, hkind]
      exact .inl ⟨htype, ho⟩
  | some inner =>
    have hport : d.port .inport inner 1 = .ok ⟨inner, .inport, 1⟩ :=
      h.port_one (hinner inner rfl).1 (by simp [(hinner inner rfl).2])
    refine resolves_passed h.compiled (side_of_mem hp) (q := ⟨inner, .inport, 1⟩) rfl ?_ ?_ ?_
    · simp [Lacks, hkind, ho, hne]
    · intro r
      simp [Follows, hkind, htype, ho, eq_comm]
    · simp only [route, htype, ho, bind, Except.bind, hport]

theorem Legible.resolves_inport (hkind : BlockKind.of (d.block p.block) = .subsystemBoundary)
    (htype : (d.block p.block).type = "Inport") (hparent : (d.block p.block).parent.isSome = true) :
    d.Resolves p := by
  have hne : (d.block p.block).type ≠ "SubSystem" := by
    rw [htype]
    decide
  obtain ⟨parent, hparent⟩ := Option.isSome_iff_exists.mp hparent
  obtain ⟨n, ⟨v, hv, hn⟩, h₁⟩ := h.numbered p.block (mem_allOutports.mp hp).1 (by simp [htype])
    (by simp [hparent])
  have hnumbered : d.Numbered p.block n := ⟨v, hv, hn⟩
  have hnumber (k : Int) : d.Numbered p.block k ↔ k = n :=
    ⟨fun hk => hk.unique hnumbered, fun hk => hk ▸ hnumbered⟩
  by_cases hlt : ((d.block parent).inports : Int) < n
  · refine .inr ⟨?_, .inl ?_⟩
    · simp only [route, htype, bind, Except.bind, hv, hn, hparent, if_pos hlt]
      exact ⟨_, _, rfl⟩
    · simp only [Lacks, hkind]
      exact .inr ⟨htype, parent, n, hparent, (hnumber n).mpr rfl, hlt⟩
  · have hport : d.port .inport parent n = .ok ⟨parent, .inport, n.toNat⟩ := port_inport h₁ (by omega)
    refine resolves_passed h.compiled (side_of_mem hp) (q := ⟨parent, .inport, n.toNat⟩) rfl ?_ ?_ ?_
    · simp [Lacks, hkind, htype, hparent, hnumber, hlt]
    · intro r
      simp [Follows, hkind, htype, hparent, hnumber, Int.not_lt.mp hlt]
    · simp only [route, htype, bind, Except.bind, hv, hn, hparent, if_neg hlt, hport]

theorem Legible.resolves_from (hkind : BlockKind.of (d.block p.block) = .route)
    (htype : (d.block p.block).type = "From") : d.Resolves p := by
  have hlt := (mem_allOutports.mp hp).1
  obtain ⟨tag, htag⟩ := h.tagged p.block hlt (by simp [htype])
  obtain ⟨o, ho, hgoto⟩ := h.goto?_eq hlt htype
  cases o with
  | none =>
    refine .inr ⟨?_, .inl ?_⟩
    · simp only [route, htype, ho, bind, Except.bind, htag]
      exact ⟨_, _, rfl⟩
    · simp only [Lacks, hkind]
      exact ho
  | some goto =>
    have hport : d.port .inport goto 1 = .ok ⟨goto, .inport, 1⟩ :=
      h.port_one (hgoto goto rfl).1 (by simp [(hgoto goto rfl).2])
    refine resolves_passed h.compiled (side_of_mem hp) (q := ⟨goto, .inport, 1⟩) rfl ?_ ?_ ?_
    · simp [Lacks, hkind, ho]
    · intro r
      simp [Follows, hkind, ho]
    · simp only [route, htype, ho, bind, Except.bind, hport]

theorem Legible.resolves_mux (hkind : BlockKind.of (d.block p.block) = .mux)
    (htype : (d.block p.block).type = "Mux") : d.Resolves p := by
  obtain ⟨hlt, hmem⟩ := mem_allOutports.mp hp
  have hfollows (r : Port) : d.Follows p r ↔ r ∈ d.inports p.block := by simp [Follows, hkind]
  have hroute : d.route p = (do return (← (d.inports p.block).mapM d.drivenTaps).flatten) := by
    simp only [route, htype]
  rcases d.drivers_cases p.block with ⟨ps, hps, hsources⟩ | ⟨_, q, hq, hnone⟩
  · have hside : ∀ s ∈ ps, s.side = .outport := by
      intro s hs
      obtain ⟨q, hq, hsource⟩ := except_mapM_mem hps hs
      exact h.side_of_source (side_inports hq) (driver_eq_ok.mp hsource)
    obtain ⟨tss, htss, hlength, htaps⟩ := mapM_drivenTaps h.compiled hsources hside
    refine .inl ⟨tss.flatten, by rw [hroute, htss]; rfl, ?_, ?_, ?_⟩
    · rw [hlength, h.muxes p.block hlt ps hkind hps p hmem]
    · intro t ht
      obtain ⟨q, hq, hsource⟩ := htaps t ht
      exact ⟨q, side_inports hq, hsource⟩
    · rintro (hlacks | ⟨r, hr, hnone⟩)
      · simp [Lacks, hkind] at hlacks
      · obtain ⟨s, _, hs⟩ := except_mapM_of_mem hps ((hfollows r).mp hr)
        rw [driver_eq_ok.mp hs] at hnone
        cases hnone
  · refine .inr ⟨?_, .inr ⟨q, (hfollows q).mpr hq, hnone⟩⟩
    have hcases := mapM_cases (f := d.drivenTaps) (fun r => d.source? r = none)
      fun r (hr : r ∈ d.inports p.block) => by
        rw [drivenTaps]
        rcases d.driver_cases r with ⟨s, hs, hsource⟩ | ⟨hs, hnone⟩
        · obtain ⟨width, hwidth, _⟩ :=
            portWidth_eq h.compiled (h.side_of_source (side_inports hr) hsource)
          exact .inl ⟨taps s 0 width, by simp only [bind, Except.bind, hs, hwidth]; rfl⟩
        · exact .inr ⟨hs.bind _, hnone⟩
    rw [hroute]
    rcases hcases with ⟨tss, htss⟩ | ⟨htss, _⟩
    · obtain ⟨ts, _, hts⟩ := except_mapM_of_mem htss hq
      obtain ⟨s, hs, _⟩ := except_bind_eq_ok.mp hts
      rw [driver_eq_ok.mp hs] at hnone
      cases hnone
    · exact htss.bind _

theorem Legible.resolves_demux (hkind : BlockKind.of (d.block p.block) = .demux)
    (htype : (d.block p.block).type = "Demux") : d.Resolves p := by
  have hport : d.port .inport p.block 1 = .ok ⟨p.block, .inport, 1⟩ := h.port_one (mem_allOutports.mp hp).1
    (by simp [htype])
  obtain ⟨widths, hwidths⟩ := except_mapM_ok (f := d.portWidth)
    (fun r (hr : r ∈ (d.outports p.block).take (p.number - 1)) => by
      obtain ⟨width, hwidth, _⟩ := portWidth_eq h.compiled (side_outports (List.mem_of_mem_take hr))
      exact ⟨width, hwidth⟩)
  have hroute : d.route p = d.splitTaps p := by
    simp only [route, htype]
    rfl
  refine resolves_of_driver h.compiled (side_of_mem hp) (q := ⟨p.block, .inport, 1⟩) rfl ?_ ?_
    (sumWidths widths) ?_ ?_
  · simp [Lacks, hkind]
  · intro r
    simp [Follows, hkind]
  · intro s width hs hwidth
    rw [hroute, splitTaps]
    simp only [bind, Except.bind, hport, hs, hwidths, hwidth]
    rfl
  · intro hbroken
    rw [hroute, splitTaps, hport]
    exact hbroken.bind _

end Outports

/-- The blocks that reroute signals, by their types. -/
theorem isReroute_cases {b : Block} (hr : (BlockKind.of b).isReroute = true) :
    (BlockKind.of b = .subsystemBoundary ∧
      (b.type = "SubSystem" ∨ (b.type = "Inport" ∧ b.parent.isSome = true))) ∨
    (BlockKind.of b = .route ∧ b.type = "From") ∨ (BlockKind.of b = .mux ∧ b.type = "Mux") ∨
    (BlockKind.of b = .demux ∧ b.type = "Demux") := by
  unfold BlockKind.of at hr ⊢
  dsimp only at hr ⊢
  repeat' split at hr
  all_goals simp_all [BlockKind.isReroute]

/-- Resolving an outport of a rerouting block reports broken connections and fails in no other way. -/
theorem Legible.resolves (h : d.Legible) (hp : p ∈ d.allOutports) (hr : d.reroutes p = true) :
    d.Resolves p := by
  rcases isReroute_cases hr with ⟨hkind, htype | ⟨htype, hparent⟩⟩ | ⟨hkind, htype⟩ |
    ⟨hkind, htype⟩ | ⟨hkind, htype⟩
  · exact h.resolves_subsystem hp hkind htype
  · exact h.resolves_inport hp hkind htype hparent
  · exact h.resolves_from hp hkind htype
  · exact h.resolves_mux hp hkind htype
  · exact h.resolves_demux hp hkind htype

/-- Outports that are reached exist, and no sink has them. -/
theorem Legible.mem_of_reached (h : d.Legible) (hp : d.Reached p) :
    p ∈ d.allOutports ∧ p.block ∉ Search.sinks d := by
  induction hp with
  | sink hi hq hp => exact h.sourced.mem_of_source (side_inports hq) hp
  | @routed p taps tap _ hr htaps ht ih =>
    rcases h.resolves ih.1 hr with ⟨taps', htaps', _, hsource, _⟩ | ⟨hbroken, _⟩
    · cases htaps.symm.trans htaps'
      obtain ⟨q, hq, hs⟩ := hsource tap ht
      exact h.sourced.mem_of_source hq hs
    · exact absurd htaps (hbroken.ne_ok taps)
  | beside _ hr hq ih =>
    refine ⟨mem_allOutports_of_mem ih.1 hq, ?_⟩
    rw [mem_outports hq]
    exact ih.2
  | driver _ _ _ hq hs _ => exact h.sourced.mem_of_source (side_inports hq) hs

end Legible

end Diagram

end Transcription
