import Transcription.Network.Basic
import Transcription.Wire.Net

namespace Transcription

structure Liveness where
  /-- The phases found so far, by net. -/
  live : List PhaseSet
  /-- The phases that a block was not a seed for yet. -/
  unseeded : List (Nat × Phase)
  /-- The seeds that are still to be swept from, and their phases. -/
  pending : List (Nat × PhaseSet)

namespace Network

variable {α : Type} [Scalar α]

/-- The places of the blocks, rerouting ones left out, that a net leaves. -/
def producers (n : Network α) (net : Nat) : List Nat :=
  (n.blocks.entries.filter fun e =>
    !e.2.kind.isReroute && e.2.outputs.any fun i => n.wires.netOf i = net).map (·.1)

def block? (n : Network α) (place : Nat) : Option (TracedBlock α) := n.blocks.blocks[place]?

end Network

namespace Liveness

variable {α : Type} [Scalar α]

/-- A bound on the sweeps that are still to come. -/
def size (s : Liveness) : Nat := 2 * s.unseeded.length + s.pending.length

/-- Makes a block a seed for some phases, unless it was one for all of them before. -/
def seed (i : Nat) (phases : PhaseSet) (s : Liveness) : Liveness :=
  let isNew := fun (e : Nat × Phase) => e.1 = i && phases.has e.2
  if s.unseeded.any isNew then
    { s with
      unseeded := s.unseeded.filter fun e => !isNew e
      pending := s.pending ++ [(i, phases)] }
  else s

def mark (net : Nat) (phases : PhaseSet) (s : Liveness) : Liveness :=
  { s with live := s.live.modify net (·.union phases) }

def of (s : Liveness) (net : Nat) : PhaseSet := (s.live[net]?).getD {}

/-- The phases of the outputs of a block together. -/
def ofOutputs (s : Liveness) (n : Network α) (b : TracedBlock α) : PhaseSet :=
  b.outputs.foldl (fun ps i => ps.union (s.of (n.wires.netOf i))) {}

/-- Adds all major phases to the outputs of a block. -/
def markOutputs (n : Network α) (b : TracedBlock α) (s : Liveness) : Liveness :=
  b.outputs.foldl (fun s i => s.mark (n.wires.netOf i) .majors) s

/-- The phases after the first step, in which a delay shows what it was given before. -/
def later : PhaseSet := ⟨false, true, true, true⟩

/-- The phases before the last step. -/
def earlier : PhaseSet := ⟨true, true, false, false⟩

def minorOnly : PhaseSet := ⟨false, false, false, true⟩

/-- What follows when a sweep for some phases comes to a state. -/
def reachState (n : Network α) (minor : Bool) (phases : PhaseSet) (i : Nat) (b : TracedBlock α)
    (s : Liveness) : Liveness :=
  if b.kind = .integrator then
    let s := s.markOutputs n b
    if minor then s.seed i minorOnly else s
  else
    let s := if phases.minor then s.markOutputs n b else s
    if (s.ofOutputs n b).meets later then s.seed i earlier else s

/-- A sweep under way: the blocks it may still come to, and what it has found. -/
structure Sweep where
  frontier : Frontier Nat
  found : Liveness

/-- A sweep comes to a block that drives what it looks at. -/
def Sweep.visitProducer (n : Network α) (minor : Bool) (phases : PhaseSet) (w : Sweep) (i : Nat) :
    Sweep :=
  if w.frontier.fresh.contains i then
    match n.block? i with
    | none => w
    | some b =>
      if b.kind.isBoundary then { w with frontier := w.frontier.settle i }
      else if b.kind.isState then
        ⟨w.frontier.settle i, w.found.reachState n minor phases i b⟩
      else { w with frontier := w.frontier.offer i }
  else w

/-- A sweep passes a wire that leads into a block. -/
def Sweep.visitInput (n : Network α) (minor : Bool) (phases : PhaseSet) (w : Sweep) (i : Nat) :
    Sweep :=
  let net := n.wires.netOf i
  (n.producers net).foldl (Sweep.visitProducer n minor phases)
    { w with found := w.found.mark net phases }

/-- A sweep takes a block from its queue. -/
def Sweep.visit (n : Network α) (minor : Bool) (phases : PhaseSet) (w : Sweep) (i : Nat) : Sweep :=
  (((n.block? i).map (·.inputs)).getD []).foldl (Sweep.visitInput n minor phases) w

theorem size_seed_le (i : Nat) (phases : PhaseSet) (s : Liveness) :
    (s.seed i phases).size ≤ s.size := by
  unfold seed
  simp only
  split
  case isFalse => exact Nat.le_refl _
  case isTrue h =>
    obtain ⟨e, he, hp⟩ := List.any_eq_true.mp h
    have hlt : (s.unseeded.filter fun e => !(decide (e.1 = i) && phases.has e.2)).length <
        s.unseeded.length := by
      refine Nat.lt_of_le_of_ne (List.length_filter_le _ _) fun hl => ?_
      have := List.length_filter_eq_length_iff.mp hl e he
      simp_all
    simp only [size, List.length_append, List.length_singleton]
    omega

theorem size_mark (net : Nat) (phases : PhaseSet) (s : Liveness) :
    (s.mark net phases).size = s.size := rfl

theorem size_markOutputs (n : Network α) (b : TracedBlock α) (s : Liveness) :
    (s.markOutputs n b).size = s.size := by
  unfold markOutputs
  induction b.outputs generalizing s with
  | nil => rfl
  | cons i rest ih => rw [List.foldl_cons, ih, size_mark]

theorem size_reachState_le (n : Network α) (minor : Bool) (phases : PhaseSet) (i : Nat)
    (b : TracedBlock α) (s : Liveness) : (s.reachState n minor phases i b).size ≤ s.size := by
  unfold reachState
  have marked := size_markOutputs n b s
  split
  · simp only
    split
    · exact marked ▸ size_seed_le i minorOnly (s.markOutputs n b)
    · exact Nat.le_of_eq marked
  · have reseed (t : Liveness) (ht : t.size ≤ s.size) :
        (if (t.ofOutputs n b).meets later then t.seed i earlier else t).size ≤ s.size := by
      split
      · exact Nat.le_trans (size_seed_le i earlier t) ht
      · exact ht
    refine reseed _ ?_
    split
    · exact Nat.le_of_eq marked
    · exact Nat.le_refl _

/-- A sweep neither asks for blocks anew nor adds seeds without using them up. -/
def Sweep.Within (w v : Sweep) : Prop :=
  w.frontier.size ≤ v.frontier.size ∧ w.found.size ≤ v.found.size

theorem Sweep.Within.refl (w : Sweep) : w.Within w := ⟨Nat.le_refl _, Nat.le_refl _⟩

theorem Sweep.Within.trans {u v w : Sweep} (h : u.Within v) (k : v.Within w) : u.Within w :=
  ⟨Nat.le_trans h.1 k.1, Nat.le_trans h.2 k.2⟩

theorem Sweep.within_foldl {f : Sweep → Nat → Sweep} (h : ∀ w i, (f w i).Within w) (is : List Nat)
    (w : Sweep) : (is.foldl f w).Within w := by
  induction is generalizing w with
  | nil => exact .refl w
  | cons i is ih => exact (ih (f w i)).trans (h w i)

theorem Sweep.visitProducer_within (n : Network α) (minor : Bool) (phases : PhaseSet) (w : Sweep)
    (i : Nat) : (w.visitProducer n minor phases i).Within w := by
  unfold visitProducer
  split
  · split
    · exact .refl w
    · split
      · exact ⟨Frontier.size_settle_le _ _, Nat.le_refl _⟩
      · split
        · exact ⟨Frontier.size_settle_le _ _, size_reachState_le ..⟩
        · exact ⟨Frontier.size_offer_le _ _, Nat.le_refl _⟩
  · exact .refl w

theorem Sweep.visitInput_within (n : Network α) (minor : Bool) (phases : PhaseSet) (w : Sweep)
    (i : Nat) : (w.visitInput n minor phases i).Within w :=
  (within_foldl (visitProducer_within n minor phases) _ _).trans
    ⟨Nat.le_refl _, Nat.le_of_eq (size_mark ..)⟩

theorem Sweep.visit_within (n : Network α) (minor : Bool) (phases : PhaseSet) (w : Sweep) (i : Nat) :
    (w.visit n minor phases i).Within w :=
  within_foldl (visitInput_within n minor phases) _ _

def Sweep.run (n : Network α) (minor : Bool) (phases : PhaseSet) (w : Sweep) : Liveness :=
  match _ : w.frontier.queue with
  | [] => w.found
  | i :: rest =>
    Sweep.run n minor phases
      (({ w with frontier := { w.frontier with queue := rest } }).visit n minor phases i)
termination_by w.frontier.size
decreasing_by
  refine Nat.lt_of_le_of_lt (Sweep.visit_within ..).1 ?_
  simp_all [Frontier.size]

theorem Sweep.size_run_le (n : Network α) (minor : Bool) (phases : PhaseSet) (w : Sweep) :
    (w.run n minor phases).size ≤ w.found.size := by
  fun_induction Sweep.run n minor phases w with
  | case1 => exact Nat.le_refl _
  | case2 w i rest h ih => exact Nat.le_trans ih (visit_within ..).2

/-- A sweep from one seed, which it does not come back to. -/
def sweep (n : Network α) (minor : Bool) (i : Nat) (phases : PhaseSet) (s : Liveness) : Liveness :=
  Sweep.run n minor phases ⟨⟨(List.range n.blocks.size).erase i, [i]⟩, s⟩

/-- Sweeps from every seed until none is left. -/
def exhaust (n : Network α) (minor : Bool) (s : Liveness) : Liveness :=
  match _ : s.pending with
  | [] => s
  | (i, phases) :: rest => exhaust n minor (({ s with pending := rest }).sweep n minor i phases)
termination_by s.size
decreasing_by
  refine Nat.lt_of_le_of_lt (Sweep.size_run_le ..) ?_
  simp_all [size]

/-- Nothing is live and no block was a seed. -/
def start (n : Network α) : Liveness :=
  { live := List.replicate n.wires.netCount {}
    unseeded := (List.range n.blocks.size).flatMap fun i => Phase.all.map fun p => (i, p)
    pending := [] }

/-- Every sink becomes a seed for its phases. -/
def seedSinks (n : Network α) (s : Liveness) : Liveness :=
  n.blocks.entries.foldl (fun s e => if e.2.kind.isSink then s.seed e.1 e.2.sinkPhases else s) s

/-- Nets from outside that are live in the minor phase become live in all major ones. -/
def anchor (n : Network α) (live : List PhaseSet) : List PhaseSet :=
  live.zipIdx.map fun (phases, net) =>
    if phases.minor && (n.wires.group net).any fun w => w.input || w.external then
      phases.union .majors
    else phases

end Liveness

namespace Network

variable {α : Type} [Scalar α]

/-- The phases that every net is live in; `minor` says whether intervals have stages. Sinks need what leads
into them in their own phases. A sweep back from a seed ends at inputs from outside and at states, which
become seeds of their own: a delay needs its inputs one step before, and an integrator its inputs in the
stages and its outputs at all steps. -/
def liveness (n : Network α) (minor : Bool) : List PhaseSet :=
  Liveness.anchor n (((Liveness.start n).seedSinks n).exhaust n minor).live

/-- The network with the phases of its nets put on their wires. -/
def withLiveness (n : Network α) (live : List PhaseSet) : Network α :=
  { n with wires := { n.wires with wires := n.wires.wires.map fun w =>
      { w with phases := (live[w.net]?).getD {} } } }

end Network

end Transcription
