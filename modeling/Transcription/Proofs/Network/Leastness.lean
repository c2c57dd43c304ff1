import Transcription.Proofs.Program.Stages

namespace Transcription

namespace PhaseSet

theorem eq_of_sub {s t : PhaseSet} (h : s.Sub t) (k : t.Sub s) : s = t := by
  have hiff (p : Phase) : s.has p = t.has p := Bool.eq_iff_iff.mpr ⟨h p, k p⟩
  have hi := hiff (.major .initial)
  have hm := hiff (.major .intermediate)
  have hf := hiff (.major .final)
  have hs := hiff .minor
  cases s
  cases t
  simp_all [has, hasMajor]

end PhaseSet

namespace Network

variable {α : Type} [Scalar α]

def SinksEnd (n : Network α) : Prop :=
  ∀ k b, n.block? k = some b → b.kind.isSink = true → b.outputs = []

/-- The same network with its blocks in another order: block `k` is now block `σ k`. -/
structure Reorders (n m : Network α) (σ : Equiv.Perm Nat) : Prop where
  block?_eq : ∀ k, m.block? (σ k) = n.block? k
  wires_eq : m.wires.wires = n.wires.wires.map fun w => { w with block := σ w.block }

end Network

namespace Liveness

open Network

variable {α : Type} [Scalar α] {n : Network α} {minor : Bool} {live : Nat → PhaseSet}

def Due (n : Network α) (live : Nat → PhaseSet) (k : Nat) (phases : PhaseSet) : Prop :=
  ∀ b, n.block? k = some b → ∀ i ∈ b.inputs, phases.Sub (live (n.wires.netOf i))

structure Below (n : Network α) (live : Nat → PhaseSet) (s : Liveness) : Prop where
  marked : ∀ net, (s.of net).Sub (live net)
  pending : ∀ e ∈ s.pending, (∃ p, e.2.has p = true) ∧ Due n live e.1 e.2

theorem Below.mark {s : Liveness} (h : s.Below n live) {net : Nat} {phases : PhaseSet}
    (hp : phases.Sub (live net)) : (s.mark net phases).Below n live where
  marked c p hc := by
    cases has_mark.mp hc with
    | inl hold => exact h.marked c p hold
    | inr hnew =>
      obtain ⟨rfl, _, hphase⟩ := hnew
      exact hp p hphase
  pending := h.pending

theorem Below.markOutputs {s : Liveness} (h : s.Below n live) {b : TracedBlock α}
    (hp : ∀ o ∈ b.outputs, PhaseSet.majors.Sub (live (n.wires.netOf o))) :
    (s.markOutputs n b).Below n live where
  marked c p hc := by
    cases has_markOutputs.mp hc with
    | inl hold => exact h.marked c p hold
    | inr hnew =>
      obtain ⟨_, hphase, o, ho, rfl⟩ := hnew
      exact hp o ho p hphase
  pending e he := h.pending e ((markOutputs_eq n b s).2.1 ▸ he)

theorem Below.seed {s : Liveness} (h : s.Below n live) {k : Nat} {phases : PhaseSet}
    (hd : Due n live k phases) : (s.seed k phases).Below n live := by
  unfold Liveness.seed
  simp only
  split
  case isFalse => exact h
  case isTrue hnew =>
    obtain ⟨e, _, he⟩ := List.any_eq_true.mp hnew
    refine ⟨h.marked, ?_⟩
    intro f hf
    cases List.mem_append.mp hf with
    | inl hold => exact h.pending f hold
    | inr hlast =>
      obtain rfl := List.mem_singleton.mp hlast
      simp only [Bool.and_eq_true] at he
      exact ⟨⟨e.2, he.2⟩, hd⟩

/-- A sweep that comes to a state marks and seeds what the rules ask for. -/
theorem Below.reachState {s : Liveness} (h : s.Below n live) (hc : n.Closed minor live) {k o : Nat}
    {b : TracedBlock α} (hb : n.block? k = some b) (hk : b.kind.isState = true) (ho : o ∈ b.outputs)
    {phases : PhaseSet} (hne : ∃ p, phases.has p = true)
    (hp : phases.Sub (live (n.wires.netOf o))) :
    (s.reachState n minor phases k b).Below n live := by
  obtain ⟨q, hq⟩ := hne
  unfold Liveness.reachState
  by_cases hkind : b.kind = .integrator
  · rw [if_pos hkind]
    obtain ⟨hmajors, hminor⟩ := hc.integrator k b hb hkind o ho q (hp q hq)
    have hmarked := h.markOutputs hmajors
    simp only
    split
    case isFalse => exact hmarked
    case isTrue hm =>
      apply hmarked.seed
      intro c hcb i hi p hphase
      obtain rfl := Option.some.inj (hb.symm.trans hcb)
      have := hminor hm i hi
      rcases p with (_ | _ | _) | _ <;> simp_all [minorOnly, PhaseSet.has, PhaseSet.hasMajor]
  · rw [if_neg hkind]
    have hdelay : b.kind = .delay := by
      cases hkb : b.kind <;> simp_all [BlockKind.isState]
    have hmarked : (if phases.minor = true then s.markOutputs n b else s).Below n live := by
      split
      case isFalse => exact h
      case isTrue hm => exact h.markOutputs (hc.held k b hb hdelay o ho (hp .minor hm))
    simp only
    generalize (if phases.minor = true then s.markOutputs n b else s) = t at hmarked
    by_cases hlater : (t.ofOutputs n b).meets later = true
    · rw [if_pos hlater]
      apply hmarked.seed
      intro c hcb i hi
      obtain rfl := Option.some.inj (hb.symm.trans hcb)
      obtain ⟨p, hout, hpl⟩ := (PhaseSet.meets_iff _ _).mp hlater
      obtain ⟨r, hr, hlive⟩ := has_ofOutputs.mp hout
      apply hc.before k b hb hdelay r hr _ i hi
      exact (PhaseSet.meets_iff _ _).mpr ⟨p, hmarked.marked _ p hlive, hpl⟩
    · rw [if_neg hlater]
      exact hmarked

structure Sweep.Below (n : Network α) (live : Nat → PhaseSet) (phases : PhaseSet) (w : Sweep) :
    Prop where
  found : w.found.Below n live
  queue : ∀ k ∈ w.frontier.queue, Due n live k phases

section Sweeps

variable {phases : PhaseSet} {w : Sweep}

theorem Sweep.Below.visitProducer (h : w.Below n live phases) (hc : n.Closed minor live)
    (hs : n.SinksEnd) (hne : ∃ p, phases.has p = true) {net k : Nat}
    (hp : phases.Sub (live net)) (hk : k ∈ n.producers net) :
    (w.visitProducer n minor phases k).Below n live phases := by
  obtain ⟨b, hb, hr, o, ho, rfl⟩ := mem_producers.mp hk
  unfold Sweep.visitProducer
  split
  case isFalse => exact h
  case isTrue hfresh =>
    rw [hb]
    simp only
    split
    case isTrue => exact ⟨h.found, h.queue⟩
    case isFalse hboundary =>
      split
      case isTrue hstate => exact ⟨h.found.reachState hc hb hstate ho hne hp, h.queue⟩
      case isFalse hstate =>
        -- a sink drives nothing, so the sweep goes on through a primitive
        have hprimitive : b.kind = .primitive := by
          have hsink : b.kind.isSink ≠ true := by
            intro hsink
            rw [hs k b hb hsink] at ho
            cases ho
          cases hkb : b.kind <;>
            simp_all [BlockKind.isReroute, BlockKind.isBoundary, BlockKind.isState, BlockKind.isSink]
        refine ⟨h.found, ?_⟩
        simp only [Frontier.offer, hfresh, if_true]
        intro j hj
        cases List.mem_append.mp hj with
        | inl hold => exact h.queue j hold
        | inr hlast =>
          obtain rfl := List.mem_singleton.mp hlast
          intro c hcb i hi
          obtain rfl := Option.some.inj (hb.symm.trans hcb)
          exact hp.trans (hc.primitive j b hb hprimitive o ho i hi)

theorem Sweep.Below.visitInput (h : w.Below n live phases) (hc : n.Closed minor live)
    (hs : n.SinksEnd) (hne : ∃ p, phases.has p = true) {i : Nat}
    (hp : phases.Sub (live (n.wires.netOf i))) :
    (w.visitInput n minor phases i).Below n live phases := by
  have hfold (ks : List Nat) (v : Sweep) (hv : v.Below n live phases)
      (hks : ∀ k ∈ ks, k ∈ n.producers (n.wires.netOf i)) :
      (ks.foldl (Sweep.visitProducer n minor phases) v).Below n live phases := by
    induction ks generalizing v with
    | nil => exact hv
    | cons k ks ih =>
      obtain ⟨hk, hks⟩ := List.forall_mem_cons.mp hks
      exact ih _ (hv.visitProducer hc hs hne hp hk) hks
  exact hfold _ _ ⟨h.found.mark hp, h.queue⟩ fun _ hk => hk

theorem Sweep.Below.visit (h : w.Below n live phases) (hc : n.Closed minor live) (hs : n.SinksEnd)
    (hne : ∃ p, phases.has p = true) {k : Nat} (hd : Due n live k phases) :
    (w.visit n minor phases k).Below n live phases := by
  have hfold (is : List Nat) (v : Sweep) (hv : v.Below n live phases)
      (his : ∀ i ∈ is, phases.Sub (live (n.wires.netOf i))) :
      (is.foldl (Sweep.visitInput n minor phases) v).Below n live phases := by
    induction is generalizing v with
    | nil => exact hv
    | cons i is ih =>
      obtain ⟨hi, his⟩ := List.forall_mem_cons.mp his
      exact ih _ (hv.visitInput hc hs hne hi) his
  unfold Sweep.visit
  cases hb : n.block? k with
  | none => exact h
  | some b => exact hfold b.inputs w h (hd b hb)

theorem Sweep.Below.run (h : w.Below n live phases) (hc : n.Closed minor live) (hs : n.SinksEnd)
    (hne : ∃ p, phases.has p = true) : (w.run n minor phases).Below n live := by
  fun_induction Sweep.run n minor phases w with
  | case1 w hq => exact h.found
  | case2 w k rest hq ih =>
    have hrest : Sweep.Below n live phases
        { w with frontier := { w.frontier with queue := rest } } := by
      refine ⟨h.found, ?_⟩
      intro j hj
      exact h.queue j (by rw [hq]; exact List.mem_cons_of_mem _ hj)
    exact ih (hrest.visit hc hs hne (h.queue k (by rw [hq]; exact List.mem_cons_self)))

end Sweeps

theorem Below.sweep {s : Liveness} (h : s.Below n live) (hc : n.Closed minor live)
    (hs : n.SinksEnd) {k : Nat} {phases : PhaseSet} {rest : List (Nat × PhaseSet)}
    (hp : s.pending = (k, phases) :: rest) :
    (({ s with pending := rest } : Liveness).sweep n minor k phases).Below n live := by
  obtain ⟨hne, hd⟩ := h.pending (k, phases) (by rw [hp]; exact List.mem_cons_self)
  refine Sweep.Below.run ⟨⟨h.marked, ?_⟩, ?_⟩ hc hs hne
  · intro e he
    exact h.pending e (by rw [hp]; exact List.mem_cons_of_mem _ he)
  · intro j hj
    obtain rfl := List.mem_singleton.mp hj
    exact hd

theorem Below.exhaust {s : Liveness} (h : s.Below n live) (hc : n.Closed minor live)
    (hs : n.SinksEnd) : (s.exhaust n minor).Below n live := by
  fun_induction Liveness.exhaust n minor s with
  | case1 s hp => exact h
  | case2 s k phases rest hp ih => exact ih (h.sweep hc hs hp)

theorem below_seedSinks (hc : n.Closed minor live) : ((start n).seedSinks n).Below n live := by
  have hfold (es : List (Nat × TracedBlock α)) (s : Liveness) (h : s.Below n live)
      (hes : ∀ e ∈ es, n.block? e.1 = some e.2) :
      (es.foldl (fun s e => if e.2.kind.isSink then s.seed e.1 e.2.sinkPhases else s) s).Below
        n live := by
    induction es generalizing s with
    | nil => exact h
    | cons e es ih =>
      obtain ⟨he, hes⟩ := List.forall_mem_cons.mp hes
      refine ih _ ?_ hes
      simp only
      split
      case isFalse => exact h
      case isTrue hsink =>
        apply h.seed
        intro b hb
        obtain rfl := Option.some.inj (he.symm.trans hb)
        exact hc.sink e.1 e.2 he hsink
  refine hfold _ _ ⟨?_, fun e he => nomatch he⟩ fun e he => mem_entries.mp he
  intro net p hp
  rw [of_start] at hp
  exact absurd hp (PhaseSet.not_has_empty p)

/-- Every family that is closed under the rules has the phases that the propagation comes to. -/
theorem liveness_sub (hs : n.SinksEnd) (hc : n.Closed minor live) (net : Nat) :
    (((n.liveness minor)[net]?).getD {}).Sub (live net) := by
  have hbelow := (below_seedSinks hc).exhaust hc hs
  intro p hp
  cases has_anchor.mp hp with
  | inl hmarked => exact hbelow.marked net p hmarked
  | inr hanchored =>
    obtain ⟨hminor, hmajor, w, hw, rfl, hflag⟩ := hanchored
    exact hc.outside w hw hflag (hbelow.marked _ _ hminor) p hmajor

def next (n : Network α) (minor : Bool) (s : Liveness) : Liveness :=
  match s.pending with
  | [] => s
  | (k, phases) :: rest => ({ s with pending := rest } : Liveness).sweep n minor k phases

/-- The work queue empties after no more sweeps than there are seeds left. -/
theorem exists_iterate_next (n : Network α) (minor : Bool) (s : Liveness) :
    ∃ count ≤ s.size, (next n minor)^[count] s = s.exhaust n minor ∧
      (s.exhaust n minor).pending = [] := by
  fun_induction Liveness.exhaust n minor s with
  | case1 s hp => exact ⟨0, Nat.zero_le _, rfl, hp⟩
  | case2 s k phases rest hp ih =>
    obtain ⟨count, hle, hiter, hend⟩ := ih
    have hnext : next n minor s = ({ s with pending := rest } : Liveness).sweep n minor k phases := by
      rw [next, hp]
    have hless : (({ s with pending := rest } : Liveness).sweep n minor k phases).size < s.size := by
      refine Nat.lt_of_le_of_lt (Sweep.size_run_le ..) ?_
      simp [size, hp]
    refine ⟨count + 1, by omega, ?_, hend⟩
    rw [Function.iterate_succ_apply, hnext, hiter]

theorem size_seedSinks_le (n : Network α) : ((start n).seedSinks n).size ≤ 8 * n.blocks.size := by
  have hfold (es : List (Nat × TracedBlock α)) (s : Liveness) :
      (es.foldl (fun s e => if e.2.kind.isSink then s.seed e.1 e.2.sinkPhases else s) s).size ≤
        s.size := by
    induction es generalizing s with
    | nil => exact Nat.le_refl _
    | cons e es ih =>
      refine Nat.le_trans (ih _) ?_
      simp only
      split
      · exact size_seed_le _ _ s
      · exact Nat.le_refl _
  refine Nat.le_trans (hfold _ _) ?_
  simp [start, size, Phase.all, MajorPhase.all]
  omega

end Liveness

namespace Network

variable {α : Type} [Scalar α] {n m : Network α} {minor : Bool} {live : Nat → PhaseSet}
  {σ : Equiv.Perm Nat}

theorem Reorders.symm (h : n.Reorders m σ) : m.Reorders n σ.symm where
  block?_eq k := by rw [← h.block?_eq, σ.apply_symm_apply]
  wires_eq := by simp [h.wires_eq, Function.comp_def]

theorem Reorders.netOf_eq (h : n.Reorders m σ) : m.wires.netOf = n.wires.netOf := by
  funext i
  simp only [WireTable.netOf, h.wires_eq, List.getElem?_map, Option.map_map]
  rfl

theorem Reorders.netCount_eq (h : n.Reorders m σ) : m.wires.netCount = n.wires.netCount := by
  simp [WireTable.netCount, h.wires_eq, Function.comp_def]

theorem Reorders.block?_symm (h : n.Reorders m σ) (k : Nat) : n.block? (σ.symm k) = m.block? k := by
  rw [← h.block?_eq, σ.apply_symm_apply]

theorem Reorders.mem_wires (h : n.Reorders m σ) {w : Wire α} (hw : w ∈ m.wires.wires) :
    ∃ v ∈ n.wires.wires, w = { v with block := σ v.block } := by
  rw [h.wires_eq] at hw
  obtain ⟨v, hv, rfl⟩ := List.mem_map.mp hw
  exact ⟨v, hv, rfl⟩

/-- The rules do not ask in which order blocks stand. -/
theorem Reorders.closed (h : n.Reorders m σ) (hc : n.Closed minor live) : m.Closed minor live where
  sink k b hb := by
    rw [h.netOf_eq]
    exact hc.sink _ b ((h.block?_symm k).trans hb)
  primitive k b hb := by
    rw [h.netOf_eq]
    exact hc.primitive _ b ((h.block?_symm k).trans hb)
  integrator k b hb := by
    rw [h.netOf_eq]
    exact hc.integrator _ b ((h.block?_symm k).trans hb)
  held k b hb := by
    rw [h.netOf_eq]
    exact hc.held _ b ((h.block?_symm k).trans hb)
  before k b hb := by
    rw [h.netOf_eq]
    exact hc.before _ b ((h.block?_symm k).trans hb)
  outside w hw := by
    obtain ⟨v, hv, rfl⟩ := h.mem_wires hw
    exact hc.outside v hv

theorem Reorders.driven (h : n.Reorders m σ) (hn : n.Driven) : m.Driven where
  inside k b hb := by
    rw [h.netOf_eq, h.netCount_eq]
    exact hn.inside _ b ((h.block?_symm k).trans hb)
  single j b k c hb hc hbr hcr i hi l hl := by
    rw [h.netOf_eq]
    intro hnet
    exact σ.symm.injective (hn.single _ b _ c ((h.block?_symm j).trans hb)
      ((h.block?_symm k).trans hc) hbr hcr i hi l hl hnet)
  outside w hw hflag := by
    obtain ⟨v, hv, rfl⟩ := h.mem_wires hw
    obtain ⟨k, b, hb, hk, i, hi, hnet⟩ := hn.outside v hv hflag
    refine ⟨σ k, b, (h.block?_eq k).trans hb, hk, i, hi, ?_⟩
    rw [h.netOf_eq]
    exact hnet

theorem Reorders.sinksEnd (h : n.Reorders m σ) (hs : n.SinksEnd) : m.SinksEnd :=
  fun k b hb => hs _ b ((h.block?_symm k).trans hb)

/-- What is closed under the rules in one order has the phases that are found in any other one. -/
theorem Reorders.liveness_eq (h : n.Reorders m σ) (hn : n.Driven) (hs : n.SinksEnd) (minor : Bool) :
    m.liveness minor = n.liveness minor := by
  have hlen : (m.liveness minor).length = (n.liveness minor).length := by
    rw [Liveness.length_liveness (h.driven hn), Liveness.length_liveness hn, h.netCount_eq]
  have heq (net : Nat) : ((m.liveness minor)[net]?).getD {} = ((n.liveness minor)[net]?).getD {} := by
    apply PhaseSet.eq_of_sub
    · exact Liveness.liveness_sub (h.sinksEnd hs) (h.closed (Liveness.closed_liveness hn minor)) net
    · exact Liveness.liveness_sub hs
        (h.symm.closed (Liveness.closed_liveness (h.driven hn) minor)) net
  apply List.ext_getElem hlen
  intro net h₁ h₂
  have := heq net
  rwa [List.getElem?_eq_getElem h₁, List.getElem?_eq_getElem h₂] at this

/-- Liveness is the least family of phases that is closed under the rules. It does not depend on the
order of blocks, and the work queue empties. -/
theorem liveness_isLeast (hn : n.Driven) (hs : n.SinksEnd) (minor : Bool) :
    (n.liveness minor).length = n.wires.netCount ∧
      (n.Closed minor fun net => ((n.liveness minor)[net]?).getD {}) ∧
      (∀ live : Nat → PhaseSet, n.Closed minor live →
        ∀ net, PhaseSet.Sub (((n.liveness minor)[net]?).getD {}) (live net)) ∧
      (∀ m σ, n.Reorders m σ → m.liveness minor = n.liveness minor) ∧
      ∃ count ≤ 8 * n.blocks.size,
        let s := (Liveness.next n minor)^[count] ((Liveness.start n).seedSinks n)
        s.pending = [] ∧ n.liveness minor = Liveness.anchor n s.live := by
  obtain ⟨count, hle, hiter, hend⟩ :=
    Liveness.exists_iterate_next n minor ((Liveness.start n).seedSinks n)
  refine ⟨Liveness.length_liveness hn minor, Liveness.closed_liveness hn minor, ?_, ?_, count, ?_, ?_⟩
  · intro live hc net
    exact Liveness.liveness_sub hs hc net
  · intro m σ h
    exact h.liveness_eq hn hs minor
  · exact Nat.le_trans hle (Liveness.size_seedSinks_le n)
  · simp only [hiter]
    exact ⟨hend, rfl⟩

end Network

namespace RunningTotal

theorem wired_network : network.Wired :=
  have hmerge : (Run.mergeWires traced).result = .ok (4, network) := rfl
  (Network.wired_mergeWires (d := diagram) trace_diagram hmerge).1

theorem driven_network : network.Driven := wired_network.driven singleSourced_network

theorem sinksEnd_network : network.SinksEnd := by
  intro k b hb hk
  match k with
  | 0 =>
    cases hb
    rfl
  | 1 | 2 | 3 | 4 =>
    cases hb
    cases hk
  | k + 5 => cases hb

end RunningTotal

/-- The running total, with stages. -/
theorem Network.liveness_isLeast_total :
    RunningTotal.network.Driven ∧ RunningTotal.network.SinksEnd ∧
      (RunningTotal.network.liveness true).length = RunningTotal.network.wires.netCount ∧
      (RunningTotal.network.Closed true fun net =>
        ((RunningTotal.network.liveness true)[net]?).getD {}) ∧
      (∀ live : Nat → PhaseSet, RunningTotal.network.Closed true live →
        ∀ net, PhaseSet.Sub (((RunningTotal.network.liveness true)[net]?).getD {}) (live net)) ∧
      (∀ m σ, RunningTotal.network.Reorders m σ →
        m.liveness true = RunningTotal.network.liveness true) ∧
      ∃ count ≤ 8 * RunningTotal.network.blocks.size,
        let s := (Liveness.next RunningTotal.network true)^[count]
          ((Liveness.start RunningTotal.network).seedSinks RunningTotal.network)
        s.pending = [] ∧
          RunningTotal.network.liveness true = Liveness.anchor RunningTotal.network s.live :=
  ⟨RunningTotal.driven_network, RunningTotal.sinksEnd_network,
    liveness_isLeast RunningTotal.driven_network RunningTotal.sinksEnd_network true⟩

end Transcription
