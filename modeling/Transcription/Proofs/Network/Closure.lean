import Transcription.Proofs.Network.Rules

namespace Transcription.Liveness

open Network

variable {α : Type} [Scalar α]

def Through (b : TracedBlock α) : Prop :=
  b.kind.isReroute = false ∧ b.kind.isBoundary = false ∧ b.kind.isState = false

/-- What a block owes to an output that is live in a phase, states being bound to become seeds. -/
structure Follows (n : Network α) (minor : Bool) (s : Liveness) (k : Nat) (b : TracedBlock α)
    (p : Phase) : Prop where
  integrator : b.kind = .integrator →
    (∀ q ∈ b.outputs, PhaseSet.majors.Sub (s.of (n.wires.netOf q))) ∧
      (minor = true → (k, .minor) ∉ s.unseeded)
  held : b.kind = .delay → p = .minor →
    ∀ q ∈ b.outputs, PhaseSet.majors.Sub (s.of (n.wires.netOf q))
  before : b.kind = .delay → later.has p = true → ∀ p', earlier.has p' = true → (k, p') ∉ s.unseeded
  through : Through b → ∀ i ∈ b.inputs, (s.of (n.wires.netOf i)).has p = true

variable {n : Network α} {minor : Bool}

theorem Follows.mono {s t : Liveness} {k : Nat} {b : TracedBlock α} {p : Phase}
    (h : Follows n minor s k b p) (g : Grows s t) : Follows n minor t k b p where
  integrator hk := ⟨fun q hq => ((h.integrator hk).1 q hq).trans (g.live _),
    fun hm hu => (h.integrator hk).2 hm (g.unseeded _ hu)⟩
  held hk hp q hq := (h.held hk hp q hq).trans (g.live _)
  before hk hp p' hp' hu := h.before hk hp p' hp' (g.unseeded _ hu)
  through ht i hi := g.live _ _ (h.through ht i hi)

/-- Blocks that neither pass phases on nor keep values owe nothing. -/
theorem follows_of_idle {s : Liveness} {k : Nat} {b : TracedBlock α} {p : Phase}
    (hs : b.kind.isState = false) (ht : ¬ Through b) : Follows n minor s k b p where
  integrator hk := by simp [hk, BlockKind.isState] at hs
  held hk := by simp [hk, BlockKind.isState] at hs
  before hk := by simp [hk, BlockKind.isState] at hs
  through h := absurd h ht

theorem follows_of_reroute {s : Liveness} {k : Nat} {b : TracedBlock α} {p : Phase}
    (h : b.kind.isReroute = true) : Follows n minor s k b p := by
  have hs : b.kind.isState = false := by
    cases hk : b.kind <;> simp [hk, BlockKind.isReroute, BlockKind.isState] at h ⊢
  refine follows_of_idle hs fun ht => ?_
  rw [ht.1] at h
  cases h

omit [Scalar α] in
theorem not_through_of_state {b : TracedBlock α} (h : b.kind.isState = true) : ¬ Through b := by
  rintro ⟨_, _, hs⟩
  rw [h] at hs
  cases hs

structure Stable (n : Network α) (minor : Bool) (s : Liveness) : Prop where
  length : s.live.length = n.wires.netCount
  flow : ∀ k b, n.block? k = some b → ∀ o ∈ b.outputs, ∀ p,
    (s.of (n.wires.netOf o)).has p = true → Follows n minor s k b p
  seeds : ∀ k b, n.block? k = some b → ∀ p, (k, p) ∉ s.unseeded →
    (∀ i ∈ b.inputs, (s.of (n.wires.netOf i)).has p = true) ∨
      ∃ phases, (k, phases) ∈ s.pending ∧ phases.has p = true
  pending : ∀ e ∈ s.pending, ∃ b, n.block? e.1 = some b ∧
    (¬ Through b → ∀ p, e.2.has p = true → Follows n minor s e.1 b p)
  sinks : ∀ k b, n.block? k = some b → b.kind.isSink = true →
    ∀ p, b.sinkPhases.has p = true → (k, p) ∉ s.unseeded

/-- What holds during a sweep from a seed: `isOpen` says whose inputs are being passed, and `isOwed`
which blocks are still to be come to from the input that was passed last. -/
structure Sweep.Sound (n : Network α) (minor : Bool) (phases : PhaseSet) (origin : Nat)
    (isOpen isOwed : Nat → Prop) (w : Sweep) : Prop where
  length : w.found.live.length = n.wires.netCount
  nodup : w.frontier.fresh.Nodup
  flow : ∀ k b, n.block? k = some b → ∀ o ∈ b.outputs, ∀ p,
    (w.found.of (n.wires.netOf o)).has p = true →
      Follows n minor w.found k b p ∨ (phases.has p = true ∧ (k ∉ w.frontier.fresh ∨ isOwed k))
  reached : ∀ k b, n.block? k = some b → k ∉ w.frontier.fresh → ∀ p, phases.has p = true →
    Follows n minor w.found k b p ∨ (Through b ∧ (k ∈ w.frontier.queue ∨ isOpen k))
  source : origin ∈ w.frontier.queue ∨ isOpen origin ∨ ∀ b, n.block? origin = some b →
    ∀ i ∈ b.inputs, phases.Sub (w.found.of (n.wires.netOf i))
  seeds : ∀ k b, n.block? k = some b → ∀ p, (k, p) ∉ w.found.unseeded →
    (∀ i ∈ b.inputs, (w.found.of (n.wires.netOf i)).has p = true) ∨
      (∃ ps, (k, ps) ∈ w.found.pending ∧ ps.has p = true) ∨ (k = origin ∧ phases.has p = true)
  pending : ∀ e ∈ w.found.pending, ∃ b, n.block? e.1 = some b ∧
    (¬ Through b → ∀ p, e.2.has p = true → Follows n minor w.found e.1 b p)
  sinks : ∀ k b, n.block? k = some b → b.kind.isSink = true →
    ∀ p, b.sinkPhases.has p = true → (k, p) ∉ w.found.unseeded

structure Reaches (n : Network α) (minor : Bool) (phases : PhaseSet) (k : Nat) (b : TracedBlock α)
    (s t : Liveness) : Prop where
  grows : Grows s t
  follows : ∀ p, phases.has p = true → Follows n minor t k b p ∨ Through b
  marked : ∀ net p, (t.of net).has p = true → (s.of net).has p = true ∨
    ((∃ o ∈ b.outputs, n.wires.netOf o = net) ∧ Follows n minor t k b p)
  pending : ∀ e ∈ t.pending, e ∈ s.pending ∨ (e.1 = k ∧ ∀ p, e.2.has p = true → Follows n minor t k b p)
  kept : ∀ e ∈ s.pending, e ∈ t.pending
  seeds : ∀ e ∈ s.unseeded, e ∉ t.unseeded →
    e.1 = k ∧ ∃ ps, (k, ps) ∈ t.pending ∧ ps.has e.2 = true

/-- Where nothing changes, a block is passed through or owes nothing anyway. -/
theorem reaches_self {phases : PhaseSet} {k : Nat} {b : TracedBlock α} {s : Liveness}
    (h : Through b ∨ ∀ p, Follows n minor s k b p) : Reaches n minor phases k b s s where
  grows := .refl s
  follows p _ := h.symm.imp_left fun hf => hf p
  marked _ _ hp := .inl hp
  pending _ he := .inl he
  kept _ he := he
  seeds _ he hn := absurd he hn

structure Touches (n : Network α) (b : TracedBlock α) (marks : Prop) (s t : Liveness) : Prop where
  grows : Grows s t
  unseeded_eq : t.unseeded = s.unseeded
  pending_eq : t.pending = s.pending
  marked : ∀ net p, (t.of net).has p = true → (s.of net).has p = true ∨
    (marks ∧ ∃ o ∈ b.outputs, n.wires.netOf o = net)

theorem touches_markOutputs (n : Network α) (b : TracedBlock α) (s : Liveness) {marks : Prop}
    (hm : marks) : Touches n b marks s (s.markOutputs n b) where
  grows := grows_markOutputs n b s
  unseeded_eq := (markOutputs_eq n b s).1
  pending_eq := (markOutputs_eq n b s).2.1
  marked _ _ h := (has_markOutputs.mp h).imp_right fun ⟨_, _, ho⟩ => ⟨hm, ho⟩

theorem touches_ite (n : Network α) (b : TracedBlock α) (s : Liveness) (marks : Prop)
    [Decidable marks] : Touches n b marks s (if marks then s.markOutputs n b else s) := by
  split
  · exact touches_markOutputs n b s ‹_›
  · exact ⟨.refl s, rfl, rfl, fun _ _ h => .inl h⟩

theorem majors_markOutputs {b : TracedBlock α} {s : Liveness}
    (hin : ∀ o ∈ b.outputs, n.wires.netOf o < s.live.length) :
    ∀ o ∈ b.outputs, PhaseSet.majors.Sub ((s.markOutputs n b).of (n.wires.netOf o)) :=
  fun o ho _ hp => has_markOutputs.mpr (.inr ⟨hin o ho, hp, o, ho, rfl⟩)

/-- A state that becomes no seed owes nothing in the phases of the sweep, nor in any phase if its
outputs were marked. -/
theorem Touches.reaches {phases : PhaseSet} {k : Nat} {b : TracedBlock α} {s t : Liveness}
    {marks : Prop} (h : Touches n b marks s t)
    (hf : ∀ p, phases.has p = true ∨ marks → Follows n minor t k b p) :
    Reaches n minor phases k b s t where
  grows := h.grows
  follows p hp := .inl (hf p (.inl hp))
  marked net p hp := (h.marked net p hp).imp_right fun hm => ⟨hm.2, hf p (.inr hm.1)⟩
  pending _ he := .inl (h.pending_eq ▸ he)
  kept _ he := h.pending_eq.symm ▸ he
  seeds _ he hn := absurd (h.unseeded_eq.symm ▸ he) hn

/-- A state that becomes a seed owes nothing in the phases it is a seed for either. -/
theorem Touches.reaches_seed {phases seeds : PhaseSet} {k : Nat} {b : TracedBlock α}
    {s t : Liveness} {marks : Prop} (h : Touches n b marks s t)
    (hf : ∀ p, phases.has p = true ∨ seeds.has p = true ∨ marks →
      Follows n minor (t.seed k seeds) k b p) :
    Reaches n minor phases k b s (t.seed k seeds) where
  grows := h.grows.trans (grows_seed t k seeds)
  follows p hp := .inl (hf p (.inl hp))
  marked net p hp := by
    rw [of, live_seed] at hp
    exact (h.marked net p hp).imp_right fun hm => ⟨hm.2, hf p (.inr (.inr hm.1))⟩
  pending e he := by
    rcases mem_pending_seed he with he | rfl
    · exact .inl (h.pending_eq ▸ he)
    · exact .inr ⟨rfl, fun p hp => hf p (.inr (.inl hp))⟩
  kept _ he := pending_subset_seed (h.pending_eq.symm ▸ he)
  seeds e he hn := by
    obtain ⟨hk, hp, hpending⟩ := pending_seed (h.unseeded_eq.symm ▸ he) hn
    exact ⟨hk, _, hpending, hp⟩

theorem reaches_integrator {phases : PhaseSet} {k : Nat} {b : TracedBlock α} {s : Liveness}
    (hk : b.kind = .integrator) (hin : ∀ o ∈ b.outputs, n.wires.netOf o < s.live.length) :
    Reaches n minor phases k b s (s.reachState n minor phases k b) := by
  have htouches : Touches n b True s (s.markOutputs n b) := touches_markOutputs n b s trivial
  have hfollows (t : Liveness) (g : Grows (s.markOutputs n b) t)
      (hm : minor = true → (k, .minor) ∉ t.unseeded) (p : Phase) : Follows n minor t k b p :=
    ⟨fun _ => ⟨fun q hq => (majors_markOutputs hin q hq).trans (g.live _), hm⟩,
      fun h => by simp [hk] at h, fun h => by simp [hk] at h,
      fun h => absurd h (not_through_of_state (by simp [hk, BlockKind.isState]))⟩
  unfold reachState
  rw [if_pos hk]
  simp only
  cases minor with
  | false => exact htouches.reaches fun p _ => hfollows _ (.refl _) (by simp) p
  | true =>
    exact htouches.reaches_seed fun p _ =>
      hfollows _ (grows_seed _ k minorOnly) (fun _ => not_unseeded_seed rfl) p

theorem reaches_delay {phases : PhaseSet} {k : Nat} {b : TracedBlock α} {s : Liveness}
    (hk : b.kind = .delay) (hin : ∀ o ∈ b.outputs, n.wires.netOf o < s.live.length)
    (hlive : ∃ o ∈ b.outputs, phases.Sub (s.of (n.wires.netOf o))) :
    Reaches n minor phases k b s (s.reachState n minor phases k b) := by
  obtain ⟨o, ho, hsub⟩ := hlive
  have hni : b.kind ≠ .integrator := by simp [hk]
  have hthrough : ¬ Through b := not_through_of_state (by simp [hk, BlockKind.isState])
  unfold reachState
  rw [if_neg hni]
  simp only
  -- first the outputs are marked, if the sweep is for the minor phase
  obtain ⟨t, hteq, htouches⟩ : ∃ t, t = (if phases.minor = true then s.markOutputs n b else s) ∧
      Touches n b (phases.minor = true) s t := ⟨_, rfl, touches_ite n b s _⟩
  rw [← hteq]
  have hmajors (hm : phases.minor = true) :
      ∀ q ∈ b.outputs, PhaseSet.majors.Sub (t.of (n.wires.netOf q)) := by
    rw [hteq, if_pos hm]
    exact majors_markOutputs hin
  have hout (p : Phase) (hp : phases.has p = true) : (t.ofOutputs n b).has p = true :=
    has_ofOutputs.mpr ⟨o, ho, htouches.grows.live _ _ (hsub p hp)⟩
  by_cases hmeets : (t.ofOutputs n b).meets later = true
  · rw [if_pos hmeets]
    refine htouches.reaches_seed fun p hp => ?_
    have hminor : p = .minor → phases.minor = true := by
      rintro rfl
      rcases hp with hp | hp | hp
      · exact hp
      · cases hp
      · exact hp
    exact ⟨fun h => absurd h hni,
      fun _ hm q hq => (hmajors (hminor hm) q hq).trans ((grows_seed t k earlier).live _),
      fun _ _ p' hp' => not_unseeded_seed hp', fun h => absurd h hthrough⟩
  · rw [if_neg hmeets]
    have hnot (p : Phase) (hp : phases.has p = true) : ¬ later.has p = true := fun hl =>
      hmeets ((PhaseSet.meets_iff _ _).mpr ⟨p, hout p hp, hl⟩)
    -- a sweep for the minor phase would have met the later ones
    have hminor : ¬ phases.minor = true := fun hm => hnot .minor hm rfl
    refine htouches.reaches fun p hp => ?_
    have hp : phases.has p = true := hp.resolve_right hminor
    exact ⟨fun h => absurd h hni,
      fun _ hm => absurd (show phases.has .minor = true from hm ▸ hp) hminor,
      fun _ hl => absurd hl (hnot p hp), fun h => absurd h hthrough⟩

/-- A sweep that comes to a state by one of its outputs. -/
theorem reaches_state {phases : PhaseSet} {k : Nat} {b : TracedBlock α} {s : Liveness}
    (hk : b.kind.isState = true) (hin : ∀ o ∈ b.outputs, n.wires.netOf o < s.live.length)
    (hlive : ∃ o ∈ b.outputs, phases.Sub (s.of (n.wires.netOf o))) :
    Reaches n minor phases k b s (s.reachState n minor phases k b) := by
  cases hb : b.kind with
  | integrator => exact reaches_integrator hb hin
  | delay => exact reaches_delay hb hin hlive
  | _ => simp [hb, BlockKind.isState] at hk

variable {phases : PhaseSet} {origin : Nat} {isOpen : Nat → Prop} {w : Sweep}

/-- Once a wire is marked, its producers are owed a visit. -/
theorem Sweep.Sound.mark (h : w.Sound n minor phases origin isOpen fun _ => False) (net : Nat) :
    ({ w with found := w.found.mark net phases } : Sweep).Sound n minor phases origin isOpen
      (· ∈ n.producers net) where
  length := (grows_mark _ _ _).length.trans h.length
  nodup := h.nodup
  flow k b hb o ho p hp := by
    have hg := grows_mark w.found net phases
    rcases has_mark.mp hp with hold | ⟨hnet, _, hp⟩
    · rcases h.flow k b hb o ho p hold with hf | ⟨hp, hk⟩
      · exact .inl (hf.mono hg)
      · exact .inr ⟨hp, .inl (hk.resolve_right id)⟩
    · cases hr : b.kind.isReroute with
      | false => exact .inr ⟨hp, .inr (mem_producers.mpr ⟨b, hb, hr, o, ho, hnet⟩)⟩
      | true => exact .inl (follows_of_reroute hr)
  reached k b hb hk p hp :=
    (h.reached k b hb hk p hp).imp_left fun hf => hf.mono (grows_mark _ _ _)
  source := h.source.imp_right (Or.imp_right fun hs b hb i hi =>
    (hs b hb i hi).trans ((grows_mark w.found net phases).live _))
  seeds k b hb p hp := (h.seeds k b hb p hp).imp_left fun hs i hi =>
    (grows_mark w.found net phases).live _ _ (hs i hi)
  pending e he := by
    obtain ⟨b, hb, hf⟩ := h.pending e he
    exact ⟨b, hb, fun ht p hp => (hf ht p hp).mono (grows_mark _ _ _)⟩
  sinks := h.sinks

/-- Once a block is come to, the sweep does not come to it again. -/
theorem Sweep.Sound.settle (hn : n.Driven) {k : Nat} {rest queue : List Nat} {b : TracedBlock α}
    {t : Liveness} (h : w.Sound n minor phases origin isOpen (· ∈ k :: rest))
    (hb : n.block? k = some b) (hr : b.kind.isReroute = false)
    (ht : Reaches n minor phases k b w.found t) (hq : ∀ j ∈ w.frontier.queue, j ∈ queue)
    (hthrough : Through b → k ∈ queue) :
    (⟨⟨w.frontier.fresh.erase k, queue⟩, t⟩ : Sweep).Sound n minor phases origin isOpen
      (· ∈ rest) where
  length := ht.grows.length.trans h.length
  nodup := h.nodup.erase k
  flow j c hc q hq p hp := by
    rcases ht.marked _ p hp with hold | ⟨⟨o, ho, hnet⟩, hf⟩
    · rcases h.flow j c hc q hq p hold with hf | ⟨hp', hj | hj⟩
      · exact .inl (hf.mono ht.grows)
      · exact .inr ⟨hp', .inl fun hm => hj (List.mem_of_mem_erase hm)⟩
      · rcases List.mem_cons.mp hj with rfl | hj
        · exact .inr ⟨hp', .inl h.nodup.not_mem_erase⟩
        · exact .inr ⟨hp', .inr hj⟩
    · cases hcr : c.kind.isReroute with
      | false =>
        obtain rfl := hn.single k b j c hb hc hr hcr o ho q hq hnet
        obtain rfl := Option.some.inj (hb.symm.trans hc)
        exact .inl hf
      | true => exact .inl (follows_of_reroute hcr)
  reached j c hc hj p hp := by
    by_cases hjk : j = k
    · subst hjk
      obtain rfl := Option.some.inj (hb.symm.trans hc)
      exact (ht.follows p hp).imp_right fun hb => ⟨hb, .inl (hthrough hb)⟩
    · have hj' : j ∉ w.frontier.fresh := fun hm => hj ((List.mem_erase_of_ne hjk).mpr hm)
      rcases h.reached j c hc hj' p hp with hf | ⟨hth, hqueue⟩
      · exact .inl (hf.mono ht.grows)
      · exact .inr ⟨hth, hqueue.imp_left (hq j)⟩
  source := by
    rcases h.source with hs | hs | hs
    · exact .inl (hq _ hs)
    · exact .inr (.inl hs)
    · exact .inr (.inr fun c hc i hi => (hs c hc i hi).trans (ht.grows.live _))
  seeds j c hc p hp := by
    by_cases hold : (j, p) ∈ w.found.unseeded
    · obtain ⟨rfl, ps, hps⟩ := ht.seeds _ hold hp
      exact .inr (.inl ⟨ps, hps⟩)
    · rcases h.seeds j c hc p hold with hs | ⟨ps, hm, hps⟩ | hs
      · exact .inl fun i hi => ht.grows.live _ _ (hs i hi)
      · exact .inr (.inl ⟨ps, ht.kept _ hm, hps⟩)
      · exact .inr (.inr hs)
  pending e he := by
    rcases ht.pending e he with hold | ⟨rfl, hf⟩
    · obtain ⟨c, hc, hf⟩ := h.pending e hold
      exact ⟨c, hc, fun hth p hp => (hf hth p hp).mono ht.grows⟩
    · exact ⟨b, hb, fun _ => hf⟩
  sinks j c hc hs p hp hm := h.sinks j c hc hs p hp (ht.grows.unseeded _ hm)

/-- Visiting a block that drives a marked wire settles what was owed to it. -/
theorem Sweep.Sound.visitProducer (hn : n.Driven) {net k : Nat} {rest : List Nat}
    (h : w.Sound n minor phases origin isOpen (· ∈ k :: rest)) (hk : k ∈ n.producers net)
    (hm : phases.Sub (w.found.of net)) :
    (w.visitProducer n minor phases k).Sound n minor phases origin isOpen (· ∈ rest) ∧
      Grows w.found (w.visitProducer n minor phases k).found := by
  obtain ⟨b, hb, hr, o, ho, rfl⟩ := mem_producers.mp hk
  unfold Sweep.visitProducer
  by_cases hfresh : w.frontier.fresh.contains k = true
  · rw [if_pos hfresh, hb]
    simp only
    by_cases hboundary : b.kind.isBoundary = true
    · rw [if_pos hboundary]
      have hs : b.kind.isState = false := by
        cases hk : b.kind <;> simp [hk, BlockKind.isBoundary, BlockKind.isState] at hboundary ⊢
      have hth : ¬ Through b := fun ht => by
        rw [ht.2.1] at hboundary
        cases hboundary
      exact ⟨h.settle hn hb hr (reaches_self (.inr fun p => follows_of_idle hs hth))
        (fun _ hj => hj) fun ht => absurd ht hth, .refl _⟩
    · rw [if_neg hboundary]
      by_cases hstate : b.kind.isState = true
      · rw [if_pos hstate]
        have hin : ∀ q ∈ b.outputs, n.wires.netOf q < w.found.live.length := fun q hq => by
          rw [h.length]
          exact hn.inside k b hb q (List.mem_append_right _ hq)
        have hreach : Reaches n minor phases k b w.found (w.found.reachState n minor phases k b) :=
          reaches_state hstate hin ⟨o, ho, hm⟩
        exact ⟨h.settle hn hb hr hreach (fun _ hj => hj)
          fun ht => absurd ht (not_through_of_state hstate), hreach.grows⟩
      · rw [if_neg hstate]
        have hth : Through b := ⟨hr, by simpa using hboundary, by simpa using hstate⟩
        simp only [Frontier.offer, hfresh, if_true]
        exact ⟨h.settle hn hb hr (reaches_self (.inl hth)) (fun _ hj => List.mem_append_left _ hj)
          fun _ => List.mem_append_right _ List.mem_cons_self, .refl _⟩
  · rw [if_neg hfresh]
    have hk' : k ∉ w.frontier.fresh := by simpa using hfresh
    refine ⟨{ h with flow := fun j c hc q hq p hp => ?_ }, .refl _⟩
    rcases h.flow j c hc q hq p hp with hf | ⟨hp, hj | hj⟩
    · exact .inl hf
    · exact .inr ⟨hp, .inl hj⟩
    · rcases List.mem_cons.mp hj with rfl | hj
      · exact .inr ⟨hp, .inl hk'⟩
      · exact .inr ⟨hp, .inr hj⟩

theorem Sweep.Sound.visitProducers (hn : n.Driven) {net : Nat} {ks : List Nat}
    (h : w.Sound n minor phases origin isOpen (· ∈ ks)) (hks : ∀ k ∈ ks, k ∈ n.producers net)
    (hm : phases.Sub (w.found.of net)) :
    (ks.foldl (Sweep.visitProducer n minor phases) w).Sound n minor phases origin isOpen
        (fun _ => False) ∧ Grows w.found (ks.foldl (Sweep.visitProducer n minor phases) w).found := by
  induction ks generalizing w with
  | nil => exact ⟨by simpa using h, .refl _⟩
  | cons k ks ih =>
    obtain ⟨hk, hks⟩ := List.forall_mem_cons.mp hks
    obtain ⟨hs, hg⟩ := h.visitProducer hn hk hm
    obtain ⟨hs', hg'⟩ := ih hs hks (hm.trans (hg.live net))
    exact ⟨hs', hg.trans hg'⟩

theorem Sweep.Sound.visitInput (hn : n.Driven)
    (h : w.Sound n minor phases origin isOpen fun _ => False) {i : Nat}
    (hi : n.wires.netOf i < n.wires.netCount) :
    (w.visitInput n minor phases i).Sound n minor phases origin isOpen (fun _ => False) ∧
      Grows w.found (w.visitInput n minor phases i).found ∧
      phases.Sub ((w.visitInput n minor phases i).found.of (n.wires.netOf i)) := by
  have hmark : phases.Sub ((w.found.mark (n.wires.netOf i) phases).of (n.wires.netOf i)) :=
    fun p hp => has_mark.mpr (.inr ⟨rfl, by rw [h.length]; exact hi, hp⟩)
  obtain ⟨hs, hg⟩ := (h.mark (n.wires.netOf i)).visitProducers hn (fun _ hk => hk) hmark
  exact ⟨hs, (grows_mark _ _ _).trans hg, hmark.trans (hg.live _)⟩

theorem Sweep.Sound.visitInputs (hn : n.Driven)
    (h : w.Sound n minor phases origin isOpen fun _ => False) {is : List Nat}
    (his : ∀ i ∈ is, n.wires.netOf i < n.wires.netCount) :
    (is.foldl (Sweep.visitInput n minor phases) w).Sound n minor phases origin isOpen
        (fun _ => False) ∧
      Grows w.found (is.foldl (Sweep.visitInput n minor phases) w).found ∧
      ∀ i ∈ is, phases.Sub
        ((is.foldl (Sweep.visitInput n minor phases) w).found.of (n.wires.netOf i)) := by
  induction is generalizing w with
  | nil => exact ⟨h, .refl _, fun _ hi => nomatch hi⟩
  | cons i is ih =>
    obtain ⟨hi, his⟩ := List.forall_mem_cons.mp his
    obtain ⟨hs, hg, hm⟩ := h.visitInput hn hi
    obtain ⟨hs', hg', hm'⟩ := ih hs his
    exact ⟨hs', hg.trans hg', List.forall_mem_cons.mpr ⟨hm.trans (hg'.live _), hm'⟩⟩

/-- A block that is taken from the queue is one whose inputs are being passed. -/
theorem Sweep.Sound.take {k : Nat} {rest : List Nat}
    (h : w.Sound n minor phases origin (fun _ => False) fun _ => False)
    (hq : w.frontier.queue = k :: rest) :
    ({ w with frontier := { w.frontier with queue := rest } } : Sweep).Sound n minor phases origin
      (· = k) fun _ => False := {
  h with
  reached := fun j c hc hj p hp => (h.reached j c hc hj p hp).imp_right fun ⟨hth, hjq⟩ => by
    rw [hq, List.mem_cons] at hjq
    exact ⟨hth, (hjq.resolve_right id).symm⟩
  source := by
    rcases h.source with hs | hs | hs
    · rw [hq, List.mem_cons] at hs
      rcases hs with hs | hs
      · exact .inr (.inl hs)
      · exact .inl hs
    · exact hs.elim
    · exact .inr (.inr hs) }

/-- Once all inputs of a block are passed, it owes nothing more. -/
theorem Sweep.Sound.close {k : Nat}
    (h : w.Sound n minor phases origin (· = k) fun _ => False)
    (hm : ∀ b, n.block? k = some b → ∀ i ∈ b.inputs, phases.Sub (w.found.of (n.wires.netOf i))) :
    w.Sound n minor phases origin (fun _ => False) fun _ => False := by
  refine { h with reached := fun j c hc hj p hp => ?_, source := ?_ }
  · rcases h.reached j c hc hj p hp with hf | ⟨hth, hjq | rfl⟩
    · exact .inl hf
    · exact .inr ⟨hth, .inl hjq⟩
    · have hidle : c.kind.isState = false := hth.2.2
      exact .inl {
        integrator := fun hk => by simp [hk, BlockKind.isState] at hidle
        held := fun hk => by simp [hk, BlockKind.isState] at hidle
        before := fun hk => by simp [hk, BlockKind.isState] at hidle
        through := fun _ i hi => hm c hc i hi p hp }
  · rcases h.source with hq | rfl | hs
    · exact .inl hq
    · exact .inr (.inr hm)
    · exact .inr (.inr hs)

/-- Taking a block from the queue passes all its inputs. -/
theorem Sweep.Sound.visit (hn : n.Driven) {k : Nat} {rest : List Nat}
    (h : w.Sound n minor phases origin (fun _ => False) fun _ => False)
    (hq : w.frontier.queue = k :: rest) :
    (({ w with frontier := { w.frontier with queue := rest } } : Sweep).visit n minor phases
      k).Sound n minor phases origin (fun _ => False) fun _ => False := by
  have hopen := h.take hq
  unfold Sweep.visit
  cases hb : n.block? k with
  | none =>
    refine hopen.close fun b hb' => ?_
    cases hb.symm.trans hb'
  | some b =>
    have hin : ∀ i ∈ b.inputs, n.wires.netOf i < n.wires.netCount :=
      fun i hi => hn.inside k b hb i (List.mem_append_left _ hi)
    obtain ⟨hs, _, hm⟩ := hopen.visitInputs hn hin
    refine hs.close fun c hc => ?_
    obtain rfl := Option.some.inj (hb.symm.trans hc)
    exact hm

/-- When nothing is queued any more, what holds between sweeps holds again. -/
theorem Sweep.Sound.run (hn : n.Driven)
    (h : w.Sound n minor phases origin (fun _ => False) fun _ => False) :
    Stable n minor (w.run n minor phases) := by
  fun_induction Sweep.run n minor phases w with
  | case1 w hq =>
    have hreached (k : Nat) (b : TracedBlock α) (hb : n.block? k = some b)
        (hk : k ∉ w.frontier.fresh) (p : Phase) (hp : phases.has p = true) :
        Follows n minor w.found k b p := by
      rcases h.reached k b hb hk p hp with hf | ⟨_, hjq | hf⟩
      · exact hf
      · rw [hq] at hjq
        cases hjq
      · exact hf.elim
    exact {
      length := h.length
      flow := fun k b hb o ho p hp => by
        rcases h.flow k b hb o ho p hp with hf | ⟨hp, hk | hf⟩
        · exact hf
        · exact hreached k b hb hk p hp
        · exact hf.elim
      seeds := fun k b hb p hp => by
        rcases h.seeds k b hb p hp with hs | hs | ⟨rfl, hp⟩
        · exact .inl hs
        · exact .inr hs
        · rcases h.source with hjq | hf | hs
          · rw [hq] at hjq
            cases hjq
          · exact hf.elim
          · exact .inl fun i hi => hs b hb i hi p hp
      pending := h.pending
      sinks := h.sinks }
  | case2 w k rest hq ih => exact ih (h.visit hn hq)

/-- A sweep from the first seed that is pending. -/
theorem Stable.sweep (hn : n.Driven) {s : Liveness} (h : Stable n minor s) {k : Nat}
    {phases : PhaseSet} {rest : List (Nat × PhaseSet)} (hp : s.pending = (k, phases) :: rest) :
    Stable n minor (({ s with pending := rest } : Liveness).sweep n minor k phases) := by
  obtain ⟨b, hb, hf⟩ := h.pending (k, phases) (by rw [hp]; exact List.mem_cons_self)
  have hseed : ∀ j c, n.block? j = some c → j ∉ (List.range n.blocks.size).erase k → j = k := by
    intro j c hc hj
    by_contra hne
    refine hj ((List.mem_erase_of_ne hne).mpr (List.mem_range.mpr ?_))
    exact (List.getElem?_eq_some_iff.mp hc).1
  have hgrow : Grows s { s with pending := rest } := ⟨fun _ => .refl _, fun _ he => he, rfl⟩
  apply Sweep.Sound.run hn
  refine {
    length := h.length
    nodup := List.nodup_range.erase k
    flow := fun j c hc o ho p hlive => .inl ((h.flow j c hc o ho p hlive).mono hgrow)
    reached := fun j c hc hj p hphase => ?_
    source := .inl (show k ∈ [k] from List.mem_cons_self)
    seeds := fun j c hc p hu => ?_
    pending := fun e he => ?_
    sinks := h.sinks }
  · obtain rfl := hseed j c hc hj
    obtain rfl := Option.some.inj (hb.symm.trans hc)
    by_cases hth : Through b
    · exact .inr ⟨hth, .inl List.mem_cons_self⟩
    · exact .inl ((hf hth p hphase).mono hgrow)
  · rcases h.seeds j c hc p hu with hs | ⟨ps, hm, hps⟩
    · exact .inl hs
    · rw [hp] at hm
      rcases List.mem_cons.mp hm with he | hm
      · obtain ⟨rfl, rfl⟩ := Prod.mk.inj he
        exact .inr (.inr ⟨rfl, hps⟩)
      · exact .inr (.inl ⟨ps, hm, hps⟩)
  · obtain ⟨c, hc, hf⟩ := h.pending e (by rw [hp]; exact List.mem_cons_of_mem _ he)
    exact ⟨c, hc, fun hth p hphase => (hf hth p hphase).mono hgrow⟩

theorem Stable.exhaust (hn : n.Driven) {s : Liveness} (h : Stable n minor s) :
    Stable n minor (s.exhaust n minor) ∧ (s.exhaust n minor).pending = [] := by
  fun_induction Liveness.exhaust n minor s with
  | case1 s hp => exact ⟨h, hp⟩
  | case2 s k phases rest hp ih => exact ih (h.sweep hn hp)

theorem of_start (n : Network α) (net : Nat) : (start n).of net = {} := by
  simp only [of, start, List.getElem?_replicate]
  split <;> rfl

structure Seeding (n : Network α) (s : Liveness) : Prop where
  seeds : ∀ k p, k < n.blocks.size → (k, p) ∉ s.unseeded → ∃ ps, (k, ps) ∈ s.pending ∧ ps.has p = true
  pending : ∀ e ∈ s.pending, ∃ b, n.block? e.1 = some b ∧ Through b

theorem Seeding.seed {s : Liveness} (h : Seeding n s) {k : Nat} {b : TracedBlock α}
    (hb : n.block? k = some b) (hth : Through b) (phases : PhaseSet) :
    Seeding n (s.seed k phases) where
  seeds j p hj hp := by
    by_cases hold : (j, p) ∈ s.unseeded
    · obtain ⟨rfl, hps, hm⟩ := pending_seed hold hp
      exact ⟨_, hm, hps⟩
    · obtain ⟨ps, hm, hps⟩ := h.seeds j p hj hold
      exact ⟨ps, pending_subset_seed hm, hps⟩
  pending e he := by
    rcases mem_pending_seed he with he | rfl
    · exact h.pending e he
    · exact ⟨b, hb, hth⟩

omit [Scalar α] in
theorem through_of_sink {b : TracedBlock α} (h : b.kind.isSink = true) : Through b := by
  cases hk : b.kind <;> simp [hk, BlockKind.isSink] at h <;>
    simp [Through, hk, BlockKind.isReroute, BlockKind.isBoundary, BlockKind.isState]

theorem Seeding.sinks {es : List (Nat × TracedBlock α)} {s : Liveness} (h : Seeding n s)
    (hes : ∀ e ∈ es, n.block? e.1 = some e.2) :
    let t := es.foldl (fun s e => if e.2.kind.isSink then s.seed e.1 e.2.sinkPhases else s) s
    Seeding n t ∧ t.live = s.live ∧ Grows s t ∧ ∀ e ∈ es, e.2.kind.isSink = true →
      ∀ p, e.2.sinkPhases.has p = true → (e.1, p) ∉ t.unseeded := by
  induction es generalizing s with
  | nil => exact ⟨h, rfl, .refl s, fun _ he => nomatch he⟩
  | cons e es ih =>
    obtain ⟨he, hes⟩ := List.forall_mem_cons.mp hes
    rw [List.foldl_cons]
    by_cases hsink : e.2.kind.isSink = true
    · rw [if_pos hsink]
      obtain ⟨h₁, h₂, h₃, h₄⟩ := ih (h.seed he (through_of_sink hsink) e.2.sinkPhases) hes
      refine ⟨h₁, h₂.trans (live_seed ..), (grows_seed ..).trans h₃,
        List.forall_mem_cons.mpr ⟨fun _ p hp hm => ?_, h₄⟩⟩
      exact not_unseeded_seed hp (h₃.unseeded _ hm)
    · rw [if_neg hsink]
      obtain ⟨h₁, h₂, h₃, h₄⟩ := ih h hes
      exact ⟨h₁, h₂, h₃, List.forall_mem_cons.mpr ⟨fun hs => absurd hs hsink, h₄⟩⟩

theorem seeding_start (n : Network α) : Seeding n (start n) where
  seeds k p hk hp := by
    refine absurd ?_ hp
    refine List.mem_flatMap.mpr ⟨k, List.mem_range.mpr hk, List.mem_map.mpr ⟨p, ?_, rfl⟩⟩
    rcases p with (_ | _ | _) | _ <;> decide
  pending e he := nomatch he

/-- Before any sweep nothing is live, and the sinks are all that is pending. -/
theorem stable_seedSinks (n : Network α) (minor : Bool) :
    Stable n minor ((start n).seedSinks n) := by
  obtain ⟨hs, hlive, _, hsinks⟩ := (seeding_start n).sinks (n := n)
    fun (e : Nat × TracedBlock α) (he : e ∈ n.blocks.entries) => mem_entries.mp he
  have hof (net : Nat) (p : Phase) : ¬ (((start n).seedSinks n).of net).has p = true := by
    rw [show ((start n).seedSinks n).of net = (start n).of net by
      rw [of, of]
      exact congrArg (fun l : List PhaseSet => (l[net]?).getD {}) hlive, of_start]
    exact PhaseSet.not_has_empty p
  exact {
    length := (congrArg List.length hlive).trans (by simp [start])
    flow := fun k b _ o _ p hp => absurd hp (hof _ p)
    seeds := fun k b hb p hp => .inr (hs.seeds k p (List.getElem?_eq_some_iff.mp hb).1 hp)
    pending := fun e he => by
      obtain ⟨b, hb, hth⟩ := hs.pending e he
      exact ⟨b, hb, fun hn => absurd hth hn⟩
    sinks := fun k b hb hsink p hp => hsinks (k, b) (mem_entries.mpr hb) hsink p hp }

theorem stable_liveness (hn : n.Driven) (minor : Bool) :
    Stable n minor (((start n).seedSinks n).exhaust n minor) ∧
      (((start n).seedSinks n).exhaust n minor).pending = [] :=
  (stable_seedSinks n minor).exhaust hn

/-- When no seed is pending, a seed has passed its phases on. -/
theorem Stable.inputs {s : Liveness} (h : Stable n minor s) (hp : s.pending = []) {k : Nat}
    {b : TracedBlock α} (hb : n.block? k = some b) {p : Phase} (hu : (k, p) ∉ s.unseeded) :
    ∀ i ∈ b.inputs, (s.of (n.wires.netOf i)).has p = true := by
  rcases h.seeds k b hb p hu with hs | ⟨ps, hm, _⟩
  · exact hs
  · rw [hp] at hm
    cases hm

theorem has_anchor {n : Network α} {s : Liveness} {net : Nat} {p : Phase} :
    (((anchor n s.live)[net]?).getD {}).has p = true ↔ (s.of net).has p = true ∨
      ((s.of net).has .minor = true ∧ PhaseSet.majors.has p = true ∧
        ∃ w ∈ n.wires.wires, w.net = net ∧ (w.input || w.external) = true) := by
  have hgroup : ((n.wires.group net).any fun w => w.input || w.external) = true ↔
      ∃ w ∈ n.wires.wires, w.net = net ∧ (w.input || w.external) = true := by
    simp only [WireTable.group, List.any_eq_true, List.mem_filter, decide_eq_true_eq, and_assoc]
  rw [anchor, List.getElem?_map, List.getElem?_zipIdx, of]
  cases s.live[net]? with
  | none => simp [PhaseSet.not_has_empty]
  | some phases =>
    simp only [Option.map_some, Option.getD_some, Nat.zero_add, ← hgroup]
    by_cases hm : phases.minor = true
    · by_cases hg : ((n.wires.group net).any fun w => w.input || w.external) = true
      · rw [if_pos (by rw [hm, hg]; rfl), PhaseSet.has_union, Bool.or_eq_true]
        have : phases.has .minor = true := hm
        simp [hg, this]
      · rw [if_neg (by simp [hg])]
        simp [hg]
    · rw [if_neg (by simp [hm])]
      have : ¬ phases.has .minor = true := hm
      simp [this]

theorem length_liveness (hn : n.Driven) (minor : Bool) :
    (n.liveness minor).length = n.wires.netCount := by
  rw [← (stable_liveness hn minor).1.length]
  simp [liveness, anchor]

/-- Nets from outside leave no block of another kind, so only what a sweep found is live there. -/
theorem has_of_has_anchor (hn : n.Driven) {s : Liveness} {k : Nat} {b : TracedBlock α}
    (hb : n.block? k = some b) (hr : b.kind.isReroute = false) (hbd : b.kind.isBoundary = false)
    {o : Nat} (ho : o ∈ b.outputs) {p : Phase}
    (hlive : (((anchor n s.live)[n.wires.netOf o]?).getD {}).has p = true) :
    (s.of (n.wires.netOf o)).has p = true := by
  rcases has_anchor.mp hlive with h | ⟨_, _, w, hw, hnet, hflag⟩
  · exact h
  · obtain ⟨j, c, hc, hcb, i, hi, hin⟩ := hn.outside w hw hflag
    have hcr := BlockKind.isReroute_of_isBoundary hcb
    obtain rfl := hn.single k b j c hb hc hr hcr o ho i hi (hnet.symm.trans hin.symm)
    obtain rfl := Option.some.inj (hb.symm.trans hc)
    rw [hbd] at hcb
    cases hcb

/-- What the propagation of phases comes to is closed under the rules of liveness. -/
theorem closed_liveness (hn : n.Driven) (minor : Bool) :
    n.Closed minor fun net => ((n.liveness minor)[net]?).getD {} := by
  obtain ⟨hs, hp⟩ := stable_liveness hn minor
  unfold liveness
  generalize ((start n).seedSinks n).exhaust n minor = s at hs hp ⊢
  have hgrow (net : Nat) : (s.of net).Sub (((anchor n s.live)[net]?).getD {}) :=
    fun p hp => has_anchor.mpr (.inl hp)
  exact {
    sink := fun k b hb hk i hi p hphase =>
      hgrow _ _ (hs.inputs hp hb (hs.sinks k b hb hk p hphase) i hi)
    primitive := fun k b hb hk o ho i hi p hlive => by
      have hr : b.kind.isReroute = false := by rw [hk]; rfl
      have hbd : b.kind.isBoundary = false := by rw [hk]; rfl
      have hst : b.kind.isState = false := by rw [hk]; rfl
      have hf := hs.flow k b hb o ho p (has_of_has_anchor hn hb hr hbd ho hlive)
      exact hgrow _ _ (hf.through ⟨hr, hbd, hst⟩ i hi)
    integrator := fun k b hb hk o ho p hlive => by
      have hf := hs.flow k b hb o ho p
        (has_of_has_anchor hn hb (by rw [hk]; rfl) (by rw [hk]; rfl) ho hlive)
      obtain ⟨hmajors, hseeded⟩ := hf.integrator hk
      exact ⟨fun q hq => (hmajors q hq).trans (hgrow _),
        fun hm i hi => hgrow _ _ (hs.inputs hp hb (hseeded hm) i hi)⟩
    held := fun k b hb hk o ho hlive q hq => by
      have hf := hs.flow k b hb o ho .minor
        (has_of_has_anchor hn hb (by rw [hk]; rfl) (by rw [hk]; rfl) ho hlive)
      exact (hf.held hk rfl q hq).trans (hgrow _)
    before := fun k b hb hk o ho hlive i hi p hphase => by
      obtain ⟨p', hp', hl⟩ := (PhaseSet.meets_iff _ _).mp hlive
      have hf := hs.flow k b hb o ho p'
        (has_of_has_anchor hn hb (by rw [hk]; rfl) (by rw [hk]; rfl) ho hp')
      exact hgrow _ _ (hs.inputs hp hb (hf.before hk hl p hphase) i hi)
    outside := fun w hw hflag hminor p hphase => by
      refine has_anchor.mpr (.inr ⟨?_, hphase, w, hw, rfl, hflag⟩)
      rcases has_anchor.mp hminor with h | ⟨h, _⟩ <;> exact h }

end Transcription.Liveness
