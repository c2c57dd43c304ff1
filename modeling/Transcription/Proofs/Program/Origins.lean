import Transcription.Proofs.Program.Sharing
import Transcription.Proofs.Program.Stages

namespace Transcription

theorem exists_sharedLabel_before {size : Nat} {pairs : List (Nat × Nat)}
    (h : ∀ e ∈ pairs, e.1 < size ∧ e.2 < size) {e i k : Nat}
    (he : (Network.sharedLabels size pairs)[e]? = some i) (hk : k < i) :
    ∃ f < e, (Network.sharedLabels size pairs)[f]? = some k := by
  have hd := Partition.size_discrete size
  obtain ⟨hf, _⟩ := (Partition.forest_discrete size).unionAll pairs (hd.symm ▸ h)
  rw [sharedLabels_eq, hf.labels_eq] at he ⊢
  exact Partition.exists_number_before _ he hk

theorem sorted_marked (mask : List Bool) : (marked mask).Pairwise (· < ·) :=
  List.pairwise_lt_range.filter _

/-- Slots stand step by step, in the order of nets. -/
theorem sorted_liveSlots (live : List PhaseSet) (steps : Nat) :
    (liveSlots live steps).Pairwise fun s s' => s.1 < s'.1 ∨ (s.1 = s'.1 ∧ s.2 < s'.2) := by
  refine List.pairwise_flatMap.mpr ⟨fun t _ => ?_, ?_⟩
  · rw [List.pairwise_map]
    exact (sorted_marked _).imp fun h => .inr ⟨rfl, h⟩
  · refine List.Pairwise.imp ?_ (List.pairwise_lt_range' 1)
    intro t u htu s hs s' hs'
    obtain ⟨_, _, rfl⟩ := List.mem_map.mp hs
    obtain ⟨_, _, rfl⟩ := List.mem_map.mp hs'
    exact .inl htu

namespace Network

variable {α : Type} [Scalar α]

def delayed? (n : Network α) (net : Nat) : Option Nat :=
  (((n.blocks.ofKinds [.delay]).flatMap fun e => e.2.outputs.zip e.2.inputs).find? fun e =>
    n.wires.netOf e.1 = net).map fun e => n.wires.netOf e.2

/-- The step and net that a net at a step has its value from, when delays are followed back. -/
def origin (n : Network α) : Nat → Nat → Nat × Nat
  | t + 2, net => match n.delayed? net with
    | some before => n.origin (t + 1) before
    | none => (t + 2, net)
  | t, net => (t, net)

/-- One entry, or one output of an input from outside at two steps of one window. -/
def SameOrigin (n : Network α) (s s' : Nat × Nat) : Prop :=
  s = s' ∨ ∃ k b, n.block? k = some b ∧ b.isMoveBlocked = true ∧
    (∃ o ∈ b.outputs, n.wires.netOf o = s.2 ∧ n.wires.netOf o = s'.2) ∧
    b.period.window b.offset s.1 = b.period.window b.offset s'.1

variable {n : Network α}

def Delays (n : Network α) (net before : Nat) : Prop :=
  ∃ k b o i, n.block? k = some b ∧ b.kind = .delay ∧ (o, i) ∈ b.outputs.zip b.inputs ∧
    n.wires.netOf o = net ∧ n.wires.netOf i = before

theorem mem_delays {o i : Nat} :
    (o, i) ∈ ((n.blocks.ofKinds [.delay]).flatMap fun e => e.2.outputs.zip e.2.inputs) ↔
      ∃ k b, n.block? k = some b ∧ b.kind = .delay ∧ (o, i) ∈ b.outputs.zip b.inputs := by
  simp only [List.mem_flatMap, BlockTable.ofKinds, List.mem_filter, Prod.exists, mem_entries,
    List.contains_eq_mem, List.mem_singleton, decide_eq_true_eq]
  constructor
  · intro h
    obtain ⟨k, b, ⟨hb, hk⟩, hz⟩ := h
    exact ⟨k, b, hb, hk, hz⟩
  · intro h
    obtain ⟨k, b, hb, hk, hz⟩ := h
    exact ⟨k, b, ⟨hb, hk⟩, hz⟩

theorem delays_of_delayed? {net before : Nat} (h : n.delayed? net = some before) :
    n.Delays net before := by
  obtain ⟨⟨o, i⟩, hfind, hi⟩ := Option.map_eq_some_iff.mp h
  obtain ⟨k, b, hb, hk, hz⟩ := mem_delays.mp (List.mem_of_find?_eq_some hfind)
  exact ⟨k, b, o, i, hb, hk, hz, by simpa using List.find?_some hfind, hi⟩

theorem exists_delayed? {net before : Nat} (h : n.Delays net before) :
    ∃ before', n.delayed? net = some before' := by
  obtain ⟨k, b, o, i, hb, hk, hz, hnet, _⟩ := h
  have hsome : (((n.blocks.ofKinds [.delay]).flatMap fun e => e.2.outputs.zip e.2.inputs).find?
      fun e => n.wires.netOf e.1 = net).isSome = true := by
    rw [List.find?_isSome]
    exact ⟨(o, i), mem_delays.mpr ⟨k, b, hb, hk, hz⟩, by simpa using hnet⟩
  obtain ⟨e, he⟩ := Option.isSome_iff_exists.mp hsome
  exact ⟨_, by rw [delayed?, he, Option.map_some]⟩

theorem SameOrigin.symm {s s' : Nat × Nat} (h : n.SameOrigin s s') : n.SameOrigin s' s := by
  rcases h with rfl | ⟨k, b, hb, hm, ⟨o, ho, hs, hs'⟩, hw⟩
  · exact .inl rfl
  · exact .inr ⟨k, b, hb, hm, ⟨o, ho, hs', hs⟩, hw.symm⟩

section Netted

variable (h : n.Netted) (hs : n.SingleSourced)

include h hs

/-- One net is carried on to another by one delay. -/
theorem Delays.unique {net before before' : Nat} (hb : n.Delays net before)
    (hc : n.Delays net before') : before = before' := by
  obtain ⟨k, b, o, i, hb, hbk, hbz, hbo, hbi⟩ := hb
  obtain ⟨j, c, p, q, hc, hck, hcz, hcp, hcq⟩ := hc
  obtain ⟨hop, hkj⟩ := h.output_unique hs hb hc (by rw [hbk]; rfl) (by rw [hck]; rfl)
    (List.of_mem_zip hbz).1 (List.of_mem_zip hcz).1 (hbo.trans hcp.symm)
  subst hop hkj
  cases hb.symm.trans hc
  obtain ⟨x, hx, hxe⟩ := List.mem_iff_getElem.mp hbz
  obtain ⟨y, hy, hye⟩ := List.mem_iff_getElem.mp hcz
  rw [List.getElem_zip, Prod.mk.injEq] at hxe hye
  rw [List.length_zip] at hx hy
  have hxy : x = y := by
    apply (h.nodup k b hb).getElem_inj_iff.mp
    exact hxe.1.trans hye.1.symm
  subst hxy
  rw [← hbi, ← hcq, ← hxe.2, ← hye.2]

theorem delayed?_eq_some {net before : Nat} : n.delayed? net = some before ↔ n.Delays net before := by
  constructor
  · exact delays_of_delayed?
  · intro hd
    obtain ⟨before', hb⟩ := exists_delayed? hd
    rw [hb, Delays.unique h hs hd (delays_of_delayed? hb)]

/-- What comes from outside is its own origin. -/
theorem origin_of_boundary {k : Nat} {b : TracedBlock α} (hb : n.block? k = some b)
    (hkind : b.kind.isBoundary = true) {o : Nat} (ho : o ∈ b.outputs) (t : Nat) :
    n.origin t (n.wires.netOf o) = (t, n.wires.netOf o) := by
  have hnone : n.delayed? (n.wires.netOf o) = none := by
    refine Option.eq_none_iff_forall_ne_some.mpr fun before hbefore => ?_
    obtain ⟨j, c, p, q, hc, hck, hcz, hcp, _⟩ := delays_of_delayed? hbefore
    obtain ⟨_, hkj⟩ := h.output_unique hs hb hc (BlockKind.isReroute_of_isBoundary hkind)
      (by rw [hck]; rfl) ho (List.of_mem_zip hcz).1 hcp.symm
    subst hkj
    cases hb.symm.trans hc
    rw [hck] at hkind
    cases hkind
  match t with
  | 0 | 1 => rfl
  | t + 2 => rw [origin, hnone]

theorem SameOrigin.trans {r s s' : Nat × Nat} (hr : n.SameOrigin r s) (hs' : n.SameOrigin s s') :
    n.SameOrigin r s' := by
  rcases hr with rfl | ⟨k, b, hb, hbm, ⟨o, ho, hor, hos⟩, hbw⟩
  · exact hs'
  rcases hs' with rfl | ⟨j, c, hc, hcm, ⟨p, hp, hps, hps'⟩, hcw⟩
  · exact .inr ⟨k, b, hb, hbm, ⟨o, ho, hor, hos⟩, hbw⟩
  have hreroute {b : TracedBlock α} (hm : b.isMoveBlocked = true) : b.kind.isReroute = false :=
    BlockKind.isReroute_of_isBoundary (TracedBlock.isBoundary_of_isMoveBlocked hm)
  obtain ⟨hop, hkj⟩ := h.output_unique hs hb hc (hreroute hbm) (hreroute hcm) ho hp
    (hos.trans hps.symm)
  subst hop hkj
  cases hb.symm.trans hc
  exact .inr ⟨k, b, hb, hbm, ⟨o, ho, hor, hps'⟩, hbw.trans hcw⟩

theorem sameOrigin_equivalence : Equivalence n.SameOrigin :=
  ⟨fun _ => .inl rfl, SameOrigin.symm, SameOrigin.trans h hs⟩

end Netted

section Linked

variable {live : List PhaseSet} {steps : Nat} {minor : Bool} (h : n.Netted) (hs : n.SingleSourced)
  (hc : n.Closed minor fun net => (live[net]?).getD {})

def originAt (n : Network α) (live : List PhaseSet) (steps e : Nat) : Nat × Nat :=
  (((liveSlots live steps)[e]?).map fun s => n.origin s.1 s.2).getD (0, 0)

theorem originAt_eq {e t net : Nat} (he : (liveSlots live steps)[e]? = some (t, net)) :
    n.originAt live steps e = n.origin t net := by simp [originAt, he]

include h hs in
/-- Joined entries have one origin. -/
theorem sameOrigin_of_joinPairs {e : Nat × Nat} (he : e ∈ n.joinPairs (liveSlots live steps) steps) :
    n.SameOrigin (n.originAt live steps e.1) (n.originAt live steps e.2) := by
  rcases mem_joinPairs.mp he with ⟨k, b, hb, hk, hp⟩ | ⟨k, b, hb, hm, o, ho, hj⟩
  · obtain ⟨o, i, hz, t, h₂, _, hlater, hearlier⟩ := mem_delayPairs.mp hp
    rw [originAt_eq (idxOf?_liveSlots.mp hlater), originAt_eq (idxOf?_liveSlots.mp hearlier)]
    obtain ⟨u, rfl⟩ := Nat.exists_eq_add_of_le' h₂
    have hdelayed := (delayed?_eq_some h hs).mpr ⟨k, b, o, i, hb, hk, hz, rfl, rfl⟩
    refine .inl ?_
    rw [origin, hdelayed]
    rfl
  · obtain ⟨_, w, hmem, hfirst⟩ := mem_windowJoins.mp hj
    obtain ⟨t, _, _, hwt, ht⟩ := mem_windowed.mp hmem
    obtain ⟨u, _, _, hwu, hu⟩ := mem_windowed.mp (mem_of_lookup hfirst)
    have hkind := TracedBlock.isBoundary_of_isMoveBlocked hm
    rw [originAt_eq (idxOf?_liveSlots.mp hu), originAt_eq (idxOf?_liveSlots.mp ht),
      origin_of_boundary h hs hb hkind ho, origin_of_boundary h hs hb hkind ho]
    exact .inr ⟨k, b, hb, hm, ⟨o, ho, rfl, rfl⟩, hwu.trans hwt.symm⟩

include h hs in
theorem sameOrigin_of_linked {size e f : Nat}
    (hl : (Partition.discrete size).Linked (n.joinPairs (liveSlots live steps) steps) e f) :
    n.SameOrigin (n.originAt live steps e) (n.originAt live steps f) :=
  Partition.of_linked_discrete ((sameOrigin_equivalence h hs).comap (n.originAt live steps))
    (fun _ he => sameOrigin_of_joinPairs h hs he) hl

include hc in
/-- Every live entry is linked with its origin, which is live. -/
theorem linked_origin (size t net : Nat) (hl : LiveAt live steps t net) {e : Nat}
    (he : (liveSlots live steps)[e]? = some (t, net)) :
    ∃ f : Nat, (liveSlots live steps)[f]? = some (n.origin t net) ∧
      (Partition.discrete size).Linked (n.joinPairs (liveSlots live steps) steps) e f := by
  induction t using Nat.strong_induction_on generalizing net e with
  | _ t ih =>
    match t, hl, he, ih with
    | 0, _, he, _ => exact ⟨e, he, .refl e⟩
    | 1, _, he, _ => exact ⟨e, he, .refl e⟩
    | t + 2, hl, he, ih =>
      rw [origin]
      cases hd : n.delayed? net with
      | none => exact ⟨e, he, .refl e⟩
      | some before =>
        obtain ⟨k, b, o, i, hb, hk, hz, rfl, rfl⟩ := delays_of_delayed? hd
        have hbefore := hc.liveAt_before hb hk (Nat.le_add_left 2 t) (List.of_mem_zip hz).1 hl
          (List.of_mem_zip hz).2
        obtain ⟨f, hf⟩ := exists_slot hbefore
        obtain ⟨g, hg, hlinked⟩ := ih (t + 1) (Nat.lt_succ_self _) _ hbefore hf
        have hpair : (e, f) ∈ n.delayPairs (liveSlots live steps) steps b :=
          mem_delayPairs.mpr ⟨o, i, hz, t + 2, Nat.le_add_left 2 t, hl.2.1,
            idxOf?_liveSlots.mpr he, idxOf?_liveSlots.mpr hf⟩
        have hjoin := mem_joinPairs.mpr (.inl ⟨k, b, hb, hk, hpair⟩)
        exact ⟨g, hg, .trans _ _ _ (.rel _ _ (.inr hjoin)) hlinked⟩

include h hs hc in
/-- Entries are linked exactly when they have one origin. -/
theorem linked_iff_sameOrigin (size : Nat) {t net u net' e f : Nat}
    (he : (liveSlots live steps)[e]? = some (t, net))
    (hf : (liveSlots live steps)[f]? = some (u, net')) :
    (Partition.discrete size).Linked (n.joinPairs (liveSlots live steps) steps) e f ↔
      n.SameOrigin (n.origin t net) (n.origin u net') := by
  constructor
  · intro hl
    have hsame := sameOrigin_of_linked h hs hl
    rwa [originAt_eq he, originAt_eq hf] at hsame
  · intro hsame
    obtain ⟨x, hx, hex⟩ := linked_origin hc size t net (mem_liveSlots.mp (List.mem_of_getElem? he)) he
    obtain ⟨y, hy, hfy⟩ := linked_origin hc size u net' (mem_liveSlots.mp (List.mem_of_getElem? hf)) hf
    have hxy : (Partition.discrete size).Linked (n.joinPairs (liveSlots live steps) steps) x y := by
      rcases hsame with heq | ⟨k, b, hb, hm, ⟨o, ho, hox, hoy⟩, hw⟩
      · have hplace := (List.getElem?_inj (List.getElem?_eq_some_iff.mp hx).1
          (nodup_liveSlots live steps)).mp (hx.trans (heq ▸ hy.symm))
        rw [hplace]
        exact .refl y
      · refine linked_of_window size hb hm ho ?_ ?_ hw
        · rw [hx, hox]
        · rw [hy, hoy]
    exact .trans _ _ _ hex (.trans _ _ _ hxy (.symm _ _ hfy))

/-- What the variables of a grid say of where its entries come from. -/
structure IndexesOrigins (n : Network α) (live : List PhaseSet) (steps : Nat) (g : Grid α) : Prop where
  /-- Every entry that is live has a variable, and no other one has. -/
  present : ∀ t net, (g.index? net t).isSome = true ↔ LiveAt live steps t net
  /-- Entries share a variable exactly when they have one origin. -/
  shared : ∀ t net u net', LiveAt live steps t net → LiveAt live steps u net' →
    (g.index? net t = g.index? net' u ↔ n.SameOrigin (n.origin t net) (n.origin u net'))
  /-- All variables of steps are numbers below their count, and all of these are used. -/
  used : ∀ i, i < g.majorCount ↔ ∃ t net, g.index? net t = some i
  /-- A variable is first met after all those of smaller numbers. -/
  first : ∀ t net i k, g.index? net t = some i → k < i →
    ∃ u m, (u < t ∨ (u = t ∧ m < net)) ∧ g.index? m u = some k

include h hs hc in
theorem Expands.indexesOrigins {stages : Nat} {g : Grid α} (hg : n.Expands live steps stages g) :
    n.IndexesOrigins live steps g where
  present t net := by
    constructor
    · intro hsome
      obtain ⟨i, hi⟩ := Option.isSome_iff_exists.mp hsome
      exact hg.liveAt hi
    · intro hl
      obtain ⟨i, hi, _⟩ := hg.exists_index hl
      exact Option.isSome_iff_exists.mpr ⟨i, hi⟩
  shared t net u net' hl hl' := by
    obtain ⟨e, he⟩ := exists_slot hl
    obtain ⟨f, hf⟩ := exists_slot hl'
    rw [hg.index?_eq he, hg.index?_eq hf, ← linked_iff_sameOrigin h hs hc _ he hf]
    exact hg.labels_eq_iff (List.getElem?_eq_some_iff.mp he).1 (List.getElem?_eq_some_iff.mp hf).1
  used i := by
    constructor
    · intro hi
      obtain ⟨e, t, net, he, hl⟩ := hg.exists_label hi
      exact ⟨t, net, hg.index?_eq_some.mpr ⟨e, he, hl⟩⟩
    · intro ⟨t, net, hi⟩
      obtain ⟨e, _, hl⟩ := hg.index?_eq_some.mp hi
      exact hg.labels_lt (List.mem_of_getElem? hl)
  first t net i k hi hk := by
    obtain ⟨e, he, hl⟩ := hg.index?_eq_some.mp hi
    rw [hg.labels_eq] at hl
    obtain ⟨f, hfe, hlf⟩ := exists_sharedLabel_before (joinPairs_lt n _ steps) hl hk
    obtain ⟨hlt, hget⟩ := List.getElem?_eq_some_iff.mp he
    have hlf' : f < (liveSlots live steps).length := Nat.lt_trans hfe hlt
    have hbefore := List.pairwise_iff_getElem.mp (sorted_liveSlots live steps) f e hlf' hlt hfe
    rw [hget] at hbefore
    refine ⟨_, _, hbefore, hg.index?_eq_some.mpr ⟨f, List.getElem?_eq_getElem hlf', ?_⟩⟩
    rw [hg.labels_eq]
    exact hlf

include hc in
/-- Where delays are live, their inputs live one step before, so none of them is missed. -/
theorem quiet_joins_liveSlots (steps : Nat) (phases : List PhaseSet) :
    ((n.withLiveness phases).joins (liveSlots live steps) steps).Quiet
      (n.joinPairs (liveSlots live steps) steps) := by
  rw [← joinPairs_withLiveness n phases]
  apply quiet_joins
  intro b hb o i hz t h₂ hmem
  rw [netOf_withLiveness] at hmem ⊢
  obtain ⟨⟨k, b'⟩, he, rfl⟩ := List.mem_map.mp hb
  obtain ⟨hentry, hkind⟩ := List.mem_filter.mp he
  have hk : b'.kind = .delay := by simpa using hkind
  obtain ⟨ho, hi⟩ := List.of_mem_zip hz
  exact mem_liveSlots.mpr
    (hc.liveAt_before (n := n) (mem_entries.mp hentry) hk h₂ ho (mem_liveSlots.mp hmem) hi)

end Linked

end Network

namespace Run

variable {α : Type} [Scalar α]

/-- The variables of a horizon are the origins of its entries. A diagram whose nets have one source
each expands over every horizon, and no delay is found without its input. -/
theorem indices_are_origins {d : Diagram} {hold : Hold} {n₀ n : Network α} {count steps : Nat}
    (ht : (d.trace hold).result = .ok n₀) (hm : (mergeWires n₀).result = .ok (count, n))
    (hs : n.SingleSourced) (h₁ : 1 ≤ steps) (minor : Bool) (stages : Nat) :
    ∃ notes g, (n.withLiveness (n.liveness minor)).expand (n.liveness minor) steps stages =
        ⟨notes, .ok g⟩ ∧
      (∀ note ∈ notes, ∀ t, note.finding ≠ .delayInput t) ∧
      n.IndexesOrigins (n.liveness minor) steps g := by
  obtain ⟨h, _⟩ := Network.netted_mergeWires ht hm
  have hdriven := h.driven hs
  have hc := Liveness.closed_liveness hdriven minor
  have hlength := Liveness.length_liveness hdriven minor
  have hgroup : ∀ net < (n.liveness minor).length,
      (n.withLiveness (n.liveness minor)).wires.group net ≠ [] := by
    intro net hnet
    exact h.group_withLiveness _ (hlength ▸ hnet)
  obtain ⟨notes, g, hg, hnotes⟩ := Network.expand_eq stages h₁ hgroup
  have hexpands := Network.expands_withLiveness (Network.expands (congrArg Noted.result hg))
  have hquiet := Network.quiet_joins_liveSlots hc steps (n.liveness minor)
  rw [hquiet, List.nil_append] at hg
  exact ⟨notes, g, hg, hnotes, Network.Expands.indexesOrigins h hs hc hexpands⟩

/-- A total over three steps, with two stages in every interval. -/
theorem indices_are_origins_total :
    (RunningTotal.diagram.trace .firstOrder : Noted ℚ _).result = .ok RunningTotal.traced ∧
      (mergeWires RunningTotal.traced).result = .ok (4, RunningTotal.network) ∧
      RunningTotal.network.SingleSourced ∧ 1 ≤ 3 ∧
      ∃ notes g, (RunningTotal.network.withLiveness (RunningTotal.network.liveness true)).expand
          (RunningTotal.network.liveness true) (3 : Nat) 2 = ⟨notes, .ok g⟩ ∧
        (∀ note ∈ notes, ∀ t, note.finding ≠ .delayInput t) ∧
        RunningTotal.network.IndexesOrigins (RunningTotal.network.liveness true) 3 g :=
  have ht := congrArg Noted.result RunningTotal.trace_diagram
  have hm : (mergeWires RunningTotal.traced).result = .ok (4, RunningTotal.network) := rfl
  ⟨ht, hm, RunningTotal.singleSourced_network, by decide,
    indices_are_origins ht hm RunningTotal.singleSourced_network (by decide) true 2⟩

/-- The output of the delay has its value from the sum, one step before. -/
example : RunningTotal.network.origin 3 1 = (2, 0) := rfl

end Run

end Transcription
