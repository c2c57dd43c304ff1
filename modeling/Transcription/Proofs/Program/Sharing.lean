import Transcription.Proofs.Horizon.Expansion
import Transcription.Proofs.Program.Dynamics

namespace Transcription

def Grid.reading {α : Type} (g : Grid α) (z : List α) (t net : Nat) : Option α :=
  (g.index? net t).bind fun i => z[i]?

namespace Network

section Pairs

variable {α : Type} [Scalar α] {n : Network α} {live : List PhaseSet} {steps : Nat}

theorem mem_joinPairs {slots : List (Nat × Nat)} {e : Nat × Nat} : e ∈ n.joinPairs slots steps ↔
    (∃ k b, n.block? k = some b ∧ b.kind = .delay ∧ e ∈ n.delayPairs slots steps b) ∨
    (∃ k b, n.block? k = some b ∧ b.isMoveBlocked = true ∧ ∃ o ∈ b.outputs,
      e ∈ windowJoins (windowed slots steps b (n.wires.netOf o))) := by
  have hdelay : (∃ ps ∈ ((n.blocks.ofKinds [.delay]).map (·.2)).map (n.delayPairs slots steps), e ∈ ps) ↔
      ∃ k b, n.block? k = some b ∧ b.kind = .delay ∧ e ∈ n.delayPairs slots steps b := by
    simp only [List.mem_map, exists_exists_and_eq_and, BlockTable.ofKinds, List.mem_filter,
      Prod.exists, mem_entries, List.contains_eq_mem, List.mem_singleton, decide_eq_true_eq]
    constructor
    · rintro ⟨b, ⟨k, c, ⟨hc, hk⟩, rfl⟩, he⟩
      exact ⟨k, c, hc, hk, he⟩
    · rintro ⟨k, b, hb, hk, he⟩
      exact ⟨b, ⟨k, b, ⟨hb, hk⟩, rfl⟩, he⟩
  have hblock : (∃ b ∈ n.blocks.blocks, e ∈ n.blockingJoins slots steps b) ↔
      ∃ k b, n.block? k = some b ∧ b.isMoveBlocked = true ∧ ∃ o ∈ b.outputs,
        e ∈ windowJoins (windowed slots steps b (n.wires.netOf o)) := by
    constructor
    · rintro ⟨b, hb, he⟩
      obtain ⟨k, hk⟩ := List.mem_iff_getElem?.mp hb
      unfold blockingJoins at he
      split at he
      · rename_i hm
        exact ⟨k, b, hk, hm, List.mem_flatMap.mp he⟩
      · cases he
    · rintro ⟨k, b, hk, hm, he⟩
      refine ⟨b, List.mem_of_getElem? hk, ?_⟩
      rw [blockingJoins, if_pos hm]
      exact List.mem_flatMap.mpr he
  rw [joinPairs, List.mem_append, List.mem_flatten, List.mem_flatMap, hdelay, hblock]

def slotValue (live : List PhaseSet) (steps : Nat) (v : Nat → Nat → Option α) (e : Nat) : Option α :=
  ((liveSlots live steps)[e]?).bind fun s => v s.1 s.2

omit [Scalar α] in
theorem slotValue_eq {v : Nat → Nat → Option α} {e t net : Nat}
    (h : (liveSlots live steps)[e]? = some (t, net)) : slotValue live steps v e = v t net := by
  rw [slotValue, h, Option.bind_some]

theorem exists_slot {t net : Nat} (h : LiveAt live steps t net) :
    ∃ e : Nat, (liveSlots live steps)[e]? = some (t, net) :=
  List.mem_iff_getElem?.mp (mem_liveSlots.mpr h)

theorem exists_lookup {es : List (Int × Nat)} {w : Int} {e : Nat} (h : (w, e) ∈ es) :
    ∃ f, es.lookup w = some f := by
  induction es with
  | nil => cases h
  | cons x es ih =>
    obtain ⟨u, f⟩ := x
    rw [List.lookup_cons]
    by_cases hu : w = u
    · subst hu
      exact ⟨f, by simp⟩
    · have hmem : (w, e) ∈ es := by
        cases List.mem_cons.mp h with
        | inl heq => exact absurd (congrArg Prod.fst heq) hu
        | inr hmem => exact hmem
      obtain ⟨f', hf'⟩ := ih hmem
      exact ⟨f', by rw [beq_eq_false_iff_ne.mpr hu]; exact hf'⟩

/-- Entries of an input in one window are linked through the first of them. -/
theorem linked_of_window (size : Nat) {k : Nat} {b : TracedBlock α} (hb : n.block? k = some b)
    (hm : b.isMoveBlocked = true) {o : Nat} (ho : o ∈ b.outputs) {t u e f : Nat}
    (he : (liveSlots live steps)[e]? = some (t, n.wires.netOf o))
    (hf : (liveSlots live steps)[f]? = some (u, n.wires.netOf o))
    (hw : b.period.window b.offset t = b.period.window b.offset u) :
    (Partition.discrete size).Linked (n.joinPairs (liveSlots live steps) steps) e f := by
  have hmem {v c : Nat} (hv : (liveSlots live steps)[c]? = some (v, n.wires.netOf o)) :
      (b.period.window b.offset v, c) ∈ windowed (liveSlots live steps) steps b (n.wires.netOf o) := by
    have hlive := mem_liveSlots.mp (List.mem_of_getElem? hv)
    exact mem_windowed.mpr ⟨v, hlive.1, hlive.2.1, rfl, idxOf?_liveSlots.mpr hv⟩
  obtain ⟨first, hfirst⟩ := exists_lookup (hmem he)
  have hall {c : Nat} (hc : (b.period.window b.offset t, c) ∈
      windowed (liveSlots live steps) steps b (n.wires.netOf o)) :
      (Partition.discrete size).Linked (n.joinPairs (liveSlots live steps) steps) first c := by
    by_cases hfc : first = c
    · rw [hfc]
      exact .refl c
    · have hpair : (first, c) ∈ windowJoins (windowed (liveSlots live steps) steps b
          (n.wires.netOf o)) := mem_windowJoins.mpr ⟨hfc, _, hc, hfirst⟩
      exact .rel _ _ (.inr (mem_joinPairs.mpr (.inr ⟨k, b, hb, hm, o, ho, hpair⟩)))
  have hmemf := hmem hf
  rw [← hw] at hmemf
  exact .trans _ _ _ (.symm _ _ (hall (hmem he))) (hall hmemf)

/-- What is carried and kept has one value in every class of entries. -/
theorem slotValue_of_linked {v : Nat → Nat → Option α} {size : Nat}
    (h : ∀ e ∈ n.joinPairs (liveSlots live steps) steps,
      slotValue live steps v e.1 = slotValue live steps v e.2) {e f : Nat}
    (hl : (Partition.discrete size).Linked (n.joinPairs (liveSlots live steps) steps) e f) :
    slotValue live steps v e = slotValue live steps v f :=
  Partition.of_linked_discrete (eq_equivalence.comap (slotValue live steps v)) h hl

/-- Values are carried and kept exactly when entries that are joined have one value. -/
theorem continues_iff {minor : Bool} (hc : n.Closed minor fun net => (live[net]?).getD {})
    (v : Assignment live steps α) : n.Continues v.value ↔
      ∀ e ∈ n.joinPairs (liveSlots live steps) steps,
        slotValue live steps v.value e.1 = slotValue live steps v.value e.2 := by
  constructor
  · intro h e he
    cases mem_joinPairs.mp he with
    | inl hd =>
      obtain ⟨k, b, hb, hk, hp⟩ := hd
      obtain ⟨o, i, hz, t, h₂, ht, hlater, hearlier⟩ := mem_delayPairs.mp hp
      have hl := idxOf?_liveSlots.mp hlater
      rw [slotValue_eq hl, slotValue_eq (idxOf?_liveSlots.mp hearlier)]
      apply h.delay k b hb hk o i hz t h₂
      exact (v.domain t _).mpr (mem_liveSlots.mp (List.mem_of_getElem? hl))
    | inr hw =>
      obtain ⟨k, b, hb, hm, o, ho, hj⟩ := hw
      obtain ⟨_, w, hmem, hfirst⟩ := mem_windowJoins.mp hj
      obtain ⟨t, _, _, hwt, ht⟩ := mem_windowed.mp hmem
      obtain ⟨u, _, _, hwu, hu⟩ := mem_windowed.mp (mem_of_lookup hfirst)
      have hlt := idxOf?_liveSlots.mp ht
      have hlu := idxOf?_liveSlots.mp hu
      rw [slotValue_eq hlt, slotValue_eq hlu]
      apply h.window k b hb hm o ho u t
      · exact (v.domain u _).mpr (mem_liveSlots.mp (List.mem_of_getElem? hlu))
      · exact (v.domain t _).mpr (mem_liveSlots.mp (List.mem_of_getElem? hlt))
      · rw [hwu, hwt]
  · intro h
    constructor
    · intro k b hb hk o i hz t h₂ hs
      have hl := (v.domain t _).mp hs
      obtain ⟨hmo, hmi⟩ := List.of_mem_zip hz
      obtain ⟨e, he⟩ := exists_slot hl
      obtain ⟨f, hf⟩ := exists_slot (hc.liveAt_before hb hk h₂ hmo hl hmi)
      have hpair : (e, f) ∈ n.delayPairs (liveSlots live steps) steps b :=
        mem_delayPairs.mpr ⟨o, i, hz, t, h₂, hl.2.1, idxOf?_liveSlots.mpr he, idxOf?_liveSlots.mpr hf⟩
      have := h (e, f) (mem_joinPairs.mpr (.inl ⟨k, b, hb, hk, hpair⟩))
      rwa [slotValue_eq he, slotValue_eq hf] at this
    · intro k b hb hm o ho t u ht hu hw
      have hlt := (v.domain t _).mp ht
      have hlu := (v.domain u _).mp hu
      obtain ⟨e, he⟩ := exists_slot hlt
      obtain ⟨f, hf⟩ := exists_slot hlu
      have heq := slotValue_of_linked h (linked_of_window (liveSlots live steps).length hb hm ho he hf hw)
      rwa [slotValue_eq he, slotValue_eq hf] at heq

end Pairs

section Grids

variable {α : Type} [Scalar α] {n : Network α} {live : List PhaseSet} {steps stages : Nat} {g : Grid α}

theorem Expands.index?_eq (h : n.Expands live steps stages g) {t net e : Nat}
    (he : (liveSlots live steps)[e]? = some (t, net)) : g.index? net t = g.labels[e]? := by
  rw [Grid.index?, Grid.entry?, h.slots_eq, idxOf?_liveSlots.mpr he, Option.bind_some]

theorem Expands.index?_eq_some (h : n.Expands live steps stages g) {t net i : Nat} :
    g.index? net t = some i ↔ ∃ e : Nat, (liveSlots live steps)[e]? = some (t, net) ∧
      g.labels[e]? = some i := by
  rw [Grid.index?, Grid.entry?, h.slots_eq, Option.bind_eq_some_iff]
  simp only [idxOf?_liveSlots]

theorem Expands.labels_lt (h : n.Expands live steps stages g) {i : Nat} (hi : i ∈ g.labels) :
    i < g.majorCount := by
  rw [h.majorCount_eq]
  exact Partition.lt_count hi

/-- Every major variable is that of an entry. -/
theorem Expands.exists_label (h : n.Expands live steps stages g) {i : Nat} (hi : i < g.majorCount) :
    ∃ e t net : Nat, (liveSlots live steps)[e]? = some (t, net) ∧ g.labels[e]? = some i := by
  rw [h.majorCount_eq] at hi
  obtain ⟨l, hl, hle⟩ := Partition.exists_of_lt_count hi
  rw [h.labels_eq] at hl
  have hmem := sharedLabels_dense (joinPairs_lt n _ steps) hl hle
  rw [← h.labels_eq] at hmem
  obtain ⟨e, he⟩ := List.mem_iff_getElem?.mp hmem
  have hlt := (List.getElem?_eq_some_iff.mp he).1
  rw [h.length_labels, h.slots_eq] at hlt
  exact ⟨e, _, _, List.getElem?_eq_getElem hlt, he⟩

theorem Expands.exists_index (h : n.Expands live steps stages g) {t net : Nat}
    (hl : LiveAt live steps t net) : ∃ i, g.index? net t = some i ∧ i < g.majorCount := by
  obtain ⟨e, he⟩ := exists_slot hl
  have hlt : e < g.labels.length := by
    rw [h.length_labels, h.slots_eq]
    exact (List.getElem?_eq_some_iff.mp he).1
  refine ⟨g.labels[e], ?_, h.labels_lt (List.getElem_mem hlt)⟩
  rw [h.index?_eq he, List.getElem?_eq_getElem hlt]

theorem Expands.liveAt (h : n.Expands live steps stages g) {t net i : Nat}
    (hi : g.index? net t = some i) : LiveAt live steps t net := by
  obtain ⟨e, he, _⟩ := h.index?_eq_some.mp hi
  exact mem_liveSlots.mp (List.mem_of_getElem? he)

theorem Expands.isSome_reading (h : n.Expands live steps stages g) {z : List α}
    (hz : g.majorCount ≤ z.length) (t net : Nat) :
    (g.reading z t net).isSome = true ↔ LiveAt live steps t net := by
  constructor
  · intro hs
    obtain ⟨a, ha⟩ := Option.isSome_iff_exists.mp hs
    obtain ⟨i, hi, _⟩ := Option.bind_eq_some_iff.mp ha
    exact h.liveAt hi
  · intro hl
    obtain ⟨i, hi, hlt⟩ := h.exists_index hl
    rw [Grid.reading, hi, Option.bind_some, List.getElem?_eq_getElem (by omega)]
    rfl

def Expands.assignment (h : n.Expands live steps stages g) (z : List α)
    (hz : g.majorCount ≤ z.length) : Assignment live steps α :=
  ⟨g.reading z, h.isSome_reading hz⟩

theorem Expands.labels_eq_iff (h : n.Expands live steps stages g) {e f : Nat}
    (he : e < (liveSlots live steps).length) (hf : f < (liveSlots live steps).length) :
    g.labels[e]? = g.labels[f]? ↔ (Partition.discrete (liveSlots live steps).length).Linked
      (n.joinPairs (liveSlots live steps) steps) e f := by
  rw [h.labels_eq]
  exact sharedLabels_eq_iff (joinPairs_lt n _ steps) he hf

theorem Expands.continues_reading (h : n.Expands live steps stages g) {minor : Bool}
    (hc : n.Closed minor fun net => (live[net]?).getD {}) {z : List α}
    (hz : g.majorCount ≤ z.length) : n.Continues (g.reading z) := by
  have hslot (e : Nat) (he : e < (liveSlots live steps).length) :
      slotValue live steps (g.reading z) e = (g.labels[e]?).bind fun i => z[i]? := by
    have hget := List.getElem?_eq_getElem he
    rw [slotValue_eq hget, Grid.reading, h.index?_eq hget]
  apply (continues_iff hc (h.assignment z hz)).mpr
  intro e he
  obtain ⟨h₁, h₂⟩ := joinPairs_lt n _ steps e he
  have hlabel := (h.labels_eq_iff h₁ h₂).mpr (.rel _ _ (.inr he))
  exact (hslot e.1 h₁).trans ((congrArg (·.bind fun i => z[i]?) hlabel).trans (hslot e.2 h₂).symm)

/-- Every assignment that is carried and kept is that of a point. -/
theorem Expands.exists_point (h : n.Expands live steps stages g) {minor : Bool}
    (hc : n.Closed minor fun net => (live[net]?).getD {}) (v : Assignment live steps α)
    (hv : n.Continues v.value) :
    ∃ z : List α, z.length = g.majorCount ∧ g.reading z = v.value := by
  have hjoin := (continues_iff hc v).mp hv
  have hentry (i : Nat) (hi : i < g.majorCount) : ∃ a, ∀ e t net : Nat,
      (liveSlots live steps)[e]? = some (t, net) → g.labels[e]? = some i → v.value t net = some a := by
    obtain ⟨e, t, net, he, hl⟩ := h.exists_label hi
    have hlive := mem_liveSlots.mp (List.mem_of_getElem? he)
    obtain ⟨a, ha⟩ := Option.isSome_iff_exists.mp ((v.domain t net).mpr hlive)
    refine ⟨a, fun f u m hf hlf => ?_⟩
    have hlinked := (h.labels_eq_iff (List.getElem?_eq_some_iff.mp he).1
      (List.getElem?_eq_some_iff.mp hf).1).mp (hl.trans hlf.symm)
    have heq := slotValue_of_linked hjoin hlinked
    rw [slotValue_eq he, slotValue_eq hf] at heq
    exact heq.symm.trans ha
  choose a ha using hentry
  refine ⟨List.ofFn fun i : Fin g.majorCount => a i i.isLt, List.length_ofFn, ?_⟩
  funext t net
  by_cases hl : LiveAt live steps t net
  · obtain ⟨i, hi, hlt⟩ := h.exists_index hl
    obtain ⟨e, he, hle⟩ := h.index?_eq_some.mp hi
    rw [Grid.reading, hi, Option.bind_some, ha i hlt e t net he hle]
    simp [hlt]
  · have hnone (o : Option α) (ho : o.isSome = true ↔ LiveAt live steps t net) : o = none := by
      rw [← Option.not_isSome_iff_eq_none, ho]
      exact hl
    rw [hnone _ (v.domain t net), hnone _ (h.isSome_reading (by simp) t net)]

/-- A point is known from the assignment that it stands for. -/
theorem Expands.point_unique (h : n.Expands live steps stages g) {z y : List α}
    (hz : z.length = g.majorCount) (hy : y.length = g.majorCount)
    (he : g.reading z = g.reading y) : z = y := by
  apply List.ext_getElem?
  intro i
  by_cases hi : i < g.majorCount
  · obtain ⟨e, t, net, hs, hl⟩ := h.exists_label hi
    have hindex := h.index?_eq_some.mpr ⟨e, hs, hl⟩
    have := congrFun (congrFun he t) net
    rwa [Grid.reading, Grid.reading, hindex, Option.bind_some, Option.bind_some] at this
  · rw [List.getElem?_eq_none (by omega), List.getElem?_eq_none (by omega)]

/-- The points of a grid are the assignments that delays carry and windows keep. -/
theorem Expands.exists_equiv (h : n.Expands live steps stages g) {minor : Bool}
    (hc : n.Closed minor fun net => (live[net]?).getD {}) :
    ∃ φ : {z : List α // z.length = g.majorCount} ≃
        {v : Assignment live steps α // n.Continues v.value},
      ∀ z, (φ z).1.value = g.reading z.1 := by
  let f (z : {z : List α // z.length = g.majorCount}) :
      {v : Assignment live steps α // n.Continues v.value} :=
    ⟨h.assignment z.1 z.2.ge, h.continues_reading hc z.2.ge⟩
  have hinj : Function.Injective f := by
    intro z y hzy
    exact Subtype.ext (h.point_unique z.2 y.2 (congrArg (fun v => v.1.value) hzy))
  have hsurj : Function.Surjective f := by
    intro v
    obtain ⟨z, hz, hread⟩ := h.exists_point hc v.1 v.2
    exact ⟨⟨z, hz⟩, Subtype.ext (Assignment.ext hread)⟩
  exact ⟨Equiv.ofBijective f ⟨hinj, hsurj⟩, fun z => rfl⟩

end Grids

end Network

end Transcription
