import Mathlib
import Transcription.Horizon.Expansion
import Transcription.Proofs.Horizon.Steps
import Transcription.Proofs.Noted
import Transcription.Proofs.Partition

namespace Transcription

section Labels

variable {size : Nat} {pairs : List (Nat × Nat)}

theorem sharedLabels_eq : Network.sharedLabels size pairs =
    ((Partition.discrete size).unionAll pairs).labels.1 := rfl

theorem length_sharedLabels (h : ∀ e ∈ pairs, e.1 < size ∧ e.2 < size) :
    (Network.sharedLabels size pairs).length = size := by
  have hd := Partition.size_discrete size
  obtain ⟨hf, hs, _⟩ := (Partition.forest_discrete size).unionAll pairs (hd.symm ▸ h)
  rw [sharedLabels_eq, hf.length_labels, hs, hd]

/-- Entries share a label exactly when pairs link them. -/
theorem sharedLabels_eq_iff (h : ∀ e ∈ pairs, e.1 < size ∧ e.2 < size) {a b : Nat} (ha : a < size)
    (hb : b < size) : (Network.sharedLabels size pairs)[a]? = (Network.sharedLabels size pairs)[b]? ↔
      (Partition.discrete size).Linked pairs a b := by
  have hd := Partition.size_discrete size
  obtain ⟨hf, hs, hr⟩ := (Partition.forest_discrete size).unionAll pairs (hd.symm ▸ h)
  rw [sharedLabels_eq, hf.labels_eq_iff (by omega) (by omega), hr]

theorem sharedLabels_dense {k l : Nat} (h : ∀ e ∈ pairs, e.1 < size ∧ e.2 < size)
    (hl : l ∈ Network.sharedLabels size pairs) (hk : k ≤ l) :
    k ∈ Network.sharedLabels size pairs := by
  have hd := Partition.size_discrete size
  obtain ⟨hf, _⟩ := (Partition.forest_discrete size).unionAll pairs (hd.symm ▸ h)
  rw [sharedLabels_eq, hf.labels_eq] at hl ⊢
  exact Partition.number_dense _ hl hk

end Labels

namespace Network

variable {α : Type} [Scalar α]

def delayPair (slots : List (Nat × Nat)) (output input t : Nat) : List (Nat × Nat) :=
  match slots.idxOf? (t, output), slots.idxOf? (t - 1, input) with
  | some later, some earlier => [(later, earlier)]
  | _, _ => []

def delayPairs (n : Network α) (slots : List (Nat × Nat)) (steps : Nat) (b : TracedBlock α) :
    List (Nat × Nat) :=
  ((b.outputs.zip b.inputs).map fun (o, i) =>
    (stepsFrom 2 steps).map (delayPair slots (n.wires.netOf o) (n.wires.netOf i))).flatten.flatten

def joinPairs (n : Network α) (slots : List (Nat × Nat)) (steps : Nat) : List (Nat × Nat) :=
  (((n.blocks.ofKinds [.delay]).map (·.2)).map (n.delayPairs slots steps)).flatten ++
    n.blocks.blocks.flatMap (n.blockingJoins slots steps)

theorem result_delayJoin (n : Network α) (slots : List (Nat × Nat)) (b : TracedBlock α)
    (output input t : Nat) :
    (n.delayJoin slots b output input t).result = .ok (delayPair slots output input t) := by
  unfold delayJoin delayPair
  cases slots.idxOf? (t, output) with
  | none => rfl
  | some later => cases slots.idxOf? (t - 1, input) <;> rfl

theorem result_delayJoins (n : Network α) (slots : List (Nat × Nat)) (steps : Nat)
    (b : TracedBlock α) :
    (n.delayJoins slots steps b).result = .ok (n.delayPairs slots steps b) :=
  Noted.result_bind.mpr ⟨_, Noted.result_mapM_map fun _ _ =>
    Noted.result_mapM_map fun t _ => result_delayJoin n slots b _ _ t, rfl⟩

/-- Expansions never fail for want of a pair; one that lacks its input is only noted. -/
theorem result_joins (n : Network α) (slots : List (Nat × Nat)) (steps : Nat) :
    (n.joins slots steps).result = .ok (n.joinPairs slots steps) :=
  Noted.result_bind.mpr ⟨_, Noted.result_mapM_map fun b _ => result_delayJoins n slots steps b, rfl⟩

theorem quiet_delayJoin (n : Network α) {slots : List (Nat × Nat)} (b : TracedBlock α)
    {output input t : Nat} (h : (t, output) ∈ slots → (t - 1, input) ∈ slots) :
    (n.delayJoin slots b output input t).Quiet (delayPair slots output input t) := by
  unfold delayJoin delayPair
  cases hlater : slots.idxOf? (t, output) with
  | none => exact Noted.quiet_pure.mpr rfl
  | some later =>
    have hmem : (t, output) ∈ slots := by
      rw [← List.isSome_idxOf?, hlater]
      rfl
    cases hearlier : slots.idxOf? (t - 1, input) with
    | none => exact absurd (h hmem) (List.idxOf?_eq_none_iff.mp hearlier)
    | some earlier => exact Noted.quiet_pure.mpr rfl

/-- No output of a delay lacks its input where the input lives one step before. -/
theorem quiet_joins {n : Network α} {slots : List (Nat × Nat)} {steps : Nat}
    (h : ∀ b ∈ (n.blocks.ofKinds [.delay]).map (·.2), ∀ o i, (o, i) ∈ b.outputs.zip b.inputs →
      ∀ t, 2 ≤ t → (t, n.wires.netOf o) ∈ slots → (t - 1, n.wires.netOf i) ∈ slots) :
    (n.joins slots steps).Quiet (n.joinPairs slots steps) := by
  refine Noted.quiet_bind.mpr ⟨_, Noted.quiet_mapM_map fun b hb => ?_, rfl⟩
  refine Noted.quiet_bind.mpr ⟨_, Noted.quiet_mapM_map fun e he => ?_, rfl⟩
  refine Noted.quiet_mapM_map fun t ht => quiet_delayJoin n b ?_
  exact h b hb e.1 e.2 he t (mem_stepsFrom.mp ht).1

theorem mem_delayPairs {n : Network α} {slots : List (Nat × Nat)} {steps : Nat} {b : TracedBlock α}
    {e : Nat × Nat} : e ∈ n.delayPairs slots steps b ↔
      ∃ o i, (o, i) ∈ b.outputs.zip b.inputs ∧ ∃ t, 2 ≤ t ∧ t ≤ steps ∧
        slots.idxOf? (t, n.wires.netOf o) = some e.1 ∧
        slots.idxOf? (t - 1, n.wires.netOf i) = some e.2 := by
  have hpair (output input t : Nat) : e ∈ delayPair slots output input t ↔
      slots.idxOf? (t, output) = some e.1 ∧ slots.idxOf? (t - 1, input) = some e.2 := by
    unfold delayPair
    cases slots.idxOf? (t, output) with
    | none => simp
    | some later =>
      cases slots.idxOf? (t - 1, input) with
      | none => simp
      | some earlier => simp [Prod.ext_iff, eq_comm]
  simp only [delayPairs, List.mem_flatten, List.mem_map, Prod.exists]
  constructor
  · rintro ⟨_, ⟨_, ⟨o, i, hz, rfl⟩, hm⟩, he⟩
    obtain ⟨t, ht, rfl⟩ := List.mem_map.mp hm
    obtain ⟨h₁, h₂⟩ := mem_stepsFrom.mp ht
    exact ⟨o, i, hz, t, h₁, h₂, (hpair _ _ _).mp he⟩
  · rintro ⟨o, i, hz, t, h₁, h₂, he⟩
    exact ⟨_, ⟨_, ⟨o, i, hz, rfl⟩, List.mem_map.mpr ⟨t, mem_stepsFrom.mpr ⟨h₁, h₂⟩, rfl⟩⟩,
      (hpair _ _ _).mpr he⟩

theorem mem_windowJoins {es : List (Int × Nat)} {e : Nat × Nat} :
    e ∈ windowJoins es ↔ e.1 ≠ e.2 ∧ ∃ w, (w, e.2) ∈ es ∧ es.lookup w = some e.1 := by
  simp only [windowJoins, List.mem_filterMap, Prod.exists, Option.bind_eq_some_iff,
    Option.ite_none_left_eq_some, Option.some.injEq]
  constructor
  · rintro ⟨w, f, hm, first, hl, hne, rfl⟩
    exact ⟨hne, w, hm, hl⟩
  · rintro ⟨hne, w, hm, hl⟩
    exact ⟨w, e.2, hm, e.1, hl, hne, rfl⟩

omit [Scalar α] in
theorem mem_windowed {slots : List (Nat × Nat)} {steps : Nat} {b : TracedBlock α} {net : Nat}
    {w : Int} {e : Nat} : (w, e) ∈ windowed slots steps b net ↔
      ∃ t, 1 ≤ t ∧ t ≤ steps ∧ b.period.window b.offset t = w ∧
        slots.idxOf? (t, net) = some e := by
  simp only [windowed, List.mem_filterMap, Option.map_eq_some_iff, Prod.mk.injEq, mem_stepsFrom]
  constructor
  · rintro ⟨t, ⟨h₁, h₂⟩, _, he, rfl, rfl⟩
    exact ⟨t, h₁, h₂, rfl, he⟩
  · rintro ⟨t, h₁, h₂, rfl, he⟩
    exact ⟨t, ⟨h₁, h₂⟩, e, he, rfl, rfl⟩

theorem mem_of_lookup {es : List (Int × Nat)} {w : Int} {e : Nat} (h : es.lookup w = some e) :
    (w, e) ∈ es := by
  induction es with
  | nil => cases h
  | cons f es ih =>
    obtain ⟨v, k⟩ := f
    rw [List.lookup_cons] at h
    split at h
    · rename_i hv
      obtain rfl : w = v := by simpa using hv
      obtain rfl : k = e := by simpa using h
      exact List.mem_cons_self
    · exact List.mem_cons_of_mem _ (ih h)

theorem idxOf?_lt {slots : List (Nat × Nat)} {slot : Nat × Nat} {i : Nat}
    (h : slots.idxOf? slot = some i) : i < slots.length :=
  (List.idxOf?_eq_some_iff.mp h).1

/-- Pairs are pairs of entries. -/
theorem joinPairs_lt (n : Network α) (slots : List (Nat × Nat)) (steps : Nat) :
    ∀ e ∈ n.joinPairs slots steps, e.1 < slots.length ∧ e.2 < slots.length := by
  intro e he
  rcases List.mem_append.mp he with h | h
  · obtain ⟨_, hm, he⟩ := List.mem_flatten.mp h
    obtain ⟨b, _, rfl⟩ := List.mem_map.mp hm
    obtain ⟨_, _, _, _, _, _, h₁, h₂⟩ := mem_delayPairs.mp he
    exact ⟨idxOf?_lt h₁, idxOf?_lt h₂⟩
  · obtain ⟨b, _, hb⟩ := List.mem_flatMap.mp h
    unfold blockingJoins at hb
    split at hb
    · obtain ⟨i, _, hi⟩ := List.mem_flatMap.mp hb
      obtain ⟨_, w, hm, hl⟩ := mem_windowJoins.mp hi
      obtain ⟨_, _, _, _, h₂⟩ := mem_windowed.mp hm
      obtain ⟨_, _, _, _, h₁⟩ := mem_windowed.mp (mem_of_lookup hl)
      exact ⟨idxOf?_lt h₁, idxOf?_lt h₂⟩
    · cases hb

/-- A grid that comes from expanding a network. -/
structure Expands (n : Network α) (live : List PhaseSet) (steps stages : Nat) (g : Grid α) : Prop where
  steps_eq : g.steps = steps
  stages_eq : g.stages = if steps < 2 then 0 else stages
  live_eq : g.live = live
  slots_eq : g.slots = liveSlots live steps
  labels_eq : g.labels = sharedLabels (liveSlots live steps).length
    (n.joinPairs (liveSlots live steps) steps)
  majorCount_eq : g.majorCount = (g.labels.map (· + 1)).foldl max 0
  minorNets_eq : g.minorNets = if g.stages = 0 then [] else marked (minorMask live)
  entries_eq : (g.entries.filter fun e => e.stage = 0).map (fun e => (e.step, e.net)) = g.slots
  indices_eq : (g.entries.filter fun e => e.stage = 0).map (·.index) = g.labels

theorem Expands.length_labels {n : Network α} {live : List PhaseSet} {steps stages : Nat}
    {g : Grid α} (h : n.Expands live steps stages g) : g.labels.length = g.slots.length := by
  rw [h.labels_eq, length_sharedLabels (joinPairs_lt n _ steps), h.slots_eq]

theorem majorEntry_ok {n : Network α} (steps t : Nat) {net : Nat} (h : n.wires.group net ≠ []) :
    ∃ e, n.majorEntry steps (t, net) = .ok e := by
  simp only [majorEntry]
  cases hg : n.wires.group net with
  | nil => exact absurd hg h
  | cons w ws => exact ⟨_, rfl⟩

theorem majorEntry_slot {n : Network α} {steps t net : Nat} {e : Entry α}
    (h : n.majorEntry steps (t, net) = .ok e) : e.step = t ∧ e.net = net ∧ e.stage = 0 := by
  simp only [majorEntry] at h
  cases hg : n.wires.group net with
  | nil =>
    rw [hg] at h
    cases h
  | cons w ws =>
    rw [hg] at h
    cases h
    exact ⟨rfl, rfl, rfl⟩

theorem minorEntries_stage {majorCount steps stages : Nat} {nets : List Nat} {e : Entry α}
    (h : e ∈ (minorEntries majorCount steps stages nets : List (Entry α))) : e.stage ≠ 0 := by
  simp only [minorEntries, List.mem_flatMap, List.mem_map] at h
  obtain ⟨k, _, s, hs, ⟨net, rank⟩, _, rfl⟩ := h
  have := (mem_stepsFrom.mp hs).1
  exact Nat.ne_of_gt this

theorem noteMerged_eq (entries : List (Entry α)) (i : Nat) :
    (noteMerged entries i).result = .ok () ∧ ∀ note ∈ (noteMerged entries i).notes, ∀ t,
      note.finding ≠ .delayInput t := by
  unfold noteMerged
  dsimp only
  split
  · refine ⟨rfl, fun note hnote t he => ?_⟩
    rw [List.mem_singleton.mp hnote] at he
    cases he
  · exact ⟨rfl, nofun⟩

/-- A network expands if every net that can be live has a wire. Besides what is noted of delays, only
merged bounds are. -/
theorem expand_eq {n : Network α} {live : List PhaseSet} {steps : Nat} (stages : Nat)
    (h₁ : 1 ≤ steps) (hw : ∀ net < live.length, n.wires.group net ≠ []) :
    ∃ notes g, n.expand live steps stages =
        ⟨(n.joins (liveSlots live steps) steps).notes ++ notes, .ok g⟩ ∧
      ∀ note ∈ notes, ∀ t, note.finding ≠ .delayInput t := by
  obtain ⟨drafts, hd⟩ : ∃ drafts, (liveSlots live steps).mapM (n.majorEntry steps) = .ok drafts :=
    except_mapM_ok fun slot hm => majorEntry_ok steps slot.1 (hw slot.2 (mem_liveSlots.mp hm).lt_length)
  have hpos : ¬ (steps : Int) < 1 := by omega
  unfold expand
  rw [if_neg hpos]
  simp only [Int.toNat_natCast, hd]
  rw [Noted.bind_eq rfl, Noted.bind_eq (result_joins n _ _),
    Noted.forM_eq fun i _ => (noteMerged_eq _ i).1, Noted.bind_eq rfl]
  simp only [pure, List.append_nil]
  refine ⟨_, _, rfl, fun note hnote => ?_⟩
  obtain ⟨i, _, hi⟩ := List.mem_flatMap.mp hnote
  exact (noteMerged_eq _ i).2 note hi

theorem exists_expand {n : Network α} {live : List PhaseSet} {steps : Nat} (stages : Nat)
    (h₁ : 1 ≤ steps) (hw : ∀ net < live.length, n.wires.group net ≠ []) :
    ∃ g, (n.expand live steps stages).result = .ok g := by
  obtain ⟨_, g, hg, _⟩ := expand_eq stages h₁ hw
  exact ⟨g, congrArg Noted.result hg⟩

/-- What expands does so over one step at least. -/
theorem exists_steps {n : Network α} {live : List PhaseSet} {horizon : Int} {stages : Nat} {g : Grid α}
    (h : (n.expand live horizon stages).result = .ok g) : ∃ steps : Nat, horizon = steps := by
  by_cases hpos : horizon < 1
  · unfold expand at h
    rw [if_pos hpos] at h
    cases h
  · exact ⟨horizon.toNat, by omega⟩

/-- The drafts of the major entries with their variables. -/
theorem majors_eq {n : Network α} {steps : Nat} {slots : List (Nat × Nat)} {drafts : List (Entry α)}
    {labels : List Nat} (hd : List.Forall₂ (fun s e => n.majorEntry steps s = .ok e) slots drafts)
    (hl : labels.length = slots.length) :
    let majors := List.zipWith (fun (e : Entry α) i => { e with index := i }) drafts labels
    majors.map (fun e => (e.step, e.net)) = slots ∧ majors.map (·.index) = labels ∧
      ∀ e ∈ majors, e.stage = 0 := by
  induction hd generalizing labels with
  | nil =>
    obtain rfl := List.eq_nil_of_length_eq_zero hl
    exact ⟨rfl, rfl, fun e he => nomatch he⟩
  | @cons slot e slots drafts h _ ih =>
    cases labels with
    | nil => cases hl
    | cons l labels =>
      obtain ⟨hstep, hnet, hstage⟩ := majorEntry_slot h
      obtain ⟨h₁, h₂, h₃⟩ := ih (Nat.succ.inj hl)
      simp only [List.zipWith_cons_cons, List.map_cons, List.forall_mem_cons, hstep, hnet, h₁, h₂]
      exact ⟨trivial, trivial, hstage, h₃⟩

theorem expands {n : Network α} {live : List PhaseSet} {steps stages : Nat} {g : Grid α}
    (h : (n.expand live steps stages).result = .ok g) : n.Expands live steps stages g := by
  unfold expand at h
  by_cases hpos : (steps : Int) < 1
  · rw [if_pos hpos] at h
    cases h
  simp only [if_neg hpos, Int.toNat_natCast] at h
  obtain ⟨drafts, hd, h⟩ := Noted.result_bind.mp h
  obtain ⟨pairs, hp, h⟩ := Noted.result_bind.mp h
  obtain ⟨_, _, h⟩ := Noted.result_bind.mp h
  rw [result_joins] at hp
  cases hp
  cases h
  obtain ⟨hslots, hindex, hstage⟩ := majors_eq (except_mapM_eq_ok.mp hd)
    (length_sharedLabels (joinPairs_lt n _ steps))
  have hmajor {majors minors : List (Entry α)} (h₀ : ∀ e ∈ majors, e.stage = 0)
      (h₁ : ∀ e ∈ minors, e.stage ≠ 0) : (majors ++ minors).filter (fun e => e.stage = 0) = majors := by
    rw [List.filter_append, List.filter_eq_self.mpr (by simpa using h₀),
      List.filter_eq_nil_iff.mpr (by simpa using h₁), List.append_nil]
  have hfilter (c s l : Nat) (ns : List Nat) := hmajor hstage fun e
    (he : e ∈ minorEntries c s l ns) => minorEntries_stage (α := α) he
  exact {
    steps_eq := rfl
    stages_eq := by dsimp only
    live_eq := rfl
    slots_eq := by dsimp only
    labels_eq := by dsimp only
    majorCount_eq := by dsimp only
    minorNets_eq := by dsimp only
    entries_eq := by
      dsimp only
      rw [hfilter]
      exact hslots
    indices_eq := by
      dsimp only
      rw [hfilter]
      exact hindex }

end Network

end Transcription
