import Transcription.Proofs.Program.Entries
import Transcription.Proofs.Program.Sizes

namespace Transcription

/-- A number is told by its quotient and its remainder. -/
theorem eq_and_eq_of_mul_add_eq {a b c d m : Nat} (hb : b < m) (hd : d < m)
    (h : a * m + b = c * m + d) : a = c ∧ b = d := by
  have hm : 0 < m := Nat.lt_of_le_of_lt (Nat.zero_le b) hb
  have hquotient := congrArg (· / m) h
  simp only [Nat.mul_comm _ m, Nat.mul_add_div hm, Nat.div_eq_of_lt hb, Nat.div_eq_of_lt hd,
    Nat.add_zero] at hquotient
  subst hquotient
  exact ⟨rfl, Nat.add_left_cancel h⟩

/-- Of equal masks after one another, each marks its places behind those of the masks before it. -/
theorem getElem?_marked_copies {mask : List Bool} {m q rank c : Nat} (hq : q < m)
    (hrank : (marked mask)[rank]? = some c) :
    (marked (List.replicate m mask).flatten)[q * (marked mask).length + rank]? =
      some (q * mask.length + c) := by
  induction m generalizing q with
  | zero => exact absurd hq (Nat.not_lt_zero q)
  | succ m ih =>
    rw [List.replicate_succ, List.flatten_cons, marked_append]
    cases q with
    | zero =>
      rw [Nat.zero_mul, Nat.zero_mul, Nat.zero_add, Nat.zero_add,
        List.getElem?_append_left (List.getElem?_eq_some_iff.mp hrank).1, hrank]
    | succ q =>
      have hcopy := ih (Nat.lt_of_succ_lt_succ hq)
      rw [Nat.succ_mul, Nat.add_right_comm, List.getElem?_append_right (Nat.le_add_left _ _),
        Nat.add_sub_cancel, List.getElem?_map, hcopy, Option.map_some, Nat.succ_mul,
        Nat.add_right_comm]

/-- Restricting every copy of a system by one mask gives copies of the restriction. -/
theorem System.trim_copies {α : Type} [Scalar α] {s : System α} (hs : s.Proper) {mask : List Bool}
    (h : mask.length = s.width) (m : Nat) :
    (s.replicate m).trim (List.replicate m mask).flatten = .ok ((s.trimmed mask).replicate m) := by
  have hlength : (List.replicate m mask).flatten.length = (s.replicate m).width := by
    simp [System.replicate, h]
  rw [trim_eq hlength]
  cases m with
  | zero => simp [replicate_zero, trimmed, isEmpty, empty]
  | succ m =>
    have hmasks : ∀ other ∈ List.replicate (m + 1) mask, other.length = s.width :=
      fun other hother => List.eq_of_mem_replicate hother ▸ h
    have hcopies := trimmed_copies hs (by simp) hmasks
    rw [List.length_replicate, List.map_replicate, ← replicate_eq_directSum] at hcopies
    exact congrArg Except.ok hcopies

def allStages {α : Type} (live : List PhaseSet) (g : Grid α) : List Bool :=
  (List.replicate (g.intervals * g.stages) (minorMask live)).flatten

def stagePlaces {α : Type} (live : List PhaseSet) (g : Grid α) : Set (Nat × Nat × Nat) :=
  {p | LiveInStages live p.1 ∧ (1 ≤ p.2.1 ∧ p.2.1 ≤ g.intervals) ∧ 1 ≤ p.2.2 ∧ p.2.2 ≤ g.stages}

namespace Network

variable {α : Type} [Scalar α] {n : Network α} {live : List PhaseSet} {steps stages : Nat}
  {g : Grid α} {e e' : Entry α} {net k s i : Nat}

theorem Expands.nodup_minorNets (h : n.Expands live steps stages g) : g.minorNets.Nodup := by
  rw [h.minorNets_eq]
  split
  · exact List.nodup_nil
  · exact nodup_marked _

/-- Where there are stages, their nets are those that live in stages. -/
theorem Expands.minorNets_of_stages (h : n.Expands live steps stages g) (hs : 1 ≤ g.stages) :
    g.minorNets = marked (minorMask live) := by
  rw [h.minorNets_eq, if_neg (by omega)]

/-- A variable of a stage stands behind the stages before it and the nets before its own. -/
theorem Expands.minorIndex?_eq_some (h : n.Expands live steps stages g) :
    g.minorIndex? net k s = some i ↔ ((1 ≤ k ∧ k ≤ g.intervals) ∧ 1 ≤ s ∧ s ≤ g.stages) ∧
      ∃ rank : Nat, g.minorNets[rank]? = some net ∧
        i = g.majorCount + (((k - 1) * g.stages + (s - 1)) * g.minorNets.length + rank) := by
  simp only [Grid.minorIndex?, Grid.stageBase, Option.bind_eq_some_iff,
    idxOf?_of_nodup h.nodup_minorNets, Option.ite_none_right_eq_some, Option.some.injEq,
    Bool.and_eq_true, decide_eq_true_eq, Nat.add_assoc]
  constructor
  · rintro ⟨rank, hrank, ⟨⟨⟨h₁, hk⟩, h₂⟩, hs⟩, rfl⟩
    exact ⟨⟨⟨h₁, hk⟩, h₂, hs⟩, rank, hrank, rfl⟩
  · rintro ⟨⟨⟨h₁, hk⟩, h₂, hs⟩, rank, hrank, rfl⟩
    exact ⟨rank, hrank, ⟨⟨⟨h₁, hk⟩, h₂⟩, hs⟩, rfl⟩

theorem Expands.isSome_minorIndex? (h : n.Expands live steps stages g) :
    (∃ i, g.minorIndex? net k s = some i) ↔ (net, k, s) ∈ stagePlaces live g := by
  have hmem (hs : 1 ≤ g.stages) : net ∈ g.minorNets ↔ LiveInStages live net := by
    rw [h.minorNets_of_stages hs, mem_marked, kept_minorMask]
  simp only [h.minorIndex?_eq_some, stagePlaces, Set.mem_ofPred_eq]
  constructor
  · rintro ⟨_, ⟨hk, hs⟩, rank, hrank, _⟩
    exact ⟨(hmem (by omega)).mp (List.mem_of_getElem? hrank), hk, hs⟩
  · rintro ⟨hlive, hk, hs⟩
    obtain ⟨rank, hrank⟩ := List.mem_iff_getElem?.mp ((hmem (by omega)).mpr hlive)
    exact ⟨_, ⟨hk, hs⟩, rank, hrank, rfl⟩

/-- Variables of stages differ unless their nets, intervals and stages are the same. -/
theorem Expands.minorIndex?_inj (h : n.Expands live steps stages g) {net' k' s' : Nat}
    (hi : g.minorIndex? net k s = some i) (hi' : g.minorIndex? net' k' s' = some i) :
    net = net' ∧ k = k' ∧ s = s' := by
  obtain ⟨⟨hk, hs⟩, rank, hrank, rfl⟩ := h.minorIndex?_eq_some.mp hi
  obtain ⟨⟨hk', hs'⟩, rank', hrank', heq⟩ := h.minorIndex?_eq_some.mp hi'
  obtain ⟨hcopy, rfl⟩ := eq_and_eq_of_mul_add_eq (List.getElem?_eq_some_iff.mp hrank).1
    (List.getElem?_eq_some_iff.mp hrank').1 (Nat.add_left_cancel heq)
  obtain ⟨hinterval, hstage⟩ := eq_and_eq_of_mul_add_eq (by omega) (by omega) hcopy
  exact ⟨Option.some.inj (hrank.symm.trans hrank'), by omega, by omega⟩

theorem Expands.le_minorIndex? (h : n.Expands live steps stages g)
    (hi : g.minorIndex? net k s = some i) : g.majorCount ≤ i := by
  obtain ⟨_, _, _, rfl⟩ := h.minorIndex?_eq_some.mp hi
  exact Nat.le_add_right _ _

theorem minorIndex?_minorEntries (hn : g.minorNets.Nodup)
    (he : e ∈ (minorEntries g.majorCount g.steps g.stages g.minorNets : List (Entry α))) :
    g.minorIndex? e.net e.step e.stage = some e.index := by
  simp only [minorEntries, List.mem_flatMap, List.mem_map] at he
  obtain ⟨k, hk, s, hs, ⟨net, rank⟩, hnet, rfl⟩ := he
  have hk := mem_stepsFrom.mp hk
  have hs := mem_stepsFrom.mp hs
  have hintervals : g.intervals = g.steps - 1 := if_neg (by omega)
  dsimp only
  rw [Grid.minorIndex?, (idxOf?_of_nodup hn).mpr (List.mem_zipIdx_iff_getElem?.mp hnet),
    Option.bind_some, if_pos]
  simp only [Bool.and_eq_true, decide_eq_true_eq]
  omega

/-- The entries of the stages have all variables from the first of them on. -/
theorem exists_minorEntry {majorCount steps stages i : Nat} {nets : List Nat} (hi : majorCount ≤ i)
    (hlt : i < majorCount + (steps - 1) * stages * nets.length) :
    ∃ e ∈ (minorEntries majorCount steps stages nets : List (Entry α)), e.index = i := by
  -- the place of a stage among all of them, and that of a net in the stage
  let copy := (i - majorCount) / nets.length
  let rank := (i - majorCount) % nets.length
  have hplace : i - majorCount < (steps - 1) * stages * nets.length := by omega
  have hnets : 0 < nets.length := Nat.pos_of_lt_mul_left hplace
  have hcopy : copy < (steps - 1) * stages := Nat.div_lt_of_lt_mul (Nat.mul_comm _ _ ▸ hplace)
  have hstages : 0 < stages := Nat.pos_of_lt_mul_left hcopy
  have hinterval : copy / stages < steps - 1 := Nat.div_lt_of_lt_mul (Nat.mul_comm _ _ ▸ hcopy)
  have hstage : copy % stages < stages := Nat.mod_lt _ hstages
  have hrank : rank < nets.length := Nat.mod_lt _ hnets
  refine ⟨{
    net := nets[rank], step := copy / stages + 1, stage := copy % stages + 1
    lower := .negInf, upper := .posInf, cost := 0
    index := Grid.stageBase majorCount stages nets.length (copy / stages + 1) (copy % stages + 1) +
      rank }, ?_, ?_⟩
  · simp only [minorEntries, List.mem_flatMap, List.mem_map]
    exact ⟨copy / stages + 1, mem_stepsFrom.mpr ⟨Nat.le_add_left _ _, hinterval⟩, copy % stages + 1,
      mem_stepsFrom.mpr ⟨Nat.le_add_left _ _, hstage⟩, (nets[rank], rank),
      List.mem_zipIdx_iff_getElem?.mpr (List.getElem?_eq_getElem hrank), rfl⟩
  · have hcopies : copy / stages * stages + copy % stages = copy := Nat.div_add_mod' _ _
    have hwhole : copy * nets.length + rank = i - majorCount := Nat.div_add_mod' _ _
    dsimp only [Grid.stageBase]
    rw [Nat.add_sub_cancel, Nat.add_sub_cancel, hcopies]
    omega

section Expansions

variable (hg : (n.expand live steps stages).result = .ok g)
include hg

/-- An entry of a stage has the variable of its net there. -/
theorem minorIndex?_entry (he : e ∈ g.entries) (hstage : e.stage ≠ 0) :
    g.minorIndex? e.net e.step e.stage = some e.index :=
  minorIndex?_minorEntries (expands hg).nodup_minorNets
    ((mem_entries_expand hg he).resolve_left hstage)

/-- An entry of a step has the variable of its net there. -/
theorem index?_entry (he : e ∈ g.entries) (hstage : e.stage = 0) :
    g.index? e.net e.step = some e.index ∧ e.index < g.majorCount :=
  (expands hg).index?_major (List.mem_filter.mpr ⟨he, decide_eq_true hstage⟩)

/-- Two entries of one net, step and stage have one variable. -/
theorem index_entry_inj (he : e ∈ g.entries) (he' : e' ∈ g.entries) (hnet : e.net = e'.net)
    (hstep : e.step = e'.step) (hstage : e.stage = e'.stage) : e.index = e'.index := by
  by_cases hzero : e.stage = 0
  · have hindex := (index?_entry hg he hzero).1
    rw [hnet, hstep, (index?_entry hg he' (hstage ▸ hzero)).1] at hindex
    exact (Option.some.inj hindex).symm
  · have hindex := minorIndex?_entry hg he hzero
    rw [hnet, hstep, hstage, minorIndex?_entry hg he' (hstage ▸ hzero)] at hindex
    exact (Option.some.inj hindex).symm

/-- Every variable from the first of the stages on is that of an entry of a stage. -/
theorem exists_entry_of_stage (hi : g.majorCount ≤ i) (hlt : i < g.size) :
    ∃ e ∈ g.entries, e.stage ≠ 0 ∧ e.index = i := by
  obtain ⟨majors, _, hentries⟩ := entries_expand hg
  have hlt : i < g.majorCount + (g.steps - 1) * g.stages * g.minorNets.length := by
    by_cases hstages : g.stages = 0
    · rw [Grid.size, hstages] at hlt
      rw [hstages]
      exact hlt
    · rwa [Grid.size, Grid.intervals, if_neg hstages] at hlt
  obtain ⟨e, he, hindex⟩ := exists_minorEntry (α := α) hi hlt
  exact ⟨e, hentries ▸ List.mem_append_right _ he, minorEntries_stage he, hindex⟩

/-- Every variable of a grid is that of an entry, and every entry has one. -/
theorem lt_size_iff : i < g.size ↔ ∃ e ∈ g.entries, e.index = i := by
  constructor
  · intro hi
    by_cases hmajor : i < g.majorCount
    · obtain ⟨_, _, _, _, hlabel⟩ := (expands hg).exists_label hmajor
      have hmem := List.mem_of_getElem? hlabel
      rw [← (expands hg).indices_eq] at hmem
      obtain ⟨e, he, hindex⟩ := List.mem_map.mp hmem
      exact ⟨e, (List.mem_filter.mp he).1, hindex⟩
    · obtain ⟨e, he, _, hindex⟩ := exists_entry_of_stage hg (Nat.le_of_not_lt hmajor) hi
      exact ⟨e, he, hindex⟩
  · rintro ⟨e, he, rfl⟩
    by_cases hzero : e.stage = 0
    · exact Nat.lt_of_lt_of_le (index?_entry hg he hzero).2 (Nat.le_add_right _ _)
    · exact minorIndex?_lt (minorIndex?_entry hg he hzero)

/-- The variables of stages are those of their entries. -/
theorem minorIndex?_eq_some_iff_entry : g.minorIndex? net k s = some i ↔
    1 ≤ s ∧ ∃ e ∈ g.entries, e.net = net ∧ e.step = k ∧ e.stage = s ∧ e.index = i := by
  have h := expands hg
  constructor
  · intro hi
    obtain ⟨e, he, hstage, rfl⟩ :=
      exists_entry_of_stage hg (h.le_minorIndex? hi) (minorIndex?_lt hi)
    obtain ⟨hnet, hstep, hs⟩ := h.minorIndex?_inj (minorIndex?_entry hg he hstage) hi
    exact ⟨(h.minorIndex?_eq_some.mp hi).1.2.1, e, he, hnet, hstep, hs, rfl⟩
  · rintro ⟨hs, e, he, rfl, rfl, rfl, rfl⟩
    exact minorIndex?_entry hg he (Nat.ne_of_gt hs)

/-- The variables of stages are numbered one to one behind those of the steps. -/
theorem bijOn_minorIndex? :
    Set.BijOn (fun p : Nat × Nat × Nat => g.minorIndex? p.1 p.2.1 p.2.2) (stagePlaces live g)
      (some '' Set.Ico g.majorCount g.size) := by
  have h := expands hg
  refine ⟨?_, ?_, ?_⟩
  · intro p hp
    obtain ⟨i, hi⟩ := h.isSome_minorIndex?.mpr hp
    exact ⟨i, ⟨h.le_minorIndex? hi, minorIndex?_lt hi⟩, hi.symm⟩
  · intro p hp q _ hpq
    obtain ⟨i, hi⟩ := h.isSome_minorIndex?.mpr hp
    obtain ⟨hnet, hk, hs⟩ := h.minorIndex?_inj hi (hpq.symm.trans hi)
    exact Prod.ext hnet (Prod.ext hk hs)
  · rintro _ ⟨i, ⟨hi, hlt⟩, rfl⟩
    obtain ⟨e, he, hstage, rfl⟩ := exists_entry_of_stage hg hi hlt
    have hindex := minorIndex?_entry hg he hstage
    exact ⟨(e.net, e.step, e.stage), h.isSome_minorIndex?.mp ⟨_, hindex⟩, hindex⟩

end Expansions

/-- The copies of what is live in stages have the columns behind those of the steps. -/
theorem Expands.width_copies (h : n.Expands live steps stages g) (step : System α) :
    g.majorCount +
        ((step.trimmed (minorMask live)).replicate (g.intervals * g.stages)).width = g.size := by
  rw [Grid.size]
  change g.majorCount + g.intervals * g.stages * (step.trimmed (minorMask live)).width = _
  by_cases hs : g.stages = 0
  · simp [hs]
  · rw [System.width_trimmed, h.minorNets_of_stages (Nat.pos_of_ne_zero hs), length_marked]

/-- In the copies of a step, a net at a stage has a column that is kept and becomes its variable. -/
theorem Expands.column_of_stage (h : n.Expands live steps stages g)
    (hp : (net, k, s) ∈ stagePlaces live g) :
    ∃ copy rank : Nat, copy = (k - 1) * g.stages + (s - 1) ∧ g.minorNets[rank]? = some net ∧
      (marked (allStages live g))[copy * g.minorNets.length + rank]? =
        some (copy * live.length + net) ∧
      g.minorIndex? net k s = some (g.majorCount + (copy * g.minorNets.length + rank)) := by
  obtain ⟨i, hi⟩ := h.isSome_minorIndex?.mpr hp
  obtain ⟨⟨hk, hs⟩, rank, hrank, rfl⟩ := h.minorIndex?_eq_some.mp hi
  have hcopy : (k - 1) * g.stages + (s - 1) < g.intervals * g.stages :=
    add_mul_lt (by omega) (by omega)
  refine ⟨_, rank, rfl, hrank, ?_, hi⟩
  rw [h.minorNets_of_stages (by omega)] at hrank ⊢
  rw [allStages, getElem?_marked_copies hcopy hrank, length_minorMask]

/-- The variables of a grid leave no gap and do not overlap, whatever lives in which phases and however
many stages there are. Every number is that of an entry. The stages number their nets one to one behind
the steps, as their entries have it, and give no number anywhere else. That number is the column of the
net in the copies, one for each stage of each interval, of what is live in stages. -/
theorem indices_without_gaps {horizon : Int}
    (hg : (n.expand live horizon stages).result = .ok g) :
    (∀ i, i < g.size ↔ ∃ e ∈ g.entries, e.index = i) ∧
      Set.BijOn (fun p : Nat × Nat × Nat => g.minorIndex? p.1 p.2.1 p.2.2) (stagePlaces live g)
        (some '' Set.Ico g.majorCount g.size) ∧
      (∀ net k s, (net, k, s) ∉ stagePlaces live g → g.minorIndex? net k s = none) ∧
      (∀ net k s i, g.minorIndex? net k s = some i ↔
        1 ≤ s ∧ ∃ e ∈ g.entries, e.net = net ∧ e.step = k ∧ e.stage = s ∧ e.index = i) ∧
      ∀ step : System α, step.Proper → step.width = live.length →
        ∃ part, step.trim (minorMask live) = .ok part ∧
          (step.replicate (g.intervals * g.stages)).trim (allStages live g) =
            .ok (part.replicate (g.intervals * g.stages)) ∧
          g.majorCount + (part.replicate (g.intervals * g.stages)).width = g.size ∧
          ∀ net k s, (net, k, s) ∈ stagePlaces live g →
            ∃ copy rank : Nat, copy = (k - 1) * g.stages + (s - 1) ∧ g.minorNets[rank]? = some net ∧
              (marked (allStages live g))[copy * g.minorNets.length + rank]? =
                some (copy * step.width + net) ∧
              g.minorIndex? net k s = some (g.majorCount + (copy * g.minorNets.length + rank)) := by
  obtain ⟨steps, rfl⟩ : ∃ steps : Nat, horizon = steps := exists_steps hg
  have h := expands hg
  refine ⟨fun i => lt_size_iff hg, bijOn_minorIndex? hg, fun net k s hp => ?_,
    fun net k s i => minorIndex?_eq_some_iff_entry hg, fun step hstep hwidth => ?_⟩
  · apply Option.eq_none_iff_forall_ne_some.mpr
    intro i hi
    exact hp (h.isSome_minorIndex?.mp ⟨i, hi⟩)
  · have hmask : (minorMask live).length = step.width := by rw [length_minorMask, hwidth]
    refine ⟨step.trimmed (minorMask live), System.trim_eq hmask, System.trim_copies hstep hmask _,
      h.width_copies step, fun net k s hp => ?_⟩
    rw [hwidth]
    exact h.column_of_stage hp

/-- Over three steps with two stages between them, the first of two nets living in those: the five
variables of the steps are followed by four of the stages. -/
theorem indices_without_gaps_two :
    ∃ g, (twoNets.expand [⟨true, true, true, true⟩, ⟨true, false, true, false⟩] 3 2).result = .ok g ∧
      g.majorCount = 5 ∧ g.size = 9 ∧ g.minorIndex? 0 2 1 = some 7 ∧ g.minorIndex? 1 2 1 = none ∧
      (∃ e ∈ g.entries, e.net = 0 ∧ e.step = 2 ∧ e.stage = 1 ∧ e.index = 7) ∧
      ∃ part, twoEquations.trim [true, false] = .ok part ∧
        g.majorCount + (part.replicate (g.intervals * g.stages)).width = g.size := by
  have hproper : twoEquations.Proper := by
    refine ⟨?_, ?_⟩ <;> simp [twoEquations, Row.Within, or_imp, forall_and]
  have hnumbers : (twoNets.expand [⟨true, true, true, true⟩, ⟨true, false, true, false⟩]
      3 2).result.toOption.map (fun g => (g.majorCount, g.size, g.minorIndex? 0 2 1)) =
        some (5, 9, some 7) := by decide +kernel
  cases hg : (twoNets.expand [⟨true, true, true, true⟩, ⟨true, false, true, false⟩] 3 2).result with
  | error e =>
    rw [hg] at hnumbers
    cases hnumbers
  | ok g =>
    rw [hg] at hnumbers
    simp only [Except.toOption, Option.map_some, Option.some.injEq, Prod.mk.injEq] at hnumbers
    obtain ⟨hmajor, hsize, hindex⟩ := hnumbers
    obtain ⟨_, _, hnone, hentry, hcolumns⟩ := indices_without_gaps hg
    obtain ⟨part, hpart, _, hwidth, _⟩ := hcolumns twoEquations hproper rfl
    refine ⟨g, rfl, hmajor, hsize, hindex, hnone 1 2 1 ?_, ((hentry 0 2 1 7).mp hindex).2,
      part, hpart, hwidth⟩
    rintro ⟨hlive, _⟩
    exact absurd hlive (by simp [LiveInStages, PhaseSet.has])

end Network

end Transcription
