import Transcription.Proofs.Horizon.Expansion
import Transcription.Proofs.Wire.Limits

namespace Transcription

def Grid.majors {α : Type} (g : Grid α) : List (Entry α) := g.entries.filter fun e => e.stage = 0

namespace Network

variable {α : Type} [Scalar α]

structure Entered (n : Network α) (steps : Nat) (e : Entry α) (w : Wire α) : Prop where
  first : (n.wires.group e.net).head? = some w
  lower_eq : e.lower =
    ((stepPhases e.step steps).majorList.map w.lower.get).foldl Limit.max .negInf
  upper_eq : e.upper =
    ((stepPhases e.step steps).majorList.map w.upper.get).foldl Limit.min .posInf
  cost_eq : e.cost = largest ((stepPhases e.step steps).majorList.map w.cost.get)

structure Weighs (n : Network α) (steps : Nat) (g : Grid α) : Prop where
  entered : ∀ e ∈ g.majors, ∃ w, n.Entered steps e w
  lower_eq : ∀ i < g.majorCount, g.lower[i]? = some (sharedLower (sharing g.majors i))
  upper_eq : ∀ i < g.majorCount, g.upper[i]? = some (sharedUpper (sharing g.majors i))
  cost_eq : ∀ i < g.majorCount,
    g.cost[i]? = some (Scalar.sum ((sharing g.majors i).map (·.cost)))
  free : ∀ i, g.majorCount ≤ i → i < g.size →
    g.lower[i]? = some .negInf ∧ g.upper[i]? = some .posInf ∧ g.cost[i]? = some 0
  length_lower : g.lower.length = g.size
  length_upper : g.upper.length = g.size
  length_cost : g.cost.length = g.size

/-- A column has an entry of the steps or the one that is free. -/
theorem eq_or_eq_of_column {β : Type} {column : List β} {m size : Nat} {f : Nat → β} {b : β}
    (hmajor : ∀ i < m, column[i]? = some (f i)) (hfree : ∀ i, m ≤ i → i < size → column[i]? = some b)
    (hlength : column.length = size) {i : Nat} {v : β} (hv : column[i]? = some v) :
    v = f i ∨ v = b := by
  have hlt : i < size := hlength ▸ (List.getElem?_eq_some_iff.mp hv).1
  by_cases hi : i < m
  · exact .inl (Option.some.inj (hv.symm.trans (hmajor i hi)))
  · exact .inr (Option.some.inj (hv.symm.trans (hfree i (Nat.le_of_not_lt hi) hlt)))

theorem Weighs.lower_cases {n : Network α} {steps : Nat} {g : Grid α} (h : n.Weighs steps g) {i : Nat}
    {l : Limit α} (hl : g.lower[i]? = some l) : l = sharedLower (sharing g.majors i) ∨ l = .negInf :=
  eq_or_eq_of_column h.lower_eq (fun i hm hi => (h.free i hm hi).1) h.length_lower hl

theorem Weighs.upper_cases {n : Network α} {steps : Nat} {g : Grid α} (h : n.Weighs steps g) {i : Nat}
    {u : Limit α} (hu : g.upper[i]? = some u) : u = sharedUpper (sharing g.majors i) ∨ u = .posInf :=
  eq_or_eq_of_column h.upper_eq (fun i hm hi => (h.free i hm hi).2.1) h.length_upper hu

theorem entered_majorEntry {n : Network α} {steps t net : Nat} {e : Entry α}
    (h : n.majorEntry steps (t, net) = .ok e) (i : Nat) :
    ∃ w, n.Entered steps { e with index := i } w := by
  simp only [majorEntry] at h
  cases hg : n.wires.group net with
  | nil =>
    rw [hg] at h
    cases h
  | cons w ws =>
    rw [hg] at h
    cases h
    exact ⟨w, by rw [hg]; rfl, rfl, rfl, rfl⟩

theorem mem_minorEntries {majorCount steps stages : Nat} {nets : List Nat} {e : Entry α}
    (h : e ∈ (minorEntries majorCount steps stages nets : List (Entry α))) :
    e.lower = .negInf ∧ e.upper = .posInf ∧ e.cost = 0 := by
  simp only [minorEntries, List.mem_flatMap, List.mem_map] at h
  obtain ⟨k, _, s, _, ⟨net, rank⟩, _, rfl⟩ := h
  exact ⟨rfl, rfl, rfl⟩

theorem length_minorEntries (majorCount steps stages : Nat) (nets : List Nat) :
    (minorEntries majorCount steps stages nets : List (Entry α)).length =
      (steps - 1) * stages * nets.length := by
  simp [minorEntries, List.length_flatMap, length_stepsFrom, Nat.mul_assoc]

section Columns

variable {β : Type} {m : Nat} {f : Nat → β} {minors : List (Entry α)} {get : Entry α → β}

omit [Scalar α] in
/-- What variables have stands first for those of steps, then for those of stages. -/
theorem getElem?_columns {i : Nat} (hi : i < m) :
    ((List.range m).map f ++ minors.map get)[i]? = some (f i) := by
  rw [List.getElem?_append_left (by simpa using hi), List.getElem?_map, List.getElem?_range hi]
  rfl

omit [Scalar α] in
theorem getElem?_columns_free {b : β} (hfree : ∀ e ∈ minors, get e = b) {i : Nat} (hm : m ≤ i)
    (hi : i < m + minors.length) : ((List.range m).map f ++ minors.map get)[i]? = some b := by
  have hlt : i - m < minors.length := by omega
  rw [List.getElem?_append_right (by simpa using hm), List.length_map, List.length_range,
    List.getElem?_map, List.getElem?_eq_getElem hlt]
  exact congrArg some (hfree _ (List.getElem_mem hlt))

end Columns

structure MadeOf (g : Grid α) (majors minors : List (Entry α)) : Prop where
  entries_eq : g.entries = majors ++ minors
  major : ∀ e ∈ majors, e.stage = 0
  minor : ∀ e ∈ minors, e.stage ≠ 0 ∧ e.lower = .negInf ∧ e.upper = .posInf ∧ e.cost = 0
  size_eq : g.size = g.majorCount + minors.length
  lower_eq : g.lower = (List.range g.majorCount).map (fun i => sharedLower (sharing majors i)) ++
    minors.map (·.lower)
  upper_eq : g.upper = (List.range g.majorCount).map (fun i => sharedUpper (sharing majors i)) ++
    minors.map (·.upper)
  cost_eq : g.cost =
    (List.range g.majorCount).map (fun i => Scalar.sum ((sharing majors i).map (·.cost))) ++
      minors.map (·.cost)

theorem MadeOf.majors_eq {g : Grid α} {majors minors : List (Entry α)} (h : MadeOf g majors minors) :
    g.majors = majors := by
  rw [Grid.majors, h.entries_eq, List.filter_append, List.filter_eq_self.mpr (by simpa using h.major),
    List.filter_eq_nil_iff.mpr (by simpa using fun e he => (h.minor e he).1), List.append_nil]

theorem MadeOf.weighs {n : Network α} {steps : Nat} {g : Grid α} {majors minors : List (Entry α)}
    (h : MadeOf g majors minors) (hentered : ∀ e ∈ majors, ∃ w, n.Entered steps e w) :
    n.Weighs steps g := by
  have hmajors := h.majors_eq
  exact {
    entered := hmajors.symm ▸ hentered
    lower_eq := fun i hi => by rw [h.lower_eq, hmajors, getElem?_columns hi]
    upper_eq := fun i hi => by rw [h.upper_eq, hmajors, getElem?_columns hi]
    cost_eq := fun i hi => by rw [h.cost_eq, hmajors, getElem?_columns hi]
    free := fun i hm hi => by
      rw [h.size_eq] at hi
      rw [h.lower_eq, h.upper_eq, h.cost_eq]
      exact ⟨getElem?_columns_free (fun e he => (h.minor e he).2.1) hm hi,
        getElem?_columns_free (fun e he => (h.minor e he).2.2.1) hm hi,
        getElem?_columns_free (fun e he => (h.minor e he).2.2.2) hm hi⟩
    length_lower := by simp [h.lower_eq, h.size_eq]
    length_upper := by simp [h.upper_eq, h.size_eq]
    length_cost := by simp [h.cost_eq, h.size_eq] }

/-- The entries at the steps have their nets' bounds and costs, whatever variables they are given. -/
theorem entered_majors {n : Network α} {steps : Nat} {slots : List (Nat × Nat)}
    {drafts : List (Entry α)}
    (hd : List.Forall₂ (fun s e => n.majorEntry steps s = .ok e) slots drafts) (labels : List Nat) :
    ∀ e ∈ List.zipWith (fun (e : Entry α) i => { e with index := i }) drafts labels,
      ∃ w, n.Entered steps e w := by
  intro e he
  obtain ⟨draft, hdraft, i, _, rfl⟩ :
      ∃ draft ∈ drafts, ∃ i ∈ labels, { draft with index := i } = e := by
    rw [← List.map_uncurry_zip_eq_zipWith] at he
    obtain ⟨⟨draft, i⟩, hm, rfl⟩ := List.mem_map.mp he
    exact ⟨draft, (List.of_mem_zip hm).1, i, (List.of_mem_zip hm).2, rfl⟩
  obtain ⟨slot, _, hslot⟩ := except_mapM_mem (except_mapM_eq_ok.mpr hd) hdraft
  exact entered_majorEntry hslot i

/-- A network that expands has its bounds and costs on the variables. Delays without their inputs are
noted, and so are variables whose bounds exclude one another. -/
theorem weighs_expand {n : Network α} {live : List PhaseSet} {steps stages : Nat} {g : Grid α}
    (h : (n.expand live steps stages).result = .ok g) : n.Weighs steps g ∧
      (∀ e ∈ (n.joins g.slots steps).notes, e ∈ (n.expand live steps stages).notes) ∧
      ∀ i < g.majorCount, ∀ e ∈ (noteMerged g.majors i).notes,
        e ∈ (n.expand live steps stages).notes := by
  unfold expand at h ⊢
  by_cases hpos : (steps : Int) < 1
  · rw [if_pos hpos] at h
    cases h
  simp only [if_neg hpos, Int.toNat_natCast] at h ⊢
  obtain ⟨drafts, hd, h⟩ := Noted.result_bind.mp h
  obtain ⟨pairs, hp, h⟩ := Noted.result_bind.mp h
  obtain ⟨_, hnote, h⟩ := Noted.result_bind.mp h
  obtain rfl : n.joinPairs (liveSlots live steps) steps = pairs := by
    rw [result_joins] at hp
    exact Except.ok.inj hp
  have hdrafts := except_mapM_eq_ok.mp hd
  obtain ⟨_, _, hstage⟩ :=
    majors_eq hdrafts (length_sharedLabels (joinPairs_lt n (liveSlots live steps) steps))
  have hentered := entered_majors hdrafts
    (sharedLabels (liveSlots live steps).length (n.joinPairs (liveSlots live steps) steps))
  have hstages (m k l : Nat) : (if k = 0 then 0 else m) * k * l = m * k * l := by
    split <;> simp [*]
  obtain ⟨minors, hmade⟩ : ∃ minors, MadeOf g (List.zipWith (fun (e : Entry α) i =>
      { e with index := i }) drafts (sharedLabels (liveSlots live steps).length
        (n.joinPairs (liveSlots live steps) steps))) minors := by
    cases h
    exact ⟨_, {
      entries_eq := rfl
      major := hstage
      minor := fun e he => ⟨minorEntries_stage he, mem_minorEntries he⟩
      size_eq := by
        rw [length_minorEntries, Grid.size, Grid.intervals]
        dsimp only
        rw [hstages]
      lower_eq := by dsimp only
      upper_eq := by dsimp only
      cost_eq := by dsimp only }⟩
  refine ⟨hmade.weighs hentered, fun e he => ?_, fun i hi e he => ?_⟩
  · cases h
    exact Noted.mem_notes_next hd (Noted.mem_notes_bind he)
  · rw [hmade.majors_eq] at he
    cases h
    apply Noted.mem_notes_next hd
    apply Noted.mem_notes_next hp
    apply Noted.mem_notes_bind
    have hrange := List.mem_range.mpr hi
    dsimp only at hrange
    exact Noted.mem_notes_forM (fun j _ => (noteMerged_eq _ j).1) hrange he

end Network

end Transcription
