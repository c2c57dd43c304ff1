import Mathlib
import Transcription.Horizon.Step

namespace Transcription

namespace PhaseSet

theorem meets_iff (s t : PhaseSet) : s.meets t = true ↔ ∃ p, s.has p = true ∧ t.has p = true := by
  constructor
  · intro h
    simp only [meets, Bool.or_eq_true, Bool.and_eq_true] at h
    rcases h with ((h | h) | h) | h
    · exact ⟨.major .initial, h⟩
    · exact ⟨.major .intermediate, h⟩
    · exact ⟨.major .final, h⟩
    · exact ⟨.minor, h⟩
  · rintro ⟨(_ | _ | _) | _, hs, ht⟩ <;> simp_all [meets, has, hasMajor]

theorem has_union (s t : PhaseSet) (p : Phase) : (s.union t).has p = (s.has p || t.has p) := by
  rcases p with (_ | _ | _) | _ <;> rfl

theorem not_has_empty (p : Phase) : ¬ PhaseSet.has {} p = true := by
  rcases p with (_ | _ | _) | _ <;> simp [has, hasMajor]

theorem mem_majorList {s : PhaseSet} {p : MajorPhase} : p ∈ s.majorList ↔ s.hasMajor p = true := by
  rw [majorList, List.mem_filter, and_iff_right]
  cases p <;> decide

end PhaseSet

theorem mem_stepsFrom {first last t : Nat} : t ∈ stepsFrom first last ↔ first ≤ t ∧ t ≤ last := by
  rw [stepsFrom, List.mem_range'_1]
  omega

theorem stepsFrom_self (t : Nat) : stepsFrom t t = [t] := by simp [stepsFrom, List.range'_succ]

theorem stepsFrom_append {first mid last : Nat} (h : first ≤ mid + 1) (k : mid ≤ last) :
    stepsFrom first mid ++ stepsFrom (mid + 1) last = stepsFrom first last := by
  obtain ⟨a, ha⟩ : ∃ a, mid + 1 = first + a := ⟨mid + 1 - first, by omega⟩
  obtain ⟨b, hb⟩ : ∃ b, last + 1 = first + a + b := ⟨last + 1 - (mid + 1), by omega⟩
  rw [stepsFrom, stepsFrom, stepsFrom, hb, ha, Nat.add_sub_cancel_left, Nat.add_sub_cancel_left,
    Nat.add_assoc, Nat.add_sub_cancel_left, ← List.range'_append_1]

theorem length_stepsFrom (first last : Nat) : (stepsFrom first last).length = last + 1 - first := by
  simp [stepsFrom]

theorem getElem?_stepsFrom {first last i : Nat} (h : first + i ≤ last) :
    (stepsFrom first last)[i]? = some (first + i) := by
  rw [stepsFrom, List.getElem?_range' (by omega), Nat.one_mul]

/-- Between the first and the last step all steps have one phase. -/
theorem stepPhases_middle {t steps : Nat} (h : 1 < t) (k : t < steps) :
    stepPhases t steps = stepPhases 2 steps := by
  unfold stepPhases
  rw [if_neg (by omega), if_neg (by omega), if_neg (by omega), if_neg (by omega),
    if_neg (by omega), if_neg (by omega)]

/-- A step belongs to one phase, unless it is a lone one. -/
theorem majorList_stepPhases (t steps : Int) :
    (steps = 1 ∧ (stepPhases t steps).majorList = [.initial, .final]) ∨
      (steps ≠ 1 ∧ ∃ p, (stepPhases t steps).majorList = [p]) := by
  unfold stepPhases
  split
  · rename_i h
    exact .inl ⟨h, rfl⟩
  · rename_i h
    refine .inr ⟨h, ?_⟩
    split
    · exact ⟨.initial, rfl⟩
    · split
      · exact ⟨.final, rfl⟩
      · exact ⟨.intermediate, rfl⟩

theorem minor_stepPhases (t steps : Int) : (stepPhases t steps).minor = false := by
  unfold stepPhases
  split
  · rfl
  · split
    · rfl
    · split <;> rfl

/-- Phases meet those of a step in a major one. -/
theorem meets_stepPhases {phases : PhaseSet} {t steps : Int} :
    phases.meets (stepPhases t steps) = true ↔
      ∃ p ∈ (stepPhases t steps).majorList, phases.hasMajor p = true := by
  rw [PhaseSet.meets_iff]
  constructor
  · rintro ⟨p, hp, hs⟩
    cases p with
    | major p => exact ⟨p, PhaseSet.mem_majorList.mpr hs, hp⟩
    | minor => exact absurd ((minor_stepPhases t steps).symm.trans hs) (by decide)
  · rintro ⟨p, hm, hp⟩
    exact ⟨.major p, hp, PhaseSet.mem_majorList.mp hm⟩

theorem mem_marked {mask : List Bool} {c : Nat} : c ∈ marked mask ↔ mask.getD c false = true := by
  rw [marked, List.mem_filter, List.mem_range, and_iff_right_iff_imp]
  intro h
  by_contra hn
  rw [List.getD_eq_default _ _ (Nat.le_of_not_lt hn)] at h
  cases h

theorem nodup_marked (mask : List Bool) : (marked mask).Nodup := List.nodup_range.filter _

theorem marked_append (ks ls : List Bool) :
    marked (ks ++ ls) = marked ks ++ (marked ls).map (· + ks.length) := by
  simp only [marked, List.length_append, List.range_add, List.filter_append, List.filter_map]
  congr 1
  · refine List.filter_congr fun i hi => ?_
    rw [List.getD_append _ _ _ _ (List.mem_range.mp hi)]
  · have : (fun i => (ks ++ ls).getD i false) ∘ (fun i => ks.length + i) =
        fun i => ls.getD i false := by
      funext i
      simp only [Function.comp_apply]
      rw [List.getD_append_right _ _ _ _ (Nat.le_add_right _ _), Nat.add_sub_cancel_left]
    rw [this]
    exact List.map_congr_left fun i _ => Nat.add_comm _ _

theorem marked_cons (k : Bool) (ks : List Bool) :
    marked (k :: ks) = (if k then [0] else []) ++ (marked ks).map (· + 1) := by
  rw [← List.singleton_append, marked_append]
  cases k <;> rfl

theorem length_marked (mask : List Bool) : (marked mask).length = mask.count true := by
  induction mask with
  | nil => rfl
  | cons k mask ih =>
    rw [marked_cons, List.length_append, List.length_map, ih]
    cases k <;> simp [Nat.add_comm]

/-- A marked place stands behind those marked before it. -/
theorem getElem?_marked {mask : List Bool} {c : Nat} (h : mask.getD c false = true) :
    (marked mask)[(mask.take c).count true]? = some c := by
  induction mask generalizing c with
  | nil => simp at h
  | cons k mask ih =>
    rw [marked_cons]
    cases c with
    | zero =>
      obtain rfl : k = true := by simpa using h
      rfl
    | succ c =>
      have := ih (by simpa using h)
      cases k
      · simp [this]
      · rw [List.take_succ_cons, List.count_cons_self, if_pos rfl,
          List.getElem?_append_right (by simp)]
        simp [this]

theorem length_stepMask (live : List PhaseSet) (steps t : Nat) :
    (stepMask live steps t).length = live.length := by simp [stepMask]

theorem stepMask_middle (live : List PhaseSet) {t steps : Nat} (h : 1 < t) (k : t < steps) :
    stepMask live steps t = stepMask live steps 2 := by
  unfold stepMask
  rw [stepPhases_middle h k]
  rfl

def LiveAt (live : List PhaseSet) (steps t net : Nat) : Prop :=
  1 ≤ t ∧ t ≤ steps ∧ ∃ p, ((live[net]?).getD {}).has p = true ∧ (stepPhases t steps).has p = true

theorem kept_stepMask {live : List PhaseSet} {steps t net : Nat} :
    (stepMask live steps t).getD net false = true ↔
      ∃ p, ((live[net]?).getD {}).has p = true ∧ (stepPhases t steps).has p = true := by
  rw [stepMask, List.getD_eq_getElem?_getD, List.getElem?_map]
  cases live[net]? with
  | none => simp [PhaseSet.not_has_empty]
  | some phases => simp [PhaseSet.meets_iff]

theorem mem_liveSlots {live : List PhaseSet} {steps t net : Nat} :
    (t, net) ∈ liveSlots live steps ↔ LiveAt live steps t net := by
  simp only [liveSlots, List.mem_flatMap, List.mem_map, Prod.mk.injEq, mem_stepsFrom, mem_marked]
  constructor
  · rintro ⟨t, ⟨h₁, h₂⟩, net, hm, rfl, rfl⟩
    exact ⟨h₁, h₂, kept_stepMask.mp hm⟩
  · rintro ⟨h₁, h₂, h⟩
    exact ⟨t, ⟨h₁, h₂⟩, net, kept_stepMask.mpr h, rfl, rfl⟩

theorem lt_length_of_has {live : List PhaseSet} {net : Nat} {p : Phase}
    (h : ((live[net]?).getD {}).has p = true) : net < live.length := by
  by_contra hn
  rw [List.getElem?_eq_none (Nat.le_of_not_lt hn)] at h
  exact PhaseSet.not_has_empty p h

theorem LiveAt.lt_length {live : List PhaseSet} {steps t net : Nat} (h : LiveAt live steps t net) :
    net < live.length := by
  obtain ⟨_, _, p, hp, _⟩ := h
  exact lt_length_of_has hp

theorem nodup_liveSlots (live : List PhaseSet) (steps : Nat) : (liveSlots live steps).Nodup := by
  refine List.nodup_flatMap.mpr ⟨fun t _ => ?_, ?_⟩
  · exact (nodup_marked _).map fun a b h => (Prod.mk.inj h).2
  · refine List.Pairwise.imp ?_ (List.nodup_range' 1 Nat.one_pos)
    intro t u htu
    simp only [Function.onFun, List.disjoint_left, List.mem_map]
    rintro _ ⟨a, _, rfl⟩ ⟨b, _, hb⟩
    exact htu (Prod.mk.inj hb).1.symm

/-- Without repetitions a member has one place only. -/
theorem idxOf?_of_nodup {β : Type} [BEq β] [LawfulBEq β] {as : List β} (h : as.Nodup) {a : β} {i : Nat} :
    as.idxOf? a = some i ↔ as[i]? = some a := by
  rw [List.idxOf?_eq_some_iff, List.getElem?_eq_some_iff]
  constructor
  · intro ⟨hi, he, _⟩
    exact ⟨hi, he⟩
  · intro ⟨hi, he⟩
    refine ⟨hi, he, fun j hj hje => ?_⟩
    have := h.getElem_inj_iff.mp (hje.trans he.symm)
    omega

theorem idxOf?_liveSlots {live : List PhaseSet} {steps i : Nat} {slot : Nat × Nat} :
    (liveSlots live steps).idxOf? slot = some i ↔ (liveSlots live steps)[i]? = some slot :=
  idxOf?_of_nodup (nodup_liveSlots live steps)

def LiveInStages (live : List PhaseSet) (net : Nat) : Prop :=
  ((live[net]?).getD {}).has .minor = true

theorem length_minorMask (live : List PhaseSet) : (minorMask live).length = live.length := by
  simp [minorMask]

theorem kept_minorMask {live : List PhaseSet} {net : Nat} :
    (minorMask live).getD net false = true ↔ LiveInStages live net := by
  rw [minorMask, LiveInStages, List.getD_eq_getElem?_getD, List.getElem?_map]
  cases live[net]? with
  | none => simp [PhaseSet.not_has_empty]
  | some phases => rfl

end Transcription
