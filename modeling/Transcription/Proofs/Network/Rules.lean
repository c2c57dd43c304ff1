import Mathlib
import Transcription.Network.Liveness
import Transcription.Proofs.Horizon.Steps
import Transcription.Proofs.Partition

namespace Transcription

namespace PhaseSet

def Sub (s t : PhaseSet) : Prop := ∀ p, s.has p = true → t.has p = true

theorem Sub.refl (s : PhaseSet) : s.Sub s := fun _ h => h

theorem Sub.trans {s t u : PhaseSet} (h : s.Sub t) (k : t.Sub u) : s.Sub u := fun p hp => k p (h p hp)

end PhaseSet

/-- What comes from outside is no signal of another block. -/
theorem BlockKind.isReroute_of_isBoundary {k : BlockKind} (h : k.isBoundary = true) :
    k.isReroute = false := by
  cases k <;> first | rfl | cases h

theorem TracedBlock.isBoundary_of_isMoveBlocked {α : Type} {b : TracedBlock α}
    (h : b.isMoveBlocked = true) : b.kind.isBoundary = true := (Bool.and_eq_true_iff.mp h).1

theorem BlockTable.mem_entries {α : Type} {t : BlockTable α} {k : Nat} {b : TracedBlock α} :
    (k, b) ∈ t.entries ↔ t.blocks[k]? = some b := by
  rw [entries, size]
  constructor
  · intro h
    obtain ⟨i, hi, he⟩ := List.mem_iff_getElem.mp h
    simp only [List.getElem_zip, List.getElem_range, Prod.mk.injEq] at he
    obtain ⟨rfl, rfl⟩ := he
    simp
  · intro h
    obtain ⟨hk, rfl⟩ := List.getElem?_eq_some_iff.mp h
    refine List.mem_iff_getElem.mpr ⟨k, by simpa using hk, ?_⟩
    simp

namespace Network

variable {α : Type} [Scalar α]

structure Driven (n : Network α) : Prop where
  inside : ∀ k b, n.block? k = some b → ∀ i ∈ b.inputs ++ b.outputs, n.wires.netOf i < n.wires.netCount
  single : ∀ j b k c, n.block? j = some b → n.block? k = some c → b.kind.isReroute = false →
    c.kind.isReroute = false → ∀ i ∈ b.outputs, ∀ l ∈ c.outputs,
      n.wires.netOf i = n.wires.netOf l → j = k
  outside : ∀ w ∈ n.wires.wires, (w.input || w.external) = true →
    ∃ k b, n.block? k = some b ∧ b.kind.isBoundary = true ∧ ∃ i ∈ b.outputs, n.wires.netOf i = w.net

theorem mem_entries {n : Network α} {k : Nat} {b : TracedBlock α} :
    (k, b) ∈ n.blocks.entries ↔ n.block? k = some b := BlockTable.mem_entries

theorem mem_ofKind {n : Network α} {kind : BlockKind} {b : TracedBlock α} :
    b ∈ (n.blocks.ofKinds [kind]).map (·.2) ↔ ∃ k, n.block? k = some b ∧ b.kind = kind := by
  simp [BlockTable.ofKinds, mem_entries]

theorem mem_flatMap_ofKind {β : Type} {n : Network α} {kind : BlockKind} {f : TracedBlock α → List β}
    {x : β} : x ∈ ((n.blocks.ofKinds [kind]).map (·.2)).flatMap f ↔
      ∃ k b, n.block? k = some b ∧ b.kind = kind ∧ x ∈ f b := by
  rw [List.mem_flatMap]
  constructor
  · rintro ⟨b, hb, hx⟩
    obtain ⟨k, hk, hkind⟩ := mem_ofKind.mp hb
    exact ⟨k, b, hk, hkind, hx⟩
  · rintro ⟨k, b, hk, hkind, hx⟩
    exact ⟨b, mem_ofKind.mpr ⟨k, hk, hkind⟩, hx⟩

theorem mem_producers {n : Network α} {net k : Nat} :
    k ∈ n.producers net ↔ ∃ b, n.block? k = some b ∧ b.kind.isReroute = false ∧
      ∃ i ∈ b.outputs, n.wires.netOf i = net := by
  simp only [producers, List.mem_map, List.mem_filter, Prod.exists, mem_entries, Bool.and_eq_true,
    Bool.not_eq_true', List.any_eq_true, decide_eq_true_eq]
  constructor
  · rintro ⟨k, b, ⟨hb, hr, ho⟩, rfl⟩
    exact ⟨b, hb, hr, ho⟩
  · rintro ⟨b, hb, hr, ho⟩
    exact ⟨k, b, ⟨hb, hr, ho⟩, rfl⟩

/-- The rules of liveness, for phases given by net. -/
structure Closed (n : Network α) (minor : Bool) (live : Nat → PhaseSet) : Prop where
  sink : ∀ k b, n.block? k = some b → b.kind.isSink = true →
    ∀ i ∈ b.inputs, b.sinkPhases.Sub (live (n.wires.netOf i))
  primitive : ∀ k b, n.block? k = some b → b.kind = .primitive → ∀ o ∈ b.outputs, ∀ i ∈ b.inputs,
    (live (n.wires.netOf o)).Sub (live (n.wires.netOf i))
  integrator : ∀ k b, n.block? k = some b → b.kind = .integrator →
    ∀ o ∈ b.outputs, ∀ p, (live (n.wires.netOf o)).has p = true →
      (∀ q ∈ b.outputs, PhaseSet.majors.Sub (live (n.wires.netOf q))) ∧
      (minor = true → ∀ i ∈ b.inputs, (live (n.wires.netOf i)).has .minor = true)
  held : ∀ k b, n.block? k = some b → b.kind = .delay →
    ∀ o ∈ b.outputs, (live (n.wires.netOf o)).has .minor = true →
      ∀ q ∈ b.outputs, PhaseSet.majors.Sub (live (n.wires.netOf q))
  before : ∀ k b, n.block? k = some b → b.kind = .delay →
    ∀ o ∈ b.outputs, (live (n.wires.netOf o)).meets Liveness.later = true →
      ∀ i ∈ b.inputs, Liveness.earlier.Sub (live (n.wires.netOf i))
  outside : ∀ w ∈ n.wires.wires, (w.input || w.external) = true →
    (live w.net).has .minor = true → PhaseSet.majors.Sub (live w.net)

end Network

namespace Liveness

variable {α : Type} [Scalar α]

structure Grows (s t : Liveness) : Prop where
  live : ∀ net, (s.of net).Sub (t.of net)
  unseeded : ∀ e ∈ t.unseeded, e ∈ s.unseeded
  length : t.live.length = s.live.length

theorem Grows.refl (s : Liveness) : Grows s s := ⟨fun _ => .refl _, fun _ h => h, rfl⟩

theorem Grows.trans {s t u : Liveness} (h : Grows s t) (k : Grows t u) : Grows s u :=
  ⟨fun net => (h.live net).trans (k.live net), fun e he => h.unseeded e (k.unseeded e he),
    k.length.trans h.length⟩

theorem has_mark {s : Liveness} {net c : Nat} {phases : PhaseSet} {p : Phase} :
    ((s.mark net phases).of c).has p = true ↔
      (s.of c).has p = true ∨ (c = net ∧ net < s.live.length ∧ phases.has p = true) := by
  rw [of, mark, of, List.getElem?_modify]
  by_cases hc : net = c
  · subst hc
    cases h : s.live[net]? with
    | none =>
      have := List.getElem?_eq_none_iff.mp h
      simp [PhaseSet.not_has_empty]
      omega
    | some ps =>
      have := (List.getElem?_eq_some_iff.mp h).1
      simp [PhaseSet.has_union, this]
  · have hc' : c ≠ net := fun h => hc h.symm
    cases s.live[c]? <;> simp [hc, hc']

theorem grows_mark (s : Liveness) (net : Nat) (phases : PhaseSet) : Grows s (s.mark net phases) :=
  ⟨fun _ _ h => has_mark.mpr (.inl h), fun _ h => h, by simp [mark]⟩

theorem has_foldl_mark {n : Network α} {outputs : List Nat} {s : Liveness} {c : Nat} {p : Phase} :
    ((outputs.foldl (fun s i => s.mark (n.wires.netOf i) .majors) s).of c).has p = true ↔
      (s.of c).has p = true ∨
        (c < s.live.length ∧ PhaseSet.majors.has p = true ∧ ∃ o ∈ outputs, n.wires.netOf o = c) := by
  induction outputs generalizing s with
  | nil => simp
  | cons o outputs ih =>
    rw [List.foldl_cons, ih, has_mark, (grows_mark s _ _).length]
    constructor
    · rintro ((h | ⟨rfl, hlt, hp⟩) | ⟨hlt, hp, i, hi, rfl⟩)
      · exact .inl h
      · exact .inr ⟨hlt, hp, o, List.mem_cons_self, rfl⟩
      · exact .inr ⟨hlt, hp, i, List.mem_cons_of_mem _ hi, rfl⟩
    · rintro (h | ⟨hlt, hp, i, hi, rfl⟩)
      · exact .inl (.inl h)
      · rcases List.mem_cons.mp hi with rfl | hi
        · exact .inl (.inr ⟨rfl, hlt, hp⟩)
        · exact .inr ⟨hlt, hp, i, hi, rfl⟩

theorem has_markOutputs {n : Network α} {b : TracedBlock α} {s : Liveness} {c : Nat} {p : Phase} :
    ((s.markOutputs n b).of c).has p = true ↔ (s.of c).has p = true ∨
      (c < s.live.length ∧ PhaseSet.majors.has p = true ∧ ∃ o ∈ b.outputs, n.wires.netOf o = c) :=
  has_foldl_mark

theorem markOutputs_eq (n : Network α) (b : TracedBlock α) (s : Liveness) :
    (s.markOutputs n b).unseeded = s.unseeded ∧ (s.markOutputs n b).pending = s.pending ∧
      (s.markOutputs n b).live.length = s.live.length := by
  unfold markOutputs
  induction b.outputs generalizing s with
  | nil => exact ⟨rfl, rfl, rfl⟩
  | cons o outputs ih =>
    obtain ⟨h₁, h₂, h₃⟩ := ih (s.mark (n.wires.netOf o) .majors)
    exact ⟨h₁, h₂, h₃.trans (by simp [mark])⟩

theorem grows_markOutputs (n : Network α) (b : TracedBlock α) (s : Liveness) :
    Grows s (s.markOutputs n b) :=
  ⟨fun _ _ h => has_markOutputs.mpr (.inl h), fun _ h => (markOutputs_eq n b s).1 ▸ h,
    (markOutputs_eq n b s).2.2⟩

theorem has_ofOutputs {n : Network α} {b : TracedBlock α} {s : Liveness} {p : Phase} :
    (s.ofOutputs n b).has p = true ↔ ∃ o ∈ b.outputs, (s.of (n.wires.netOf o)).has p = true := by
  have hfold (outputs : List Nat) (ps : PhaseSet) :
      (outputs.foldl (fun ps i => ps.union (s.of (n.wires.netOf i))) ps).has p = true ↔
        ps.has p = true ∨ ∃ o ∈ outputs, (s.of (n.wires.netOf o)).has p = true := by
    induction outputs generalizing ps with
    | nil => simp
    | cons o outputs ih =>
      rw [List.foldl_cons, ih, PhaseSet.has_union, Bool.or_eq_true, List.exists_mem_cons_iff, or_assoc]
  rw [ofOutputs, hfold]
  simp [PhaseSet.not_has_empty]

/-- After a block was made a seed for some phases, none of them is left to be one for. -/
theorem not_unseeded_seed {s : Liveness} {k : Nat} {phases : PhaseSet} {p : Phase}
    (hp : phases.has p = true) : (k, p) ∉ (s.seed k phases).unseeded := by
  unfold seed
  simp only
  split
  · intro h
    have := (List.mem_filter.mp h).2
    simp [hp] at this
  · rename_i hnone
    intro h
    exact hnone (List.any_eq_true.mpr ⟨(k, p), h, by simp [hp]⟩)

/-- A seed that is new is pending. -/
theorem pending_seed {s : Liveness} {k : Nat} {phases : PhaseSet} {e : Nat × Phase}
    (h : e ∈ s.unseeded) (hn : e ∉ (s.seed k phases).unseeded) :
    e.1 = k ∧ phases.has e.2 = true ∧ (k, phases) ∈ (s.seed k phases).pending := by
  unfold seed at hn ⊢
  simp only at hn ⊢
  split at hn
  · rename_i hany
    rw [if_pos hany]
    have : ¬ (!(decide (e.1 = k) && phases.has e.2)) = true := fun hf =>
      hn (List.mem_filter.mpr ⟨h, hf⟩)
    simp only [Bool.not_eq_true', Bool.not_eq_false, Bool.and_eq_true, decide_eq_true_eq] at this
    exact ⟨this.1, this.2, by simp⟩
  · exact absurd h hn

theorem mem_pending_seed {s : Liveness} {k : Nat} {phases : PhaseSet} {e : Nat × PhaseSet}
    (h : e ∈ (s.seed k phases).pending) : e ∈ s.pending ∨ e = (k, phases) := by
  unfold seed at h
  simp only at h
  split at h
  · rcases List.mem_append.mp h with h | h
    · exact .inl h
    · exact .inr (List.mem_singleton.mp h)
  · exact .inl h

theorem pending_subset_seed {s : Liveness} {k : Nat} {phases : PhaseSet} {e : Nat × PhaseSet}
    (h : e ∈ s.pending) : e ∈ (s.seed k phases).pending := by
  unfold seed
  simp only
  split
  · exact List.mem_append_left _ h
  · exact h

theorem live_seed (s : Liveness) (k : Nat) (phases : PhaseSet) : (s.seed k phases).live = s.live := by
  unfold seed
  simp only
  split <;> rfl

theorem grows_seed (s : Liveness) (k : Nat) (phases : PhaseSet) : Grows s (s.seed k phases) := by
  refine ⟨fun net => ?_, fun e he => ?_, by rw [live_seed]⟩
  · rw [of, of, live_seed]
    exact .refl _
  · unfold seed at he
    simp only at he
    split at he
    · exact (List.mem_filter.mp he).1
    · exact he

end Liveness

end Transcription
