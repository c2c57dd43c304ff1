import Transcription.Proofs.Network.Closure

namespace Transcription.Liveness

open Network

variable {α : Type} [Scalar α] {n : Network α} {minor : Bool}

structure Extends (s t : Liveness) : Prop where
  grows : Grows s t
  kept : ∀ e ∈ s.pending, e ∈ t.pending

theorem Extends.refl (s : Liveness) : Extends s s := ⟨.refl s, fun _ he => he⟩

theorem Extends.trans {s t u : Liveness} (h : Extends s t) (k : Extends t u) : Extends s u :=
  ⟨h.grows.trans k.grows, fun e he => k.kept e (h.kept e he)⟩

theorem extends_mark (s : Liveness) (net : Nat) (phases : PhaseSet) :
    Extends s (s.mark net phases) := ⟨grows_mark s net phases, fun _ he => he⟩

theorem extends_markOutputs (n : Network α) (b : TracedBlock α) (s : Liveness) :
    Extends s (s.markOutputs n b) :=
  ⟨grows_markOutputs n b s, fun _ he => (markOutputs_eq n b s).2.1 ▸ he⟩

theorem extends_seed (s : Liveness) (k : Nat) (phases : PhaseSet) : Extends s (s.seed k phases) :=
  ⟨grows_seed s k phases, fun _ he => pending_subset_seed he⟩

theorem extends_reachState (n : Network α) (minor : Bool) (phases : PhaseSet) (k : Nat)
    (b : TracedBlock α) (s : Liveness) : Extends s (s.reachState n minor phases k b) := by
  have hmarked := extends_markOutputs n b s
  unfold reachState
  split
  · cases minor with
    | false => exact hmarked
    | true => exact hmarked.trans (extends_seed _ _ _)
  · have hreseed (t : Liveness) (ht : Extends s t) :
        Extends s (if (t.ofOutputs n b).meets later then t.seed k earlier else t) := by
      split
      · exact ht.trans (extends_seed _ _ _)
      · exact ht
    apply hreseed
    split
    · exact hmarked
    · exact .refl s

section Sweeps

variable {phases : PhaseSet}

theorem Sweep.extends_foldl {f : Sweep → Nat → Sweep} (h : ∀ w i, Extends w.found (f w i).found)
    (is : List Nat) (w : Sweep) : Extends w.found (is.foldl f w).found := by
  induction is generalizing w with
  | nil => exact .refl _
  | cons i is ih => exact (h w i).trans (ih (f w i))

theorem Sweep.extends_visitProducer (w : Sweep) (k : Nat) :
    Extends w.found (w.visitProducer n minor phases k).found := by
  unfold visitProducer
  split
  · split
    · exact .refl _
    · split
      · exact .refl _
      · split
        · exact extends_reachState n minor phases k _ _
        · exact .refl _
  · exact .refl _

theorem Sweep.extends_visitInput (w : Sweep) (i : Nat) :
    Extends w.found (w.visitInput n minor phases i).found :=
  (extends_mark w.found (n.wires.netOf i) phases).trans
    (extends_foldl extends_visitProducer _ ⟨w.frontier, w.found.mark (n.wires.netOf i) phases⟩)

theorem Sweep.extends_visit (w : Sweep) (k : Nat) :
    Extends w.found (w.visit n minor phases k).found := extends_foldl extends_visitInput _ w

theorem Sweep.extends_run (n : Network α) (minor : Bool) (phases : PhaseSet) (w : Sweep) :
    Extends w.found (w.run n minor phases) := by
  fun_induction Sweep.run n minor phases w with
  | case1 w hq => exact .refl _
  | case2 w k rest hq ih =>
    exact Extends.trans (extends_visit { w with frontier := { w.frontier with queue := rest } } k) ih

/-- Passing wires marks their nets. -/
theorem Sweep.marks_visitInputs {is : List Nat} {w : Sweep}
    (h : ∀ i ∈ is, n.wires.netOf i < w.found.live.length) :
    ∀ i ∈ is, phases.Sub
      ((is.foldl (Sweep.visitInput n minor phases) w).found.of (n.wires.netOf i)) := by
  induction is generalizing w with
  | nil => exact fun _ hi => nomatch hi
  | cons i is ih =>
    obtain ⟨hi, his⟩ := List.forall_mem_cons.mp h
    have hvisit : Extends w.found (w.visitInput n minor phases i).found := extends_visitInput w i
    have hmark : phases.Sub ((w.found.mark (n.wires.netOf i) phases).of (n.wires.netOf i)) :=
      fun p hp => has_mark.mpr (.inr ⟨rfl, hi, hp⟩)
    have hhead : Extends (w.found.mark (n.wires.netOf i) phases)
        (w.visitInput n minor phases i).found :=
      extends_foldl extends_visitProducer _ ⟨w.frontier, w.found.mark (n.wires.netOf i) phases⟩
    have hstep (v : Sweep) (j : Nat) : Extends v.found (v.visitInput n minor phases j).found :=
      extends_visitInput v j
    have hrest := extends_foldl hstep is (w.visitInput n minor phases i)
    refine List.forall_mem_cons.mpr ⟨?_, ih fun j hj => hvisit.grows.length.symm ▸ his j hj⟩
    exact (hmark.trans (hhead.grows.live _)).trans (hrest.grows.live _)

theorem extends_sweep (n : Network α) (minor : Bool) (k : Nat) (phases : PhaseSet) (s : Liveness) :
    Extends s (s.sweep n minor k phases) :=
  Sweep.extends_run n minor phases ⟨⟨(List.range n.blocks.size).erase k, [k]⟩, s⟩

/-- A sweep passes the inputs of the block that it starts from. -/
theorem marks_sweep {s : Liveness} {k : Nat} {b : TracedBlock α} (hb : n.block? k = some b)
    (h : ∀ i ∈ b.inputs, n.wires.netOf i < s.live.length) :
    ∀ i ∈ b.inputs, phases.Sub ((s.sweep n minor k phases).of (n.wires.netOf i)) := by
  let w : Sweep := ⟨⟨(List.range n.blocks.size).erase k, []⟩, s⟩
  have hsweep : s.sweep n minor k phases = (w.visit n minor phases k).run n minor phases := by
    rw [sweep, Sweep.run]
  have hvisit : w.visit n minor phases k = b.inputs.foldl (Sweep.visitInput n minor phases) w := by
    rw [Sweep.visit, hb]
    rfl
  have hrun := Sweep.extends_run n minor phases (w.visit n minor phases k)
  intro i hi
  rw [hsweep]
  apply PhaseSet.Sub.trans ?_ (hrun.grows.live _)
  rw [hvisit]
  exact Sweep.marks_visitInputs (w := w) h i hi

end Sweeps

def Owed (n : Network α) (s : Liveness) (k : Nat) (b : TracedBlock α) (p : Phase) : Prop :=
  (∀ i ∈ b.inputs, (s.of (n.wires.netOf i)).has p = true) ∨
    ∃ phases, (k, phases) ∈ s.pending ∧ phases.has p = true

theorem extends_exhaust (n : Network α) (minor : Bool) (s : Liveness) :
    Grows s (s.exhaust n minor) := by
  fun_induction Liveness.exhaust n minor s with
  | case1 s hp => exact .refl s
  | case2 s k phases rest hp ih =>
    have hsweep := extends_sweep n minor k phases { s with pending := rest }
    exact Grows.trans ⟨hsweep.grows.live, hsweep.grows.unseeded, hsweep.grows.length⟩ ih

/-- Sweeping from every seed leaves no input of a seed without its phases. -/
theorem Owed.exhaust {s : Liveness} {k : Nat} {b : TracedBlock α} {p : Phase}
    (hb : n.block? k = some b) (hin : ∀ i ∈ b.inputs, n.wires.netOf i < s.live.length)
    (h : Owed n s k b p) : ∀ i ∈ b.inputs, ((s.exhaust n minor).of (n.wires.netOf i)).has p = true := by
  fun_induction Liveness.exhaust n minor s with
  | case1 s hp =>
    obtain h | ⟨phases, hm, _⟩ := h
    · exact h
    · rw [hp] at hm
      cases hm
  | case2 s j phases rest hp ih =>
    have hsweep := extends_sweep n minor j phases { s with pending := rest }
    apply ih
    · intro i hi
      rw [hsweep.grows.length]
      exact hin i hi
    · obtain h | ⟨ps, hm, hps⟩ := h
      · exact .inl fun i hi => hsweep.grows.live _ p (h i hi)
      · rw [hp] at hm
        cases List.mem_cons.mp hm with
        | inl he =>
          cases he
          exact .inl fun i hi => marks_sweep (s := { s with pending := rest }) hb hin i hi p hps
        | inr hm => exact .inr ⟨ps, hsweep.kept _ hm, hps⟩

/-- There is a set of phases for every net, however many blocks it leaves. -/
theorem length_eq_netCount (n : Network α) (minor : Bool) :
    (n.liveness minor).length = n.wires.netCount := by
  have hstart := (stable_seedSinks n minor).length
  rw [← hstart, ← (extends_exhaust n minor _).length]
  simp [liveness, anchor]

/-- The nets that lead into a sink are live in all phases that the sink applies to. -/
theorem live_sink {k : Nat} {b : TracedBlock α} (hb : n.block? k = some b)
    (hin : ∀ i ∈ b.inputs, n.wires.netOf i < n.wires.netCount) (hk : b.kind.isSink = true)
    {i : Nat} (hi : i ∈ b.inputs) :
    b.sinkPhases.Sub (((n.liveness minor)[n.wires.netOf i]?).getD {}) := by
  intro p hp
  have hs := stable_seedSinks n minor
  have howed : Owed n ((start n).seedSinks n) k b p := hs.seeds k b hb p (hs.sinks k b hb hk p hp)
  have hlive : ((((start n).seedSinks n).exhaust n minor).of (n.wires.netOf i)).has p = true :=
    howed.exhaust hb (fun i hi => hs.length.symm ▸ hin i hi) i hi
  exact has_anchor.mpr (.inl hlive)

end Transcription.Liveness
