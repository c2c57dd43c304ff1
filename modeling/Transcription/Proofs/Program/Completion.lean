import Transcription.Proofs.Horizon.Variables
import Transcription.Proofs.Network.Demand
import Transcription.Proofs.Program.Assembly
import Transcription.Proofs.Program.Rows

namespace Transcription

variable {α : Type} [Scalar α]

namespace Network

theorem joins_withLiveness (n : Network α) (live : List PhaseSet) :
    (n.withLiveness live).joins = n.joins := by
  have hdelay : (n.withLiveness live).delayJoins = n.delayJoins := by
    funext slots steps b
    simp only [delayJoins, netOf_withLiveness]
    rfl
  have hblocking : (n.withLiveness live).blockingJoins = n.blockingJoins := by
    funext slots steps b
    simp only [blockingJoins, netOf_withLiveness]
  funext slots steps
  simp only [joins, hdelay, hblocking]
  rfl

theorem group_withLiveness_eq (n : Network α) (live : List PhaseSet) (net : Nat) :
    (n.withLiveness live).wires.group net =
      (n.wires.group net).map fun v => { v with phases := (live[v.net]?).getD {} } := by
  simp only [WireTable.group, withLiveness, List.filter_map]
  rfl

theorem head?_group_withLiveness (n : Network α) (live : List PhaseSet) {net : Nat} {w : Wire α}
    (h : ((n.withLiveness live).wires.group net).head? = some w) :
    ∃ v, (n.wires.group net).head? = some v ∧ v.lower = w.lower ∧ v.upper = w.upper ∧
      v.cost = w.cost := by
  rw [group_withLiveness_eq, List.head?_map] at h
  obtain ⟨v, hv, rfl⟩ := Option.map_eq_some_iff.mp h
  exact ⟨v, hv, rfl, rfl, rfl⟩

theorem weighs_withLiveness {n : Network α} {live : List PhaseSet} {steps : Nat} {g : Grid α}
    (h : (n.withLiveness live).Weighs steps g) : n.Weighs steps g := by
  refine { h with entered := fun e he => ?_ }
  obtain ⟨w, hw⟩ := h.entered e he
  obtain ⟨v, hv, hlower, hupper, hcost⟩ := head?_group_withLiveness n live hw.first
  exact ⟨v, hv, hlower ▸ hw.lower_eq, hupper ▸ hw.upper_eq, hcost ▸ hw.cost_eq⟩

structure Laid (n : Network α) (live : List PhaseSet) (steps stages : Nat) (g : Grid α) : Prop where
  netted : n.Netted
  count : live.length = n.wires.netCount
  expands : n.Expands live steps stages g
  weighs : n.Weighs steps g
  steps_pos : 1 ≤ steps

variable {n : Network α} {live : List PhaseSet} {steps stages : Nat} {g : Grid α}

theorem Netted.exists_laid (h : n.Netted) (minor : Bool) (h₁ : 1 ≤ steps) (stages : Nat) :
    ∃ g, n.Laid (n.liveness minor) steps stages g ∧
      ((n.withLiveness (n.liveness minor)).expand (n.liveness minor) steps stages).result = .ok g := by
  have hlength := Liveness.length_eq_netCount n minor
  obtain ⟨g, hg⟩ := exists_expand stages h₁ fun net hnet =>
    h.group_withLiveness (n.liveness minor) (hlength ▸ hnet)
  obtain ⟨hweighs, _⟩ := weighs_expand hg
  exact ⟨g, ⟨h, hlength, expands_withLiveness (expands hg), weighs_withLiveness hweighs, h₁⟩, hg⟩

structure Assembles (n : Network α) (g : Grid α) (tableau : Option (Tableau α)) (dt : α)
    (e : Equalities α) : Prop where
  proper : e.system.Proper
  width_eq : e.system.width = g.size
  increments : ∀ t, tableau = some t → g.stages ≠ 0 →
    ∀ b ∈ (n.blocks.ofKinds [.integrator]).map (·.2), ∀ r, n.IncrementRow g t dt b r →
      LinearRows.poly r ∈ e.system.polynomials

def stagesOf (tableau : Option (Tableau α)) : Nat := (tableau.map (·.stages)).getD 0

theorem Laid.exists_assembled (tableau : Option (Tableau α)) (dt : α)
    (h : n.Laid live steps (stagesOf tableau) g) :
    ∃ e, (n.equalities g tableau dt).result = .ok e ∧ n.Assembles g tableau dt e ∧
      (∀ x ∈ (n.noteIdle g).notes, x ∈ (n.equalities g tableau dt).notes) ∧
      ∀ t, tableau = some t → g.stages ≠ 0 →
        ∀ x ∈ (n.couplingRows g t dt).notes, x ∈ (n.equalities g tableau dt).notes := by
  obtain ⟨step, hstep, hwidth⟩ := h.netted.exists_stepSystem
  rw [← h.count, ← h.expands.live_eq] at hwidth
  have hidle (x : Diagnostic α) (hx : x ∈ (n.noteIdle g).notes) :=
    h.expands.notes_idle h.steps_pos hstep hwidth tableau dt hx
  rcases h.expands.stages_cases with hstages | ⟨t, rfl, hlast, hstages, _⟩
  · obtain ⟨e, he, _, _, hsystem⟩ :=
      h.expands.exists_equalities h.steps_pos hstep hwidth hstages tableau dt
    have hsize := majorCount_eq_size hstages
    have hproper : e.system.Proper := hsystem ▸ h.expands.proper_majorSystem step
    exact ⟨e, he, ⟨hproper, by rw [hsystem, ← hsize]; rfl, fun t _ hpos => absurd hstages hpos⟩, hidle,
      fun t _ hpos => absurd hstages hpos⟩
  · obtain ⟨rows, hrows, hcouples, hintegrator, _⟩ := exists_gathered n g t dt
    obtain ⟨e, linear, he, _, hproper, hlinear, hpoly, hsystem⟩ :=
      h.expands.exists_coupled h.steps_pos hstep hwidth hlast hstages hrows hcouples
    have hstacked : e.system.Proper := by
      rw [hsystem]
      exact .stacked (List.forall_mem_cons.mpr ⟨⟨h.expands.proper_sides step,
        (h.expands.width_sides hstages step).le⟩,
        List.forall_mem_singleton.mpr ⟨hproper, hlinear.le⟩⟩)
    refine ⟨e, he, ⟨hstacked, by rw [hsystem]; rfl, ?_⟩, hidle, ?_⟩
    · rintro _ ⟨rfl⟩ _ b hb r hr
      rw [hsystem, h.expands.polynomials_sides step hproper, hpoly]
      apply List.mem_append_right
      apply List.mem_append_right
      exact List.mem_map_of_mem (hintegrator b hb r (.inl hr))
    · rintro _ ⟨rfl⟩ _ x hx
      exact h.expands.notes_coupling h.steps_pos hstep hwidth hlast hstages dt hx

structure Builds (g : Grid α) (e : Equalities α) (p : Program α) : Prop where
  cost_eq : p.cost = Program.costRow g.cost
  inequalities_eq : p.inequalities = Program.boundRows g.lower g.upper
  equalities_eq : p.equalities = e.system
  lower_eq : p.lower = g.lower
  upper_eq : p.upper = g.upper

theorem Laid.exists_program (h : n.Laid live steps stages g) {m : Network α} {e : Equalities α}
    (he : e.system.width = g.size) : ∃ p, Program.build m g e.system = .ok p ∧ Builds g e p := by
  have hcost : (Program.costRow g.cost).width = g.size := by
    rw [Program.width_costRow, h.weighs.length_cost]
  have hbounds : (Program.boundRows g.lower g.upper).width = g.size := by
    rw [Program.width_boundRows, h.weighs.length_lower]
  have hcombined : System.combine g.size
      [Program.costRow g.cost, Program.boundRows g.lower g.upper, e.system] = .ok _ :=
    System.combine_eq (List.forall_mem_cons.mpr ⟨hcost.le, List.forall_mem_cons.mpr ⟨hbounds.le,
      List.forall_mem_singleton.mpr he.le⟩⟩)
  refine ⟨_, except_bind_eq_ok.mpr ⟨_, hcombined, rfl⟩, ⟨rfl, rfl, rfl, rfl, rfl⟩⟩

end Network

namespace Run

open Network

variable {d : Diagram} {hold : Hold} {steps count : Nat} {dt : α} {tableau : Option (Tableau α)}
  {n n₀ : Network α} {g : Grid α} {e : Equalities α} {p : Program α}

/-- Once all stages succeed, a run has what they come to, with the diagnostics of all of them. -/
theorem ofDiagram_eq (ht : (d.trace hold : Noted α (Network α)).result = .ok n₀)
    (hm : (mergeWires n₀).result = .ok (count, n))
    (hg : ((n.withLiveness (n.liveness tableau.isSome)).expand (n.liveness tableau.isSome) steps
      (stagesOf tableau)).result = .ok g)
    (he : ((n.withLiveness (n.liveness tableau.isSome)).equalities g tableau dt).result = .ok e)
    (hp : Program.build (n.withLiveness (n.liveness tableau.isSome)) g e.system = .ok p) :
    ofDiagram (.full steps dt hold tableau) d = {
      traced := some n₀, merged := some (count, n), live := some (n.liveness tableau.isSome)
      grid := some g, equalities := some e, program := some p
      diagnostics := (d.trace hold : Noted α (Network α)).notes ++ (mergeWires n₀).notes ++
        ((n.withLiveness (n.liveness tableau.isSome)).expand (n.liveness tableau.isSome) steps
          (stagesOf tableau)).notes ++
        ((n.withLiveness (n.liveness tableau.isSome)).equalities g tableau dt).notes } := by
  have hpropagate : propagate (.full steps dt hold tableau) n =
      ⟨[], .ok (tableau, n.liveness tableau.isSome)⟩ := rfl
  unfold stagesOf at hg ⊢
  unfold ofDiagram
  rw [step_ok ht rfl (by decide), step_ok hm rfl (by decide)]
  dsimp only
  rw [hpropagate, step_ok rfl rfl (by decide)]
  dsimp only [Option.getD_none]
  rw [step_ok hg rfl (by decide), step_ok he rfl (by decide)]
  unfold step
  simp only [hp, Noted.ofResult, List.append_nil, List.nil_append, if_true]

structure Completes (r : Run α) (n : Network α) (steps : Nat) (dt : α) (tableau : Option (Tableau α))
    (g : Grid α) (e : Equalities α) (p : Program α) : Prop where
  live_eq : r.live = some (n.liveness tableau.isSome)
  grid_eq : r.grid = some g
  equalities_eq : r.equalities = some e
  program_eq : r.program = some p
  expand_eq : ((n.withLiveness (n.liveness tableau.isSome)).expand (n.liveness tableau.isSome) steps
    (stagesOf tableau)).result = .ok g
  build_eq : Program.build (n.withLiveness (n.liveness tableau.isSome)) g e.system = .ok p
  laid : n.Laid (n.liveness tableau.isSome) steps (stagesOf tableau) g
  assembles : n.Assembles g tableau dt e
  builds : Builds g e p
  nets : ∀ net ∈ n.wires.nets, ∀ x ∈ (n.wires.noteEmpty n.diagram.path net).notes, x ∈ r.diagnostics
  delays : ∀ x ∈ (n.joins g.slots steps).notes, x ∈ r.diagnostics
  merges : ∀ i < g.majorCount, ∀ x ∈ (noteMerged g.majors i).notes, x ∈ r.diagnostics
  idle : ∀ x ∈ (n.noteIdle g).notes, x ∈ r.diagnostics
  couplings : ∀ t, tableau = some t → g.stages ≠ 0 →
    ∀ x ∈ (n.couplingRows g t dt).notes, x ∈ r.diagnostics

/-- Nets whose bounds exclude one another are noted when wires are merged. -/
theorem notes_mergeWires (hm : (mergeWires n₀).result = .ok (count, n)) {net : Nat}
    (hnet : net ∈ n.wires.nets) {x : Diagnostic α}
    (hx : x ∈ (n.wires.noteEmpty n.diagram.path net).notes) : x ∈ (mergeWires n₀).notes := by
  obtain ⟨⟨_, wires⟩, hw, hm⟩ := Noted.result_bind.mp hm
  cases hm
  apply Noted.mem_notes_bind
  unfold WireTable.canonicalize at hw ⊢
  obtain ⟨_, hclosed, hw⟩ := Noted.result_bind.mp hw
  obtain ⟨labels, hlabels, hw⟩ := Noted.result_bind.mp hw
  obtain ⟨_, _, hw⟩ := Noted.result_bind.mp hw
  cases hw
  apply Noted.mem_notes_next hclosed
  apply Noted.mem_notes_next hlabels
  apply Noted.mem_notes_bind
  refine Noted.mem_notes_forM (fun c _ => ?_) hnet hx
  unfold WireTable.noteEmpty
  split
  · rfl
  · dsimp only
    split <;> rfl

/-- Once its wires merge, a diagram has a program over every horizon. -/
theorem exists_completion
    (hmerged : (ofDiagram (.full steps dt hold tableau) d).merged = some (count, n))
    (h₁ : 1 ≤ steps) : ∃ g e p,
      (ofDiagram (.full steps dt hold tableau) d).Completes n steps dt tableau g e p := by
  obtain ⟨n₀, ht, hm⟩ := merged_eq_some hmerged
  obtain ⟨hnetted, _⟩ := netted_mergeWires (d := d.prepared) ht hm
  obtain ⟨g, hlaid, hg⟩ := hnetted.exists_laid tableau.isSome h₁ (stagesOf tableau)
  obtain ⟨e, he, hassembles, hidle, hcouplings⟩ := hlaid.exists_assembled tableau dt
  obtain ⟨p, hp, hbuilds⟩ := hlaid.exists_program
    (m := n.withLiveness (n.liveness tableau.isSome)) hassembles.width_eq
  have he' : ((n.withLiveness (n.liveness tableau.isSome)).equalities g tableau dt).result = .ok e := by
    rw [equalities_withLiveness, he]
  have hrun := ofDiagram_eq ht hm hg he' hp
  obtain ⟨_, hjoins, hvariables⟩ := weighs_expand hg
  rw [joins_withLiveness] at hjoins
  rw [equalities_withLiveness] at hrun
  have hmem (x : Diagnostic α) : x ∈ (ofDiagram (.full steps dt hold tableau) d).diagnostics ↔
      ((x ∈ (d.trace hold : Noted α (Network α)).notes ∨ x ∈ (mergeWires n₀).notes) ∨
        x ∈ ((n.withLiveness (n.liveness tableau.isSome)).expand (n.liveness tableau.isSome) steps
          (stagesOf tableau)).notes) ∨ x ∈ (n.equalities g tableau dt).notes := by
    rw [hrun]
    simp only [List.mem_append]
  refine ⟨g, e, p, ?_⟩
  exact {
    live_eq := by rw [hrun]
    grid_eq := by rw [hrun]
    equalities_eq := by rw [hrun]
    program_eq := by rw [hrun]
    expand_eq := hg
    build_eq := hp
    laid := hlaid
    assembles := hassembles
    builds := hbuilds
    nets := fun net hnet x hx =>
      (hmem x).mpr (.inl (.inl (.inr (notes_mergeWires hm hnet hx))))
    delays := fun x hx => (hmem x).mpr (.inl (.inr (hjoins x hx)))
    merges := fun i hi x hx => (hmem x).mpr (.inl (.inr (hvariables i hi x hx)))
    idle := fun x hx => (hmem x).mpr (.inr (hidle x hx))
    couplings := fun t ht hpos x hx => (hmem x).mpr (.inr (hcouplings t ht hpos x hx)) }

end Run

end Transcription
