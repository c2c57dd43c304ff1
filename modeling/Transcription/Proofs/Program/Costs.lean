import Transcription.Proofs.Program.Entries
import Transcription.Proofs.Program.Rows

namespace Transcription

def Grid.valueAt {α : Type} [Zero α] (g : Grid α) (z : List α) (slot : Nat × Nat) : α :=
  (g.reading z slot.1 slot.2).getD 0

namespace Network

section Units

variable {α : Type} [Scalar α] {n : Network α} {steps : Nat}

def units (n : Network α) (p : MajorPhase) (net : Nat) : Nat :=
  n.charges.countP fun c => n.wires.netOf c.wire = net && c.phases.hasMajor p

def duesOf (n : Network α) (steps : Nat) (c : Charge) : List (Nat × Nat) :=
  ((stepsFrom 1 steps).filter fun t : Nat => c.phases.meets (stepPhases t steps)).map fun t =>
    (t, n.wires.netOf c.wire)

def dues (n : Network α) (steps : Nat) : List (Nat × Nat) := n.charges.flatMap (n.duesOf steps)

theorem mem_duesOf {c : Charge} {slot : Nat × Nat} : slot ∈ n.duesOf steps c ↔
    slot.2 = n.wires.netOf c.wire ∧ 1 ≤ slot.1 ∧ slot.1 ≤ steps ∧
      c.phases.meets (stepPhases slot.1 steps) = true := by
  obtain ⟨t, net⟩ := slot
  simp only [duesOf, List.mem_map, List.mem_filter, mem_stepsFrom, Prod.mk.injEq]
  constructor
  · rintro ⟨t, ⟨⟨h₁, ht⟩, hp⟩, rfl, rfl⟩
    exact ⟨rfl, h₁, ht, hp⟩
  · rintro ⟨rfl, h₁, ht, hp⟩
    exact ⟨t, ⟨⟨h₁, ht⟩, hp⟩, rfl, rfl⟩

theorem nodup_duesOf (n : Network α) (steps : Nat) (c : Charge) : (n.duesOf steps c).Nodup := by
  have hsteps : (stepsFrom 1 steps).Nodup := List.nodup_range'
  exact (hsteps.filter _).map fun t u h => (Prod.mk.inj h).1

/-- A net falls due at a step as often as it has units in the phase of the step. -/
theorem count_dues {t net : Nat} (h₁ : 1 ≤ t) (ht : t ≤ steps) {p : MajorPhase}
    (hp : (stepPhases t steps).majorList = [p]) : (n.dues steps).count (t, net) = n.units p net := by
  unfold dues units
  induction n.charges with
  | nil => rfl
  | cons c cs ih =>
    have hc : (t, net) ∈ n.duesOf steps c ↔
        (n.wires.netOf c.wire = net && c.phases.hasMajor p) = true := by
      rw [mem_duesOf, meets_stepPhases, hp, Bool.and_eq_true, decide_eq_true_eq]
      simp only [List.mem_singleton, exists_eq_left, h₁, ht, true_and]
      exact and_congr_left' eq_comm
    rw [List.flatMap_cons, List.count_append, ih, List.countP_cons, (nodup_duesOf n steps c).count,
      Nat.add_comm]
    congr 1
    exact if_congr hc rfl rfl

end Units

section Totals

variable {α : Type} [LinearOrder α] [ExactScalar α] {n : Network α} {live : List PhaseSet}
  {steps stages : Nat} {g : Grid α}

/-- The cost of a variable is that of all its entries. -/
theorem Laid.cost_eq (h : n.Laid live steps stages g) :
    g.cost = (List.range g.size).map fun i => ((sharing g.majors i).map (·.cost)).sum := by
  apply List.ext_getElem?
  intro i
  rw [List.getElem?_map]
  by_cases hi : i < g.size
  · rw [List.getElem?_range hi, Option.map_some]
    by_cases hmajor : i < g.majorCount
    · rw [h.weighs.cost_eq i hmajor, Scalar.sum_eq]
    · have hnone : sharing g.majors i = [] := by
        refine List.filter_eq_nil_iff.mpr fun e he hindex => hmajor ?_
        rw [← of_decide_eq_true hindex]
        exact (h.expands.index?_major he).2
      rw [(h.weighs.free i (Nat.le_of_not_lt hmajor) hi).2.2, hnone]
      rfl
  · rw [List.getElem?_eq_none (by rw [h.weighs.length_cost]; exact Nat.le_of_not_lt hi),
      List.getElem?_eq_none (by simpa using hi)]
    rfl

/-- What variables cost is what entries do. -/
theorem Laid.sum_variables (h : n.Laid live steps stages g) (x : Nat → α) :
    (g.cost.zipIdx.map fun e => e.1 * x e.2).sum = (g.majors.map fun e => e.cost * x e.index).sum := by
  have hcolumns : (g.cost.zipIdx.map fun e => e.1 * x e.2) = (List.range g.size).map fun i =>
      ((g.majors.filter fun e => e.index = i).map fun e => e.cost * x e.index).sum := by
    rw [h.cost_eq]
    refine List.ext_getElem (by simp) fun i _ _ => ?_
    simp only [List.getElem_map, List.getElem_zipIdx, List.getElem_range, Nat.zero_add,
      ← List.sum_map_mul_right]
    refine congrArg List.sum (List.map_congr_left fun e he => ?_)
    rw [of_decide_eq_true (List.mem_filter.mp he).2]
  rw [hcolumns]
  refine sum_places_of_mem (fun e : Entry α => e.index) _ List.nodup_range fun e he => ?_
  exact List.mem_range.mpr
    (Nat.lt_of_lt_of_le (h.expands.index?_major he).2 (Nat.le_add_right _ _))

/-- What a net costs at a step: the units in its phase, or the more of two at a lone step. -/
theorem Entered.cost_units {e : Entry α} {w : Wire α} (h : n.Entered steps e w) (hn : n.NetsBurdened) :
    e.cost = largest ((stepPhases e.step steps).majorList.map fun p => (n.units p e.net : α)) := by
  rw [h.cost_eq]
  exact congrArg largest (List.map_congr_left fun p _ => hn.cost_eq e.net w h.first p)

theorem Laid.sum_entries (h : n.Laid live steps stages g) (hn : n.NetsBurdened) {z : List α}
    (hz : z.length = g.size) : (g.majors.map fun e => e.cost * System.point z e.index).sum =
      ((liveSlots live steps).map fun s => largest ((stepPhases s.1 steps).majorList.map fun p =>
        (n.units p s.2 : α)) * g.valueAt z s).sum := by
  rw [← h.expands.slots_eq, ← h.expands.entries_eq, List.map_map]
  refine congrArg List.sum (List.map_congr_left fun e he => ?_)
  obtain ⟨w, hw⟩ := h.weighs.entered e he
  rw [Function.comp_apply, hw.cost_units hn, Grid.valueAt, h.expands.reading_major hz he]
  rfl

theorem maxOf_natCast (a b : Nat) : Scalar.maxOf (a : α) (b : α) = ((max a b : Nat) : α) := by
  have hlt : Scalar.lt (a : α) (b : α) = true ↔ a < b := (Scalar.lt_iff _ _).trans Nat.cast_lt
  by_cases h : a < b
  · rw [Scalar.maxOf, if_pos (hlt.mpr h), max_eq_right h.le]
  · rw [Scalar.maxOf, if_neg (mt hlt.mp h), max_eq_left (Nat.le_of_not_lt h)]

/-- The cost of a lone step. -/
theorem sum_lone (live : List PhaseSet) (v : Nat × Nat → α) :
    ((liveSlots live 1).map fun s => largest ((stepPhases s.1 (1 : Nat)).majorList.map fun p =>
      (n.units p s.2 : α)) * v s).sum =
        ((liveSlots live 1).map fun s =>
          ((max (n.units .initial s.2) (n.units .final s.2) : Nat) : α) * v s).sum := by
  refine congrArg List.sum (List.map_congr_left fun s _ => ?_)
  obtain ⟨_, hphases⟩ | ⟨hne, _⟩ := majorList_stepPhases s.1 (1 : Nat)
  · rw [hphases]
    congr 1
    exact maxOf_natCast _ _
  · exact absurd rfl hne

/-- The cost over several steps is what falls due. -/
theorem sum_dues (h₂ : 2 ≤ steps) (hdues : ∀ s ∈ n.dues steps, s ∈ liveSlots live steps)
    (v : Nat × Nat → α) :
    ((liveSlots live steps).map fun s => largest ((stepPhases s.1 steps).majorList.map fun p =>
      (n.units p s.2 : α)) * v s).sum = ((n.dues steps).map v).sum := by
  rw [← sum_places_of_mem id v (nodup_liveSlots live steps) hdues]
  refine congrArg List.sum (List.map_congr_left fun s hs => ?_)
  obtain ⟨h₁, ht, _⟩ := mem_liveSlots.mp hs
  obtain ⟨hone, _⟩ | ⟨_, p, hphases⟩ := majorList_stepPhases s.1 steps
  · omega
  · have hcount : ((n.dues steps).filter fun e => id e = s) =
        List.replicate (n.units p s.2) s := by
      rw [← count_dues h₁ ht hphases]
      exact List.filter_eq s
    rw [hphases, hcount, List.map_replicate, List.sum_replicate, nsmul_eq_mul]
    rfl

/-- Charges fall due where their nets are live. -/
theorem Laid.dues_live {minor : Bool} (h : n.Laid (n.liveness minor) steps stages g) :
    ∀ s ∈ n.dues steps, s ∈ liveSlots (n.liveness minor) steps := by
  intro s hs
  obtain ⟨c, hc, hs⟩ := List.mem_flatMap.mp hs
  obtain ⟨k, b, hb, hkind, i, hi, rfl⟩ := mem_charges.mp hc
  obtain ⟨hnet, h₁, ht, hmeets⟩ := mem_duesOf.mp hs
  obtain ⟨t, net⟩ := s
  subst hnet
  exact mem_liveSlots.mpr (h.liveAt_sink hb (by rw [hkind]; rfl) hi h₁ ht hmeets)

/-- What all charges of a network come to at a point. Over several steps every charge is paid where it
falls due; at a lone step a net is paid for as often as it has units in the first or the last phase,
whichever is more. -/
structure TotalCost (n : Network α) (live : List PhaseSet) (g : Grid α) (steps : Nat) (z : List α)
    (total : α) : Prop where
  several : 2 ≤ steps → total = ((n.dues steps).map (g.valueAt z)).sum
  lone : steps = 1 → total = ((liveSlots live 1).map fun s =>
    ((max (n.units .initial s.2) (n.units .final s.2) : Nat) : α) * g.valueAt z s).sum

/-- The cost row leaves nothing without variables, and the total otherwise. -/
theorem Laid.residual_cost {minor : Bool} (h : n.Laid (n.liveness minor) steps stages g)
    (hn : n.NetsBurdened) {eqs : Equalities α} {p : Program α} (hp : Builds g eqs p) {z : List α}
    (hz : z.length = g.size) : ∃ total, n.TotalCost (n.liveness minor) g steps z total ∧
      p.cost.residual z = .ok (if g.size = 0 then [] else [total]) := by
  have hwidth : p.cost.width = g.size := by
    rw [hp.cost_eq, Program.width_costRow, h.weighs.length_cost]
  have hnil : g.cost = [] ↔ g.size = 0 := by
    rw [← h.weighs.length_cost, List.length_eq_zero_iff]
  have hresidual := residual_of_proper (hz.trans hwidth.symm)
  rw [hp.cost_eq, Program.residualAt_costRow, if_congr hnil rfl rfl, h.sum_variables,
    h.sum_entries hn hz, ← hp.cost_eq] at hresidual
  refine ⟨_, ⟨fun h₂ => sum_dues h₂ h.dues_live _, ?_⟩, hresidual⟩
  rintro rfl
  exact sum_lone _ _

end Totals

end Network

/-- The cost of a run means exactly what the costs of its diagram declare. -/
theorem Run.costs_exact {α : Type} [LinearOrder α] [ExactScalar α] {d : Diagram} {hold : Hold}
    {steps count : Nat} {dt : α} {tableau : Option (Tableau α)} {n : Network α}
    (hmerged : (ofDiagram (.full steps dt hold tableau) d).merged = some (count, n))
    (h₁ : 1 ≤ steps) : ∃ g p,
      (ofDiagram (.full steps dt hold tableau) d).grid = some g ∧
      (ofDiagram (.full steps dt hold tableau) d).program = some p ∧
      n.diagram = d.prepared ∧ n.Represents .cost Diagram.costReference ∧
      (∀ s ∈ n.dues steps, s ∈ liveSlots (n.liveness tableau.isSome) steps) ∧
      ∀ z : List α, z.length = g.size →
        (∀ s ∈ liveSlots (n.liveness tableau.isSome) steps, (g.reading z s.1 s.2).isSome = true) ∧
        ∃ total, n.TotalCost (n.liveness tableau.isSome) g steps z total ∧
          p.cost.residual z = .ok (if g.size = 0 then [] else [total]) := by
  obtain ⟨g, e, p, hrun⟩ := exists_completion hmerged h₁
  obtain ⟨hdiagram, hlinked, hsinks, hnets⟩ := burdens_merged hmerged
  refine ⟨g, p, hrun.grid_eq, hrun.program_eq, hdiagram, hsinks.represents hlinked rfl,
    hrun.laid.dues_live, fun z hz => ⟨fun s hs => ?_, hrun.laid.residual_cost hnets hrun.builds hz⟩⟩
  have hmajor : g.majorCount ≤ z.length := hz ▸ Nat.le_add_right _ _
  exact (hrun.laid.expands.isSome_reading hmajor s.1 s.2).mpr (mem_liveSlots.mp hs)

/-- The reservoir over four steps, with stages: its balance costs at the last one only. -/
theorem Run.costs_exact_reservoir :
    (ofDiagram (.full 4 (1 / 2 : ℚ) .firstOrder (some .trapez)) Reservoir.diagram).merged =
      some (4, Reservoir.network) ∧ 1 ≤ 4 ∧ Reservoir.network.dues 4 = [(4, 0)] ∧
    ∃ (g : Grid ℚ) (p : Program ℚ),
      (ofDiagram (.full 4 (1 / 2 : ℚ) .firstOrder (some .trapez)) Reservoir.diagram).grid = some g ∧
      (ofDiagram (.full 4 (1 / 2 : ℚ) .firstOrder (some .trapez)) Reservoir.diagram).program =
        some p ∧
      Reservoir.network.diagram = Reservoir.diagram.prepared ∧
      Reservoir.network.Represents .cost Diagram.costReference ∧
      (∀ s ∈ Reservoir.network.dues 4, s ∈ liveSlots (Reservoir.network.liveness true) 4) ∧
      ∀ z : List ℚ, z.length = g.size →
        (∀ s ∈ liveSlots (Reservoir.network.liveness true) 4, (g.reading z s.1 s.2).isSome = true) ∧
        ∃ total, Reservoir.network.TotalCost (Reservoir.network.liveness true) g 4 z total ∧
          p.cost.residual z = .ok (if g.size = 0 then [] else [total]) :=
  have hmerged := Reservoir.merged_diagram 4 (1 / 2) (some .trapez)
  ⟨hmerged, by decide, rfl, costs_exact hmerged (by decide)⟩

end Transcription
