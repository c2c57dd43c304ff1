import Transcription.Proofs.Poly.Moves
import Transcription.Proofs.Program.Covering

namespace Transcription

namespace Determined

variable {steps intervals stages : Nat} {nets : List Nat}

def eachStep (steps : Nat) (nets : Nat → List Nat) : List Determined :=
  (stepsFrom 1 steps).flatMap fun t => (nets t).map (.atStep t)

def eachCopy (intervals stages : Nat) (nets : List Nat) : List Determined :=
  (List.range (intervals * stages)).flatMap fun i =>
    nets.map (.atStage (i / stages + 1) (i % stages + 1))

theorem length_eachCopy (intervals stages : Nat) (nets : List Nat) :
    (eachCopy intervals stages nets).length = intervals * stages * nets.length := by
  simp [eachCopy, List.length_flatMap]

theorem mem_eachStep {nets : Nat → List Nat} {v : Determined} : v ∈ eachStep steps nets ↔
    ∃ t net, v = .atStep t net ∧ (1 ≤ t ∧ t ≤ steps) ∧ net ∈ nets t := by
  simp only [eachStep, List.mem_flatMap, List.mem_map, mem_stepsFrom]
  constructor
  · rintro ⟨t, ht, net, hnet, rfl⟩
    exact ⟨t, net, rfl, ht, hnet⟩
  · rintro ⟨t, net, rfl, ht, hnet⟩
    exact ⟨t, ht, net, hnet, rfl⟩

theorem nodup_eachStep {nets : Nat → List Nat} (h : ∀ t, (nets t).Nodup) :
    (eachStep steps nets).Nodup := by
  refine List.nodup_flatMap.mpr ⟨fun t _ => (h t).map fun _ _ he => (Determined.atStep.inj he).2, ?_⟩
  refine (nodup_stepsFrom 1 steps).imp fun {t u} hne v hv hv' => hne ?_
  obtain ⟨net, _, rfl⟩ := List.mem_map.mp hv
  obtain ⟨net', _, heq⟩ := List.mem_map.mp hv'
  exact (Determined.atStep.inj heq).1.symm

theorem mem_eachCopy {v : Determined} : v ∈ eachCopy intervals stages nets ↔
    v ∈ atStages intervals stages nets := by
  simp only [eachCopy, mem_atStages, List.mem_flatMap, List.mem_map, List.mem_range]
  constructor
  · rintro ⟨i, hi, net, hnet, rfl⟩
    have hpos : 0 < stages := Nat.pos_of_mul_pos_left (Nat.zero_lt_of_lt hi)
    have hk : i / stages < intervals := Nat.div_lt_of_lt_mul (by rwa [Nat.mul_comm])
    have hs := Nat.mod_lt i hpos
    exact ⟨_, _, net, rfl, ⟨Nat.le_add_left 1 _, hk⟩, ⟨Nat.le_add_left 1 _, hs⟩, hnet⟩
  · rintro ⟨k, s, net, rfl, hk, hs, hnet⟩
    have hlt : s - 1 < stages := by omega
    have hdiv : ((k - 1) * stages + (s - 1)) / stages = k - 1 := by
      rw [Nat.add_comm, Nat.add_mul_div_right _ _ (Nat.zero_lt_of_lt hlt), Nat.div_eq_of_lt hlt,
        Nat.zero_add]
    have hmod : ((k - 1) * stages + (s - 1)) % stages = s - 1 := by
      rw [Nat.add_comm, Nat.add_mul_mod_self_right, Nat.mod_eq_of_lt hlt]
    refine ⟨(k - 1) * stages + (s - 1), Network.add_mul_lt (by omega) hlt, net, hnet, ?_⟩
    rw [hdiv, hmod, Nat.sub_add_cancel hk.1, Nat.sub_add_cancel hs.1]

/-- Stage by stage there are the same variables as net by net. -/
theorem perm_eachCopy (intervals stages : Nat) (h : nets.Nodup) :
    (eachCopy intervals stages nets).Perm (atStages intervals stages nets) := by
  refine (List.perm_ext_iff_of_nodup ?_ (nodup_atStages h)).mpr fun v => mem_eachCopy
  refine List.nodup_flatMap.mpr ⟨fun i _ => h.map fun _ _ he => (Determined.atStage.inj he).2.2, ?_⟩
  refine List.nodup_range.imp fun {i j} hne v hv hv' => hne ?_
  obtain ⟨net, _, rfl⟩ := List.mem_map.mp hv
  obtain ⟨net', _, heq⟩ := List.mem_map.mp hv'
  obtain ⟨hdiv, hmod, _⟩ := Determined.atStage.inj heq
  rw [← Nat.div_add_mod' i stages, ← Nat.div_add_mod' j stages, Nat.succ.inj hdiv, Nat.succ.inj hmod]

end Determined

namespace Network

variable {α : Type} [LinearOrder α] [ExactScalar α] {n : Network α}

section Outputs

variable {step : System α} {keep : List Bool}

/-- The equations that are kept are those of the outputs that are kept. -/
theorem forall₂_keptOutlets (h : n.Wired) (hstep : n.stepSystem = .ok step)
    (hk : n.KeepsInputs keep) :
    List.Forall₂ (fun o r => o ∈ n.keptOutlets keep ∧ n.PolyOf o (step.terms r)) (n.keptOutlets keep)
      (System.keptEquations step keep) := by
  obtain ⟨step', hstep', _, _, hlisted⟩ := polynomials_stepSystem h
  obtain rfl := Except.ok.inj (hstep'.symm.trans hstep)
  rw [System.polynomials, List.forall₂_map_right_iff] at hlisted
  refine (List.forall₂_and_left _ _).mpr ⟨fun o ho => ho, ?_⟩
  refine (System.forall₂_keptEquations ((List.forall₂_and_left n.outlets _).mpr
    ⟨fun o ho => ho, hlisted⟩) ?_).imp fun _ _ => And.right
  rintro o r ⟨ho, E, q, hE, hq, hpoly⟩
  obtain ⟨⟨k, hb⟩, hprimitive, hout⟩ := mem_outlets.mp ho
  obtain ⟨hp, hin, _⟩ := h.fits hb hprimitive hE
  rw [← hpoly]
  exact over_outputPoly hp hin hq hout (hk k o.block hb hprimitive o.wire (List.mem_of_getElem? hout))

structure MovedOutlet (n : Network α) (keep : List Bool) (ρ : Nat → Nat) (o : Outlet α) (p : Poly α) :
    Prop where
  output : o ∈ n.outlets
  kept : System.Kept keep (n.wires.netOf o.wire)
  moved : ∃ q, n.PolyOf o q ∧ q.Moves (System.Kept keep) ρ p

/-- The polynomials of what is kept are those of the outputs that are kept. -/
theorem forall₂_trimmed (h : n.Wired) (hstep : n.stepSystem = .ok step) (hk : n.KeepsInputs keep) :
    List.Forall₂ (n.MovedOutlet keep fun c => (keep.take c).count true) (n.keptOutlets keep)
      (step.trimmed keep).polynomials := by
  obtain ⟨step', hstep', hproper, _⟩ := stepSystem_eq h
  obtain rfl := Except.ok.inj (hstep'.symm.trans hstep)
  refine (forall₂_comp (forall₂_keptOutlets h hstep hk)
    (System.forall₂_polynomials_trimmed hproper keep)).imp ?_
  rintro o p ⟨r, ⟨ho, hpoly⟩, hmoves⟩
  obtain ⟨hmem, hkeep⟩ := List.mem_filter.mp ho
  exact ⟨hmem, hkeep, _, hpoly, hmoves⟩

variable {ρ : Nat → Nat} {o : Outlet α} {p : Poly α}

theorem MovedOutlet.map {σ : Nat → Nat} {q : Poly α} (h : n.MovedOutlet keep ρ o p)
    (hq : ∀ r : Poly α, r.Moves (System.Kept keep) ρ p → r.Moves (System.Kept keep) σ q) :
    n.MovedOutlet keep σ o q :=
  ⟨h.output, h.kept, h.moved.imp fun _ hr => ⟨hr.1, hq _ hr.2⟩⟩

/-- The net of the output stands by itself. -/
theorem MovedOutlet.single (h : n.MovedOutlet keep ρ o p) (hw : n.Wired) :
    (-1, [(ρ (n.wires.netOf o.wire), 1)]) ∈ p := by
  obtain ⟨q, ⟨E, r, hE, hr, rfl⟩, hmoves⟩ := h.moved
  obtain ⟨⟨k, hb⟩, hk, hout⟩ := mem_outlets.mp h.output
  obtain ⟨_, hin, _⟩ := hw.fits hb hk hE
  exact hmoves.single _ _ (neg_ne_zero.mpr one_ne_zero) h.kept (mem_outputPoly hin hout)

/-- Where the nets have their values, the polynomial is the row of the output. -/
theorem MovedOutlet.outputRow (h : n.MovedOutlet keep ρ o p) (hw : n.Wired) (hk : n.KeepsInputs keep)
    {v : Nat → Option α} {y : Nat → α} (hv : ∀ c, System.Kept keep c → v c = some (y (ρ c)))
    (hr : n.RegularAt o.block o.place v) : n.OutputRow o.block o.place v (p.valueAt y) := by
  obtain ⟨q, ⟨E, r, hE, hpoly, rfl⟩, hmoves⟩ := h.moved
  obtain ⟨⟨k, hb⟩, hprimitive, hout⟩ := mem_outlets.mp h.output
  have hsome (c : Nat) (hc : System.Kept keep c) : (v c).isSome = true :=
    Option.isSome_of_eq_some (hv c hc)
  obtain ⟨hregular, hrow⟩ := outputRow_of_regular hw hb hprimitive hE hpoly hout
    (fun i hi => hsome _ (hk k o.block hb hprimitive o.wire (List.mem_of_getElem? hout) h.kept i hi))
    (hsome _ h.kept) hr
  obtain ⟨_, hvalue⟩ := hmoves.value _ y (fun c hc => by rw [hv c hc, Option.getD_some]) hregular
  rw [hvalue]
  exact hrow

end Outputs

/-- The value of the row that determines a net, at the values that a point gives: the net taken away
from what the diagram or the tableau makes of the others. -/
inductive RowAt (n : Network α) (g : Grid α) (tableau : Option (Tableau α)) (dt : α) (z : List α) :
    Determined → α → Prop
  | step {k j o i : Nat} {b : TracedBlock α} {a : α} (hb : n.block? k = some b)
      (hk : b.kind = .primitive) (ho : b.outputs[j]? = some o)
      (hr : n.OutputRow b j (g.reading z i) a) : RowAt n g tableau dt z (.atStep i (n.wires.netOf o)) a
  | computed {k j o i s : Nat} {b : TracedBlock α} {a : α} (hb : n.block? k = some b)
      (hk : b.kind = .primitive) (ho : b.outputs[j]? = some o)
      (hr : n.OutputRow b j (g.stageReading z i s) a) :
      RowAt n g tableau dt z (.atStage i s (n.wires.netOf o)) a
  | integrated {k o f i s : Nat} {b : TracedBlock α} {t : Tableau α} {x w : α} {fs : List α}
      (ht : tableau = some t) (hi : n.Integrates k b o f)
      (hx : g.reading z i (n.wires.netOf o) = some x)
      (hfs : stageValues g.stages (g.stageReading z) i (n.wires.netOf f) = some fs)
      (hw : g.stageReading z i s (n.wires.netOf o) = some w) :
      RowAt n g tableau dt z (.atStage i s (n.wires.netOf o))
        (advance dt (t.coupling.getD (s - 1) []) x fs - w)
  | firstOrder {k o i s : Nat} {b : TracedBlock α} {t : Tableau α} {u v w : α}
      (ht : tableau = some t) (hb : n.block? k = some b) (hk : b.kind.isBoundary = true)
      (hhold : b.hold = some .firstOrder) (ho : o ∈ b.outputs)
      (hu : g.reading z i (n.wires.netOf o) = some u)
      (hv : g.reading z (i + 1) (n.wires.netOf o) = some v)
      (hw : g.stageReading z i s (n.wires.netOf o) = some w) :
      RowAt n g tableau dt z (.atStage i s (n.wires.netOf o))
        ((1 - t.times.getD (s - 1) 0) * u + t.times.getD (s - 1) 0 * v - w)
  | zeroOrder {k o i s : Nat} {b : TracedBlock α} {u w : α} (hb : n.block? k = some b)
      (hk : b.kind = .delay ∨ b.kind.isBoundary = true ∧ b.hold ≠ some .firstOrder)
      (ho : o ∈ b.outputs) (hu : g.reading z i (n.wires.netOf o) = some u)
      (hw : g.stageReading z i s (n.wires.netOf o) = some w) :
      RowAt n g tableau dt z (.atStage i s (n.wires.netOf o)) (u - w)
  | increment {k o f i : Nat} {b : TracedBlock α} {t : Tableau α} {x w : α} {fs : List α}
      (ht : tableau = some t) (hi : n.Integrates k b o f)
      (hx : g.reading z i (n.wires.netOf o) = some x)
      (hfs : stageValues g.stages (g.stageReading z) i (n.wires.netOf f) = some fs)
      (hw : g.reading z (i + 1) (n.wires.netOf o) = some w) :
      RowAt n g tableau dt z (.across i (n.wires.netOf o)) (advance dt t.weights x fs - w)

def columnOf (g : Grid α) : Determined → Option Nat
  | .atStep t net => g.index? net t
  | .atStage k s net => g.minorIndex? net k s
  | .across k net => g.index? net (k + 1)

def RegularFor (n : Network α) (g : Grid α) (z : List α) : Determined → Prop
  | .atStep t net => n.RegularOn (· = net) (g.reading z t)
  | .atStage k s net => n.RegularOn (· = net) (g.stageReading z k s)
  | .across _ _ => True

/-- The row that determines a variable: it has the variable by itself, and at every point it comes to
what the diagram or the tableau makes of it. -/
structure RowOf (n : Network α) (g : Grid α) (tableau : Option (Tableau α)) (dt : α) (v : Determined)
    (p : Poly α) : Prop where
  single : ∃ c, columnOf g v = some c ∧ (-1, [(c, 1)]) ∈ p
  value : ∀ z : List α, z.length = g.size → n.RegularFor g z v →
    n.RowAt g tableau dt z v (p.valueAt (System.point z))

theorem bind_point {z : List α} {c : Option Nat} {i : Nat} (hc : c = some i) (hi : i < z.length) :
    (c.bind fun i => z[i]?) = some (System.point z i) := by
  simp [hc, System.point, hi]

section Steps

variable {live : List PhaseSet} {steps stages : Nat} {minor : Bool} {g : Grid α} {step : System α}

def majorVariables (n : Network α) (live : List PhaseSet) (steps : Nat) : List Determined :=
  Determined.eachStep steps fun t =>
    (n.leaving [.primitive]).filter fun net => (stepMask live steps t).getD net false

theorem mem_majorVariables {v : Determined} : v ∈ n.majorVariables live steps ↔
    ∃ t net, v = .atStep t net ∧ LiveAt live steps t net ∧ net ∈ n.leaving [.primitive] := by
  rw [majorVariables, Determined.mem_eachStep]
  refine exists_congr fun t => exists_congr fun net => and_congr_right fun _ => ?_
  rw [List.mem_filter, kept_stepMask, LiveAt]
  tauto

/-- The rows of the steps are those of the live outputs of primitives. -/
theorem OnGrid.forall₂_majorSystem (h : n.OnGrid minor live steps stages g)
    (hstep : n.stepSystem = .ok step) (tableau : Option (Tableau α)) (dt : α) :
    List.Forall₂ (n.RowOf g tableau dt) (n.majorVariables live steps)
      (majorSystem g step).polynomials := by
  rw [majorSystem, h.expands.live_eq, h.expands.steps_eq, System.polynomials_moved,
    List.forall₂_map_right_iff, majorVariables, Determined.eachStep, List.flatMap_def]
  refine System.forall₂_directSum ?_ (proper_stepParts live steps step) fun i s vs hs hvs => ?_
  · rw [List.length_map, stepParts, List.length_map]
  obtain ⟨hi, rfl⟩ := getElem?_stepParts.mp hs
  rw [List.getElem?_map, getElem?_stepsFrom (by omega), Nat.add_comm] at hvs
  cases hvs
  dsimp only
  have hk := h.keepsInputs (Nat.le_add_left 1 i) (Nat.succ_le_of_lt hi)
  rw [← map_keptOutlets, List.map_map, List.forall₂_map_left_iff]
  refine (forall₂_trimmed h.wired hstep hk).imp fun o p hp => ?_
  have hmoved := hp.map fun r hr => (hr.shift (System.offset (stepParts live steps step) i)).relabel
    fun c => g.labels.getD c 0
  have hindex (c : Nat) (hc : System.Kept (stepMask live steps (i + 1)) c) :=
    h.expands.index?_column hi hc step
  refine ⟨⟨_, hindex _ hmoved.kept, hmoved.single h.wired⟩, fun z hz hr => ?_⟩
  obtain ⟨⟨k, hb⟩, hprimitive, hout⟩ := mem_outlets.mp hmoved.output
  refine .step hb hprimitive hout (hmoved.outputRow h.wired hk (fun c hc => ?_) ?_)
  · exact bind_point (hindex c hc) (hz ▸ h.expands.index?_lt (hindex c hc))
  · exact hr k o.block o.place o.wire ⟨hb, hprimitive, hout, rfl⟩

end Steps

section Stages

variable {live : List PhaseSet} {steps stages : Nat} {g : Grid α} {step : System α}

def minorVariables (n : Network α) (g : Grid α) : List Determined :=
  Determined.eachCopy g.intervals g.stages ((n.leaving [.primitive]).filter (g.minorNets.contains ·))

theorem OnStages.filter_minorMask (h : n.OnStages live steps stages g) (nets : List Nat) :
    (nets.filter fun net => (minorMask live).getD net false) =
      nets.filter (g.minorNets.contains ·) := by
  refine List.filter_congr fun net _ => Bool.eq_iff_iff.mpr ?_
  rw [kept_minorMask, ← h.mem_minorNets, List.contains_iff_mem]

/-- The rows of the stages are those of the outputs of primitives in them. -/
theorem OnStages.forall₂_minorSystem (h : n.OnStages live steps stages g)
    (hstep : n.stepSystem = .ok step) (tableau : Option (Tableau α)) (dt : α) :
    List.Forall₂ (fun v p => n.RowOf g tableau dt v (Poly.shift g.majorCount p)) (n.minorVariables g)
      (minorSystem g step).polynomials := by
  rw [minorSystem, h.expands.live_eq, minorVariables, Determined.eachCopy]
  refine System.forall₂_replicate (System.proper_trimmed _ _) fun i hi => ?_
  have hs := Nat.mod_lt i (h.stages_eq.symm ▸ h.stages_pos : 0 < g.stages)
  have hk : i / g.stages < g.intervals := Nat.div_lt_of_lt_mul (by rwa [Nat.mul_comm])
  -- the copy has its variables behind those of the intervals and stages before
  have hindex (c : Nat) (hc : System.Kept (minorMask live) c) :
      g.minorIndex? c (i / g.stages + 1) (i % g.stages + 1) =
        some (((minorMask live).take c).count true + i * (step.trimmed (minorMask live)).width +
          g.majorCount) := by
    rw [h.minorIndex?_eq (h.lt_of_interval (mem_stepsFrom.mpr ⟨Nat.le_add_left 1 _, hk⟩))
      ⟨Nat.le_add_left 1 _, hs.trans_eq h.stages_eq⟩ (kept_minorMask.mp hc), Nat.add_sub_cancel,
      Nat.add_sub_cancel, ← h.stages_eq, Nat.div_add_mod', System.width_trimmed]
  rw [← h.filter_minorMask, ← map_keptOutlets, List.map_map, List.forall₂_map_left_iff]
  refine (forall₂_trimmed h.wired hstep h.keepsStageInputs).imp fun o p hp => ?_
  have hmoved := hp.map fun r hr =>
    (hr.shift (i * (step.trimmed (minorMask live)).width)).shift g.majorCount
  refine ⟨⟨_, hindex _ hmoved.kept, hmoved.single h.wired⟩, fun z hz hr => ?_⟩
  obtain ⟨⟨k, hb⟩, hprimitive, hout⟩ := mem_outlets.mp hmoved.output
  refine .computed hb hprimitive hout (hmoved.outputRow h.wired h.keepsStageInputs (fun c hc => ?_) ?_)
  · exact bind_point (hindex c hc) (hz ▸ minorIndex?_lt (hindex c hc))
  · exact hr k o.block o.place o.wire ⟨hb, hprimitive, hout, rfl⟩

end Stages

section Coupling

variable {live : List PhaseSet} {steps : Nat} {g : Grid α} {t : Tableau α} {dt : α} {z : List α}

/-- A row over variables of a point adds their values up, each times its coefficient. -/
theorem RowOn.exists_values {columns : List (Option Nat)} {coefficients : List α} {r : Terms α}
    (hr : RowOn columns coefficients r) (hc : ∀ c ∈ columns, ∀ i, c = some i → i < z.length) :
    ∃ ys, List.Forall₂ (fun c y => (c.bind fun i => z[i]?) = some y) columns ys ∧
      LinearRows.rowAt (System.point z) r = (List.zipWith (· * ·) coefficients ys).sum := by
  obtain ⟨ys, hys⟩ : ∃ ys, columns.mapM (fun c => c.bind fun i => z[i]?) = some ys := by
    refine option_mapM_isSome fun c hcolumn => ?_
    obtain ⟨vs, hvs, _⟩ := hr
    rw [hvs] at hcolumn
    obtain ⟨v, hv, rfl⟩ := List.mem_map.mp hcolumn
    rw [Option.bind_some, List.getElem?_eq_getElem (hc _ (hvs ▸ hcolumn) v rfl)]
    rfl
  exact ⟨ys, option_mapM_eq_some.mp hys, hr.rowAt_eq hys⟩

/-- The row of an integrator takes one value away from another that is advanced. -/
theorem RowOn.exists_advance {c₁ c₂ : Option Nat} {net k : Nat} {as : List α} {r : Terms α}
    (hr : RowOn (c₁ :: c₂ :: slopes g net k) (1 :: -1 :: as.map (dt * ·)) r)
    (hc : ∀ c ∈ c₁ :: c₂ :: slopes g net k, ∀ i, c = some i → i < z.length) :
    ∃ x w fs, (c₁.bind fun i => z[i]?) = some x ∧ (c₂.bind fun i => z[i]?) = some w ∧
      stageValues g.stages (g.stageReading z) k net = some fs ∧
        LinearRows.rowAt (System.point z) r = advance dt as x fs - w := by
  obtain ⟨ys, hys, hvalue⟩ := hr.exists_values hc
  obtain _ | ⟨hx, _ | ⟨hw, hfs⟩⟩ := hys
  refine ⟨_, _, _, hx, hw, ?_, by rw [hvalue, sum_advance]⟩
  rw [← mapM_slopes]
  exact option_mapM_eq_some.mpr hfs

/-- What a coupling row comes to at a point. -/
theorem CouplingRow.rowAt (h : n.OnStages live steps t.stages g) (hz : z.length = g.size)
    {v : Determined} {r : Terms α} (hr : n.CouplingRow g t dt v r) :
    n.RowAt g (some t) dt z v (LinearRows.rowAt (System.point z) r) := by
  cases hr with
  | increment hi _ hr =>
    obtain ⟨x, w, fs, hx, hw, hfs, hvalue⟩ :=
      hr.exists_advance (hz ▸ h.expands.increment_lt _ _ _)
    rw [hvalue]
    exact .increment rfl hi hx hfs hw
  | stage hi _ _ _ hr =>
    obtain ⟨x, w, fs, hx, hw, hfs, hvalue⟩ := hr.exists_advance (hz ▸ h.expands.stage_lt _ _ _ _)
    rw [hvalue]
    exact .integrated rfl hi hx hfs hw
  | @held k o j s b _ hh _ _ hr =>
    obtain ⟨ys, hys, hvalue⟩ := hr.exists_values (hz ▸ h.expands.hold_lt _ _ _ _)
    unfold holdTerms heldOutput at hys hvalue
    cases hhold : b.hold.getD .zeroOrder with
    | firstOrder =>
      rw [hhold] at hys hvalue
      obtain _ | ⟨hu, _ | ⟨hv, _ | ⟨hw, _ | _⟩⟩⟩ := hys
      obtain ⟨hk, hb⟩ := hold_eq_firstOrder h.wired hh hhold
      rw [hvalue, sum_firstOrder]
      exact .firstOrder rfl hh.block hk hb hh.output hu hv hw
    | zeroOrder =>
      rw [hhold] at hys hvalue
      obtain _ | ⟨hu, _ | ⟨hw, _ | _⟩⟩ := hys
      have hk : b.kind = .delay ∨ b.kind.isBoundary = true ∧ b.hold ≠ some .firstOrder := by
        refine hh.kind.symm.imp_right fun hk => ⟨hk, fun hb => ?_⟩
        rw [hb] at hhold
        cases hhold
      rw [hvalue, sum_zeroOrder]
      exact .zeroOrder hh.block hk hh.output hu hw

/-- The variable at one place of a row has its coefficient by itself. -/
theorem RowOn.mem_poly {columns : List (Option Nat)} {coefficients : List α} {r : Terms α}
    (hr : RowOn columns coefficients r) {i : Nat} {c : Option Nat} {a : α} (hc : columns[i]? = some c)
    (ha : coefficients[i]? = some a) (hne : a ≠ 0) :
    ∃ v, c = some v ∧ (a, [(v, 1)]) ∈ LinearRows.poly r := by
  obtain ⟨vs, rfl, rfl⟩ := hr
  rw [List.getElem?_map] at hc
  obtain ⟨v, hv, rfl⟩ := Option.map_eq_some_iff.mp hc
  have hmem : (Int.ofNat v, a) ∈ (vs.map Int.ofNat).zip coefficients := by
    refine List.mem_of_getElem? (i := i) (List.getElem?_zip_eq_some.mpr ⟨?_, ha⟩)
    rw [List.getElem?_map, hv]
    rfl
  refine ⟨v, rfl, List.mem_map.mpr ⟨_, List.mem_filter.mpr ⟨hmem, ?_⟩, rfl⟩⟩
  rw [Bool.not_eq_true', ← Bool.not_eq_true, Scalar.isZero_iff]
  exact hne

/-- A coupling row is the row of the net that it determines. -/
theorem CouplingRow.rowOf (h : n.OnStages live steps t.stages g) {v : Determined} {r : Terms α}
    (hr : n.CouplingRow g t dt v r) : n.RowOf g (some t) dt v (LinearRows.poly r) := by
  have hne : (-1 : α) ≠ 0 := neg_ne_zero.mpr one_ne_zero
  refine ⟨?_, fun z hz _ => ?_⟩
  · cases hr with
    | increment _ _ hr => exact hr.mem_poly (i := 1) rfl rfl hne
    | stage _ _ _ _ hr => exact hr.mem_poly (i := 1) rfl rfl hne
    | @held k o j s b _ _ _ _ hr =>
      unfold holdTerms heldOutput at hr
      cases hhold : b.hold.getD .zeroOrder with
      | firstOrder =>
        rw [hhold] at hr
        exact hr.mem_poly (i := 2) rfl rfl hne
      | zeroOrder =>
        rw [hhold] at hr
        exact hr.mem_poly (i := 1) rfl rfl hne
  · rw [LinearRows.valueAt_poly]
    exact hr.rowAt h hz

end Coupling

end Network

end Transcription
