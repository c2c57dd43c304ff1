import Transcription.Proofs.Program.Assembly

namespace Transcription

variable {α : Type}

def Grid.stageReading (g : Grid α) (z : List α) (k s net : Nat) : Option α :=
  (g.minorIndex? net k s).bind fun i => z[i]?

namespace Network

variable [Scalar α]

def stageValues (stages : Nat) (V : Nat → Nat → Nat → Option α) (k net : Nat) : Option (List α) :=
  (stepsFrom 1 stages).mapM fun s => V k s net

def advance (dt : α) (coefficients : List α) (x : α) (slopes : List α) : α :=
  x + dt * (List.zipWith (· * ·) coefficients slopes).sum

/-- The tableau leads from the values `v` at the steps to the values `V` at the stages and on to the
next step: integrators advance along their slopes, inputs from outside follow their holds, and delays
keep their values. -/
structure Coupled (n : Network α) (t : Tableau α) (dt : α) (live : List PhaseSet) (steps : Nat)
    (v : Nat → Nat → Option α) (V : Nat → Nat → Nat → Option α) : Prop where
  increment : ∀ k b o i, n.Integrates k b o i → ∀ p, ((live[n.wires.netOf o]?).getD {}).has p = true →
    ∀ j, 1 ≤ j → j < steps → ∃ x fs, v j (n.wires.netOf o) = some x ∧
      stageValues t.stages V j (n.wires.netOf i) = some fs ∧
        v (j + 1) (n.wires.netOf o) = some (advance dt t.weights x fs)
  stage : ∀ k b o i, n.Integrates k b o i → LiveInStages live (n.wires.netOf o) →
    ∀ j, 1 ≤ j → j < steps → ∀ s as, t.coupling[s]? = some as →
      ∃ x fs, v j (n.wires.netOf o) = some x ∧
        stageValues t.stages V j (n.wires.netOf i) = some fs ∧
          V j (s + 1) (n.wires.netOf o) = some (advance dt as x fs)
  firstOrder : ∀ k b, n.block? k = some b → b.kind.isBoundary = true → b.hold = some .firstOrder →
    ∀ o ∈ b.outputs, LiveInStages live (n.wires.netOf o) → ∀ j, 1 ≤ j → j < steps →
      ∀ s c, t.times[s]? = some c → ∃ u w, v j (n.wires.netOf o) = some u ∧
        v (j + 1) (n.wires.netOf o) = some w ∧
          V j (s + 1) (n.wires.netOf o) = some ((1 - c) * u + c * w)
  zeroOrder : ∀ k b, n.block? k = some b →
    b.kind = .delay ∨ b.kind.isBoundary = true ∧ b.hold ≠ some .firstOrder →
    ∀ o ∈ b.outputs, LiveInStages live (n.wires.netOf o) → ∀ j, 1 ≤ j → j < steps →
      ∀ s, 1 ≤ s → s ≤ t.stages →
        ∃ u, v j (n.wires.netOf o) = some u ∧ V j s (n.wires.netOf o) = some u

/-- Values at the steps and at the stages are those of a collocation: primitives compute their live
outputs at both, and the tableau couples them. -/
structure Collocates (n : Network α) (t : Tableau α) (dt : α) (live : List PhaseSet) (steps : Nat)
    (v : Nat → Nat → Option α) (V : Nat → Nat → Nat → Option α) : Prop
    extends n.Coupled t dt live steps v V where
  major : ∀ k, n.Solved (LiveAt live steps k) (v k)
  minor : ∀ k s, 1 ≤ k → k < steps → 1 ≤ s → s ≤ t.stages → n.Solved (LiveInStages live) (V k s)

end Network

structure Network.OnStages [Scalar α] (n : Network α) (live : List PhaseSet) (steps stages : Nat)
    (g : Grid α) : Prop extends n.OnGrid true live steps stages g where
  two_le : 2 ≤ steps
  stages_pos : 1 ≤ stages

namespace Network

section Variables

variable [Scalar α] {n : Network α} {live : List PhaseSet} {steps stages : Nat} {g : Grid α}
  {k s net i : Nat}

theorem OnStages.stages_eq (h : n.OnStages live steps stages g) : g.stages = stages := by
  rw [h.expands.stages_eq, if_neg (Nat.not_lt.mpr h.two_le)]

theorem OnStages.intervals_eq (h : n.OnStages live steps stages g) : g.intervals = steps - 1 := by
  rw [Grid.intervals, h.stages_eq, if_neg (Nat.ne_of_gt h.stages_pos), h.expands.steps_eq]

theorem OnStages.minorNets_eq (h : n.OnStages live steps stages g) :
    g.minorNets = marked (minorMask live) := by
  rw [h.expands.minorNets_eq, h.stages_eq, if_neg (Nat.ne_of_gt h.stages_pos)]

theorem OnStages.mem_minorNets (h : n.OnStages live steps stages g) :
    net ∈ g.minorNets ↔ LiveInStages live net := by
  rw [h.minorNets_eq, mem_marked, kept_minorMask]

/-- The copies of the stages follow one another, and in each a net stands behind those before it. -/
theorem OnStages.minorIndex?_eq (h : n.OnStages live steps stages g) (hk : 1 ≤ k ∧ k < steps)
    (hs : 1 ≤ s ∧ s ≤ stages) (hl : LiveInStages live net) :
    g.minorIndex? net k s = some (((minorMask live).take net).count true +
      ((k - 1) * stages + (s - 1)) * (minorMask live).count true + g.majorCount) := by
  have hrank : g.minorNets.idxOf? net = some (((minorMask live).take net).count true) := by
    rw [h.minorNets_eq]
    exact (idxOf?_of_nodup (nodup_marked _)).mpr (getElem?_marked (kept_minorMask.mpr hl))
  rw [Grid.minorIndex?, hrank, Option.bind_some, h.intervals_eq, h.stages_eq, if_pos, Grid.stageBase,
    h.minorNets_eq, length_marked]
  · congr 1
    omega
  · simp only [Bool.and_eq_true, decide_eq_true_eq]
    omega

theorem kept_eq_liveInStages : System.Kept (minorMask live) = LiveInStages live :=
  funext fun _ => propext kept_minorMask

theorem OnStages.keepsStageInputs (h : n.OnStages live steps stages g) :
    n.KeepsInputs (minorMask live) := by
  intro k b hb hk o ho hl i hi
  rw [kept_eq_liveInStages] at hl ⊢
  exact h.closed.primitive k b hb hk o ho i hi .minor hl

end Variables

section Stages

variable [LinearOrder α] [ExactScalar α] {n : Network α} {live : List PhaseSet} {steps stages : Nat}
  {g : Grid α} {step : System α} {z : List α}

theorem OnStages.isSome_stageReading (h : n.OnStages live steps stages g) (hz : z.length = g.size)
    {k s net : Nat} (hk : 1 ≤ k ∧ k < steps) (hs : 1 ≤ s ∧ s ≤ stages) (hl : LiveInStages live net) :
    (g.stageReading z k s net).isSome = true := by
  have hi := h.minorIndex?_eq hk hs hl
  rw [Grid.stageReading, hi, Option.bind_some, List.getElem?_eq_getElem (hz ▸ minorIndex?_lt hi)]
  rfl

/-- The copy of a stage reads the values that the stage has at a point. -/
theorem OnStages.reads_stage (h : n.OnStages live steps stages g) (hz : z.length = g.size) {k s : Nat}
    (hk : 1 ≤ k ∧ k < steps) (hs : 1 ≤ s ∧ s ≤ stages)
    (hr : n.RegularOn (LiveInStages live) (g.stageReading z k s)) :
    n.Reads (minorMask live) (g.stageReading z k s) fun c => System.point z
      (c + ((k - 1) * stages + (s - 1)) * (minorMask live).count true + g.majorCount) := by
  refine ⟨h.keepsStageInputs, fun net hnet => ?_, fun net hnet => ?_, ?_⟩
  · exact h.isSome_stageReading hz hk hs (kept_minorMask.mp hnet)
  · have hi := h.minorIndex?_eq hk hs (kept_minorMask.mp hnet)
    rw [Grid.stageReading, hi, Option.bind_some, System.point]
    simp
  · rw [kept_eq_liveInStages]
    exact hr

/-- The copy of a stage vanishes where its outputs have the values of their expressions. -/
theorem OnStages.vanishes_copy (h : n.OnStages live steps stages g) (hstep : n.stepSystem = .ok step)
    (hz : z.length = g.size) {k s : Nat} (hk : 1 ≤ k ∧ k < steps) (hs : 1 ≤ s ∧ s ≤ stages)
    (hr : n.RegularOn (LiveInStages live) (g.stageReading z k s)) :
    (step.trimmed (minorMask live)).Vanishes (fun c => System.point z
        (c + ((k - 1) * stages + (s - 1)) * (minorMask live).count true + g.majorCount)) ↔
      n.Solved (LiveInStages live) (g.stageReading z k s) := by
  rw [← kept_eq_liveInStages]
  exact (vanishes_stepSystem h.wired hstep (h.reads_stage hz hk hs hr)).2

theorem OnStages.vanishes_minorSystem (h : n.OnStages live steps stages g)
    (hstep : n.stepSystem = .ok step) (hz : z.length = g.size)
    (hr : ∀ k s, 1 ≤ k → k < steps → 1 ≤ s → s ≤ stages →
      n.RegularOn (LiveInStages live) (g.stageReading z k s)) :
    (minorSystem g step).Vanishes (fun c => System.point z (c + g.majorCount)) ↔
      ∀ k s, 1 ≤ k → k < steps → 1 ≤ s → s ≤ stages →
        n.Solved (LiveInStages live) (g.stageReading z k s) := by
  rw [minorSystem, h.expands.live_eq, h.intervals_eq, h.stages_eq,
    System.vanishes_replicate (System.proper_trimmed _ _), System.width_trimmed]
  constructor
  · intro hv k s hk hk' hs hs'
    apply (h.vanishes_copy hstep hz ⟨hk, hk'⟩ ⟨hs, hs'⟩ (hr k s hk hk' hs hs')).mp
    exact hv _ (add_mul_lt (by omega) (by omega))
  · intro hsolved i hi
    -- copy `i` is that of one interval and one stage
    obtain ⟨j, l, hj, hl, rfl⟩ : ∃ j l, j < steps - 1 ∧ l < stages ∧ j * stages + l = i :=
      ⟨i / stages, i % stages, Nat.div_lt_of_lt_mul (by rwa [Nat.mul_comm]),
        Nat.mod_lt _ h.stages_pos, Nat.div_add_mod' i stages⟩
    have hk : 1 ≤ j + 1 ∧ j + 1 < steps := by omega
    have hs : 1 ≤ l + 1 ∧ l + 1 ≤ stages := by omega
    have hcopy := h.vanishes_copy hstep hz hk hs (hr _ _ hk.1 hk.2 hs.1 hs.2)
    exact hcopy.mpr (hsolved _ _ hk.1 hk.2 hs.1 hs.2)

end Stages

section Live

variable [Scalar α] {n : Network α} {live : List PhaseSet} {steps stages : Nat} {g : Grid α}

theorem stepPhases_major (t steps : Nat) :
    ∃ p, PhaseSet.majors.has p = true ∧ (stepPhases t steps).has p = true := by
  unfold stepPhases
  split
  · exact ⟨.major .initial, rfl, rfl⟩
  · split
    · exact ⟨.major .initial, rfl, rfl⟩
    · split
      · exact ⟨.major .final, rfl, rfl⟩
      · exact ⟨.major .intermediate, rfl, rfl⟩

theorem liveAt_of_majors {t net : Nat} (h : PhaseSet.majors.Sub ((live[net]?).getD {})) (h₁ : 1 ≤ t)
    (ht : t ≤ steps) : LiveAt live steps t net := by
  obtain ⟨p, hp, hs⟩ := stepPhases_major t steps
  exact ⟨h₁, ht, p, h p hp, hs⟩

theorem OnStages.live_integrator (h : n.OnStages live steps stages g) {k o i : Nat} {b : TracedBlock α}
    (hi : n.Integrates k b o i) {p : Phase} (hp : ((live[n.wires.netOf o]?).getD {}).has p = true) :
    PhaseSet.majors.Sub ((live[n.wires.netOf o]?).getD {}) ∧ LiveInStages live (n.wires.netOf i) := by
  obtain ⟨hmo, hmi⟩ := List.of_mem_zip hi.pair
  obtain ⟨houtputs, hinputs⟩ := h.closed.integrator k b hi.block hi.kind o hmo p hp
  exact ⟨houtputs o hmo, hinputs rfl i hmi⟩

theorem OnStages.live_held (h : n.OnStages live steps stages g) {k o : Nat} {b : TracedBlock α}
    (hh : n.Holds g k b o) : PhaseSet.majors.Sub ((live[n.wires.netOf o]?).getD {}) := by
  have hl := h.mem_minorNets.mp hh.minor
  cases hh.kind with
  | inr hk => exact h.closed.held k b hh.block hk o hh.output hl o hh.output
  | inl hk =>
    have hlt := h.wired.inside k b hh.block o (List.mem_append_right _ hh.output)
    have hout := (h.wired.outside o hlt).mpr ⟨k, b, hh.block, hk, o, hh.output, rfl⟩
    have hget := List.getElem?_eq_getElem hlt
    rw [WireTable.outsideAt, hget, Option.any_some] at hout
    have hnet := WireTable.netOf_eq hget
    rw [hnet] at hl ⊢
    exact h.closed.outside _ (List.getElem_mem hlt) hout hl

end Live

section Rows

variable [LinearOrder α] [ExactScalar α] {n : Network α} {live : List PhaseSet} {steps stages : Nat}
  {g : Grid α} {z : List α} {dt : α}

omit [LinearOrder α] [ExactScalar α] in
theorem mapM_slopes (g : Grid α) (z : List α) (net k : Nat) :
    (slopes g net k).mapM (fun c => c.bind fun i => z[i]?) =
      stageValues g.stages (g.stageReading z) k net := by
  rw [slopes, List.mapM_map]
  rfl

theorem sum_advance (dt x y : α) (as fs : List α) :
    (List.zipWith (· * ·) (1 :: -1 :: as.map (dt * ·)) (x :: y :: fs)).sum =
      advance dt as x fs - y := by
  have hsum : (List.zipWith (· * ·) (as.map (dt * ·)) fs).sum =
      dt * (List.zipWith (· * ·) as fs).sum := by
    induction as generalizing fs with
    | nil => simp
    | cons a as ih =>
      cases fs with
      | nil => simp
      | cons f fs => simp [ih, mul_add, mul_assoc]
  rw [List.zipWith_cons_cons, List.zipWith_cons_cons, List.sum_cons, List.sum_cons, hsum, advance]
  ring

theorem sum_firstOrder (a u w y : α) :
    (List.zipWith (· * ·) [1 - a, a, -1] [u, w, y]).sum = (1 - a) * u + a * w - y := by
  simp
  ring

theorem sum_zeroOrder (u y : α) : (List.zipWith (· * ·) [(1 : α), -1] [u, y]).sum = u - y := by
  simp
  ring

/-- A row whose slopes advance one variable to another. -/
theorem forall_rowOn_advance {c₁ c₂ : Option Nat} {net k : Nat} {as : List α}
    (h₁ : (c₁.bind fun i => z[i]?).isSome = true) (h₂ : (c₂.bind fun i => z[i]?).isSome = true)
    (hs : ∀ s, 1 ≤ s → s ≤ g.stages → (g.stageReading z k s net).isSome = true) :
    (∀ r, RowOn (c₁ :: c₂ :: slopes g net k) (1 :: -1 :: as.map (dt * ·)) r →
        LinearRows.rowAt (System.point z) r = 0) ↔
      ∃ x fs, (c₁.bind fun i => z[i]?) = some x ∧
        stageValues g.stages (g.stageReading z) k net = some fs ∧
          (c₂.bind fun i => z[i]?) = some (advance dt as x fs) := by
  have hslopes : ∀ c ∈ slopes g net k, (c.bind fun i => z[i]?).isSome = true := by
    intro c hc
    obtain ⟨s, hs', rfl⟩ := List.mem_map.mp hc
    obtain ⟨hs₁, hs₂⟩ := mem_stepsFrom.mp hs'
    exact hs s hs₁ hs₂
  obtain ⟨x, hx⟩ := Option.isSome_iff_exists.mp h₁
  obtain ⟨y, hy⟩ := Option.isSome_iff_exists.mp h₂
  obtain ⟨fs, hfs⟩ := option_mapM_isSome hslopes
  have hvalues : (c₁ :: c₂ :: slopes g net k).mapM (fun c => c.bind fun i => z[i]?) =
      some (x :: y :: fs) := by
    rw [List.mapM_cons, List.mapM_cons, hx, hy, hfs]
    rfl
  rw [forall_rowOn_iff hvalues, sum_advance, sub_eq_zero, hx, hy, ← mapM_slopes, hfs]
  constructor
  · intro h
    exact ⟨x, fs, rfl, rfl, congrArg some h.symm⟩
  · intro ⟨x', fs', hx', hfs', hy'⟩
    obtain rfl := Option.some.inj hx'
    obtain rfl := Option.some.inj hfs'
    exact (Option.some.inj hy').symm

theorem forall_rowOn_firstOrder {c₁ c₂ c₃ : Option Nat} {a : α}
    (h₁ : (c₁.bind fun i => z[i]?).isSome = true) (h₂ : (c₂.bind fun i => z[i]?).isSome = true)
    (h₃ : (c₃.bind fun i => z[i]?).isSome = true) :
    (∀ r, RowOn [c₁, c₂, c₃] [1 - a, a, -1] r → LinearRows.rowAt (System.point z) r = 0) ↔
      ∃ u w, (c₁.bind fun i => z[i]?) = some u ∧ (c₂.bind fun i => z[i]?) = some w ∧
        (c₃.bind fun i => z[i]?) = some ((1 - a) * u + a * w) := by
  obtain ⟨u, hu⟩ := Option.isSome_iff_exists.mp h₁
  obtain ⟨w, hw⟩ := Option.isSome_iff_exists.mp h₂
  obtain ⟨y, hy⟩ := Option.isSome_iff_exists.mp h₃
  have hvalues : [c₁, c₂, c₃].mapM (fun c => c.bind fun i => z[i]?) = some [u, w, y] := by
    simp [hu, hw, hy]
  rw [forall_rowOn_iff hvalues, sum_firstOrder, sub_eq_zero, hu, hw, hy]
  simp [eq_comm]

theorem forall_rowOn_zeroOrder {c₁ c₂ : Option Nat}
    (h₁ : (c₁.bind fun i => z[i]?).isSome = true) (h₂ : (c₂.bind fun i => z[i]?).isSome = true) :
    (∀ r, RowOn [c₁, c₂] [(1 : α), -1] r → LinearRows.rowAt (System.point z) r = 0) ↔
      ∃ u, (c₁.bind fun i => z[i]?) = some u ∧ (c₂.bind fun i => z[i]?) = some u := by
  obtain ⟨u, hu⟩ := Option.isSome_iff_exists.mp h₁
  obtain ⟨y, hy⟩ := Option.isSome_iff_exists.mp h₂
  have hvalues : [c₁, c₂].mapM (fun c => c.bind fun i => z[i]?) = some [u, y] := by simp [hu, hy]
  rw [forall_rowOn_iff hvalues, sum_zeroOrder, sub_eq_zero, hu, hy]
  simp [eq_comm]

end Rows

section Families

variable [LinearOrder α] [ExactScalar α] {n : Network α} {live : List PhaseSet} {steps stages : Nat}
  {g : Grid α} {z : List α} {dt : α} {k o i j s : Nat} {b : TracedBlock α} {t : Tableau α}

theorem OnStages.isSome_reading (h : n.OnStages live steps stages g) (hz : z.length = g.size) {net : Nat}
    (hl : PhaseSet.majors.Sub ((live[net]?).getD {})) (hj : 1 ≤ j) (hj' : j ≤ steps) :
    (g.reading z j net).isSome = true :=
  (h.expands.isSome_reading (hz ▸ Nat.le_add_right _ _) j net).mpr (liveAt_of_majors hl hj hj')

/-- All rows of an integrator over an interval step along its slopes in that interval. -/
theorem OnStages.increment_iff (h : n.OnStages live steps stages g) (hz : z.length = g.size)
    (hi : n.Integrates k b o i) {p : Phase} (hp : ((live[n.wires.netOf o]?).getD {}).has p = true)
    (hj : 1 ≤ j ∧ j < steps) (as : List α) :
    (∀ r, RowOn (g.index? (n.wires.netOf o) j :: g.index? (n.wires.netOf o) (j + 1) ::
        slopes g (n.wires.netOf i) j) (1 :: -1 :: as.map (dt * ·)) r →
          LinearRows.rowAt (System.point z) r = 0) ↔
      ∃ x fs, g.reading z j (n.wires.netOf o) = some x ∧
        stageValues stages (g.stageReading z) j (n.wires.netOf i) = some fs ∧
          g.reading z (j + 1) (n.wires.netOf o) = some (advance dt as x fs) := by
  obtain ⟨hmajors, hslope⟩ := h.live_integrator hi hp
  rw [← h.stages_eq]
  apply forall_rowOn_advance
  · exact h.isSome_reading hz hmajors hj.1 (Nat.le_of_lt hj.2)
  · exact h.isSome_reading hz hmajors (Nat.le_add_left 1 j) hj.2
  · intro s hs hs'
    rw [h.stages_eq] at hs'
    exact h.isSome_stageReading hz hj ⟨hs, hs'⟩ hslope

theorem OnStages.stage_iff (h : n.OnStages live steps stages g) (hz : z.length = g.size)
    (hi : n.Integrates k b o i) (hl : LiveInStages live (n.wires.netOf o)) (hj : 1 ≤ j ∧ j < steps)
    (hs : 1 ≤ s ∧ s ≤ stages) (as : List α) :
    (∀ r, RowOn (g.index? (n.wires.netOf o) j :: g.minorIndex? (n.wires.netOf o) j s ::
        slopes g (n.wires.netOf i) j) (1 :: -1 :: as.map (dt * ·)) r →
          LinearRows.rowAt (System.point z) r = 0) ↔
      ∃ x fs, g.reading z j (n.wires.netOf o) = some x ∧
        stageValues stages (g.stageReading z) j (n.wires.netOf i) = some fs ∧
          g.stageReading z j s (n.wires.netOf o) = some (advance dt as x fs) := by
  obtain ⟨hmajors, hslope⟩ := h.live_integrator hi hl
  rw [← h.stages_eq]
  apply forall_rowOn_advance
  · exact h.isSome_reading hz hmajors hj.1 (Nat.le_of_lt hj.2)
  · exact h.isSome_stageReading hz hj hs hl
  · intro s hs hs'
    rw [h.stages_eq] at hs'
    exact h.isSome_stageReading hz hj ⟨hs, hs'⟩ hslope

/-- The row of a held net at a stage. -/
theorem OnStages.held_iff (h : n.OnStages live steps t.stages g) (hz : z.length = g.size)
    (hh : n.Holds g k b o) (hj : 1 ≤ j ∧ j < steps) (hs : 1 ≤ s ∧ s ≤ t.stages) :
    (∀ r, RowOn (holdTerms g t (n.heldOutput b o) j s).1 (holdTerms g t (n.heldOutput b o) j s).2 r →
        LinearRows.rowAt (System.point z) r = 0) ↔
      match b.hold.getD .zeroOrder with
      | .firstOrder => ∃ u w, g.reading z j (n.wires.netOf o) = some u ∧
          g.reading z (j + 1) (n.wires.netOf o) = some w ∧ g.stageReading z j s (n.wires.netOf o) =
            some ((1 - t.times.getD (s - 1) 0) * u + t.times.getD (s - 1) 0 * w)
      | .zeroOrder => ∃ u, g.reading z j (n.wires.netOf o) = some u ∧
          g.stageReading z j s (n.wires.netOf o) = some u := by
  have hmajors := h.live_held hh
  have hnow := h.isSome_reading hz hmajors hj.1 (Nat.le_of_lt hj.2)
  have hnext := h.isSome_reading hz hmajors (Nat.le_add_left 1 j) hj.2
  have hstage := h.isSome_stageReading hz hj hs (h.mem_minorNets.mp hh.minor)
  unfold holdTerms heldOutput
  cases b.hold.getD .zeroOrder with
  | firstOrder => exact forall_rowOn_firstOrder hnow hnext hstage
  | zeroOrder => exact forall_rowOn_zeroOrder hnow hstage

/-- Where all coupling rows are zero, the tableau couples the stages with the steps. -/
theorem OnStages.coupled_of_rows (h : n.OnStages live steps t.stages g) (ht : t.Sized)
    (hz : z.length = g.size)
    (hrows : ∀ r, n.Couples g t dt r → LinearRows.rowAt (System.point z) r = 0) :
    n.Coupled t dt live steps (g.reading z) (g.stageReading z) := by
  have hlast (j : Nat) (hj : j < steps) : j ≤ g.intervals := by
    rw [h.intervals_eq]
    omega
  have hstage (s : Nat) (hs : s < t.stages) : 1 ≤ s + 1 ∧ s + 1 ≤ g.stages := by
    rw [h.stages_eq]
    omega
  refine ⟨?_, ?_, ?_, ?_⟩
  · intro k b o i hi p hp j hj hj'
    apply (h.increment_iff hz hi hp ⟨hj, hj'⟩ t.weights).mp
    intro r hr
    exact hrows r (.increment hi ⟨hj, hlast j hj'⟩ hr)
  · intro k b o i hi hl j hj hj' s as has
    have hs : s < t.coupling.length := (List.getElem?_eq_some_iff.mp has).1
    rw [ht.coupling] at hs
    apply (h.stage_iff hz hi hl ⟨hj, hj'⟩ ⟨Nat.le_add_left 1 s, hs⟩ as).mp
    intro r hr
    refine hrows r (.stage hi (h.mem_minorNets.mpr hl) ⟨hj, hlast j hj'⟩ (hstage s hs) ?_)
    rwa [Nat.add_sub_cancel, List.getD_eq_getElem?_getD, has]
  · intro k b hb hk hhold o ho hl j hj hj' s c hc
    have hs : s < t.times.length := (List.getElem?_eq_some_iff.mp hc).1
    rw [ht.times] at hs
    have hh : n.Holds g k b o := ⟨hb, .inl hk, ho, h.mem_minorNets.mpr hl⟩
    have hheld := h.held_iff hz hh ⟨hj, hj'⟩ ⟨Nat.le_add_left 1 s, hs⟩
    rw [hhold, Nat.add_sub_cancel, List.getD_eq_getElem?_getD, hc] at hheld
    apply hheld.mp
    intro r hr
    exact hrows r (.held hh ⟨hj, hlast j hj'⟩ (hstage s hs) hr)
  · intro k b hb hk o ho hl j hj hj' s hs hs'
    have hh : n.Holds g k b o := ⟨hb, (hk.imp_right And.left).symm, ho, h.mem_minorNets.mpr hl⟩
    have hheld := h.held_iff hz hh ⟨hj, hj'⟩ ⟨hs, hs'⟩
    rw [hold_eq_zeroOrder h.wired hb hk] at hheld
    apply hheld.mp
    intro r hr
    exact hrows r (.held hh ⟨hj, hlast j hj'⟩ ⟨hs, h.stages_eq.symm ▸ hs'⟩ hr)

/-- Where the tableau couples the stages with the steps, all coupling rows are zero. -/
theorem OnStages.rows_of_coupled (h : n.OnStages live steps t.stages g) (ht : t.Sized)
    (hz : z.length = g.size) (hc : n.Coupled t dt live steps (g.reading z) (g.stageReading z))
    {r : Terms α} (hr : n.Couples g t dt r) : LinearRows.rowAt (System.point z) r = 0 := by
  have hin {j : Nat} (hj : 1 ≤ j ∧ j ≤ g.intervals) : 1 ≤ j ∧ j < steps := by
    rw [h.intervals_eq] at hj
    have := h.two_le
    omega
  cases hr with
  | @increment k o i j b _ hi hj hr =>
    obtain ⟨v, hv⟩ := hr.exists_first
    obtain ⟨_, _, p, hp, _⟩ := h.expands.liveAt hv
    apply (h.increment_iff hz hi hp (hin hj) t.weights).mpr ?_ r hr
    exact hc.increment k b o i hi p hp j (hin hj).1 (hin hj).2
  | @stage k o i j s b _ hi hm hj hs hr =>
    have hl := h.mem_minorNets.mp hm
    rw [h.stages_eq] at hs
    have hlt : s - 1 < t.coupling.length := by
      rw [ht.coupling]
      omega
    have has := List.getElem?_eq_getElem hlt
    rw [List.getD_eq_getElem _ _ hlt] at hr
    apply (h.stage_iff hz hi hl (hin hj) hs t.coupling[s - 1]).mpr ?_ r hr
    have hstage := hc.stage k b o i hi hl j (hin hj).1 (hin hj).2 (s - 1) _ has
    rwa [Nat.sub_add_cancel hs.1] at hstage
  | @held k o j s b _ hh hj hs hr =>
    have hl := h.mem_minorNets.mp hh.minor
    rw [h.stages_eq] at hs
    apply (h.held_iff hz hh (hin hj) hs).mpr ?_ r hr
    cases hhold : b.hold.getD .zeroOrder with
    | firstOrder =>
      obtain ⟨hk, hb⟩ := hold_eq_firstOrder h.wired hh hhold
      have hlt : s - 1 < t.times.length := by
        rw [ht.times]
        omega
      have hfirst := hc.firstOrder k b hh.block hk hb o hh.output hl j (hin hj).1 (hin hj).2 (s - 1) _
        (List.getElem?_eq_getElem hlt)
      rwa [Nat.sub_add_cancel hs.1, ← List.getD_eq_getElem _ 0 hlt] at hfirst
    | zeroOrder =>
      refine hc.zeroOrder k b hh.block ?_ o hh.output hl j (hin hj).1 (hin hj).2 s hs.1 hs.2
      refine hh.kind.symm.imp_right fun hk => ⟨hk, fun hb => ?_⟩
      rw [hb] at hhold
      cases hhold

end Families

section Equalities

variable [LinearOrder α] [ExactScalar α] {n : Network α} {live : List PhaseSet} {steps stages : Nat}
  {g : Grid α} {t : Tableau α}

/-- With stages the equalities are those of the steps, those of the stages and the coupling rows. -/
theorem OnStages.exists_equalities (h : n.OnStages live steps t.stages g) (dt : α) :
    ∃ (e : Equalities α) (step : System α), (n.equalities g (some t) dt).result = .ok e ∧
      n.stepSystem = .ok step ∧ e.system.width = g.size ∧
        ∀ x, e.system.Vanishes x ↔ (majorSystem g step).Vanishes x ∧
          ((minorSystem g step).Vanishes fun c => x (c + g.majorCount)) ∧
            ∀ r, n.Couples g t dt r → LinearRows.rowAt x r = 0 := by
  obtain ⟨step, hstep, _, hwidth⟩ := h.exists_stepSystem
  obtain ⟨rows, hrows, hmem⟩ := exists_couplingRows h.wired h.single g t dt
  have hpos : g.stages ≠ 0 := by
    rw [h.stages_eq]
    exact Nat.ne_of_gt h.stages_pos
  obtain ⟨e, linear, he, _, hproper, _, hpoly, hsystem⟩ := h.expands.exists_coupled h.steps_pos hstep
    hwidth h.stages_eq hpos hrows fun r hr => (hmem r).mp hr
  have hsides : ∀ s ∈ [(majorSystem g step).join (minorSystem g step), linear], s.Proper :=
    List.forall_mem_cons.mpr ⟨h.expands.proper_sides step, List.forall_mem_singleton.mpr hproper⟩
  refine ⟨e, step, he, hstep, by rw [hsystem]; rfl, fun x => ?_⟩
  have hlinear : linear.Vanishes x ↔ ∀ r ∈ rows, LinearRows.rowAt x r = 0 := by
    rw [System.vanishes_iff, hpoly, List.forall_mem_map]
    simp only [LinearRows.valueAt_poly]
  rw [hsystem, System.vanishes_stacked hsides, List.forall_mem_cons, List.forall_mem_singleton,
    System.vanishes_join (h.expands.proper_majorSystem step), and_assoc, hlinear]
  simp only [hmem]
  rfl

end Equalities

end Network

/-- With a tableau, the residual of the equalities is zero at a point exactly when the values that the
point gives to the nets at the steps and at the stages are those of a collocation. -/
theorem Run.equalities_with_stages [LinearOrder α] [ExactScalar α] {d : Diagram} {hold : Hold}
    {steps count : Nat} {dt : α} {t : Tableau α} {n : Network α}
    (hnotes : (d.trace hold : Noted α (Network α)).notes = [])
    (hmerged : (Run.ofDiagram (.full steps dt hold (some t)) d).merged = some (count, n))
    (hsingle : n.SingleSourced) (hsteps : 2 ≤ steps) (ht : t.Sized) :
    ∃ (live : List PhaseSet) (g : Grid α) (e : Equalities α),
      (Run.ofDiagram (.full steps dt hold (some t)) d).live = some live ∧
      (Run.ofDiagram (.full steps dt hold (some t)) d).grid = some g ∧
      (Run.ofDiagram (.full steps dt hold (some t)) d).equalities = some e ∧ live = n.liveness true ∧
      ∀ z : List α, z.length = g.size → ∃ rs, e.system.residual z = .ok rs ∧
        ((∀ k, n.RegularOn (LiveAt live steps k) (g.reading z k)) →
          (∀ k s, 1 ≤ k → k < steps → 1 ≤ s → s ≤ t.stages →
            n.RegularOn (LiveInStages live) (g.stageReading z k s)) →
          ((∀ r ∈ rs, r = 0) ↔
            n.Collocates t dt live steps (g.reading z) (g.stageReading z))) := by
  obtain ⟨g, hg, hrun⟩ := Run.exists_onGrid hnotes hmerged hsingle (Nat.le_of_succ_le hsteps)
  have h : n.OnStages (n.liveness true) steps t.stages g := ⟨hg, hsteps, ht.stages_pos⟩
  obtain ⟨e, step, he, hstep, hwidth, hvanishes⟩ := h.exists_equalities dt
  obtain ⟨hlive, hgrid, hequalities⟩ := hrun e he
  refine ⟨_, g, e, hlive, hgrid, hequalities, rfl, fun z hz => ?_⟩
  refine ⟨_, Network.residual_of_proper (hz.trans hwidth.symm), fun hmajor hminor => ?_⟩
  have hmajors := h.vanishes_majorSystem hstep (hz ▸ Nat.le_add_right _ _) hmajor
  have hminors := h.vanishes_minorSystem hstep hz hminor
  refine (hvanishes (System.point z)).trans ?_
  rw [hmajors, hminors]
  constructor
  · intro ⟨hsteps, hstages, hrows⟩
    exact ⟨h.coupled_of_rows ht hz hrows, hsteps, hstages⟩
  · intro hc
    exact ⟨hc.major, hc.minor, fun r hr => h.rows_of_coupled ht hz hc.toCoupled hr⟩

/-- The reservoir over four steps, by the trapezoidal rule: its balance is computed in every interval, from
the level there and from an inflow and a release that are held. -/
theorem Run.equalities_with_stages_reservoir :
    (Reservoir.diagram.trace .firstOrder : Noted ℚ _).notes = [] ∧
      (Run.ofDiagram (.full 4 (1 / 2 : ℚ) .firstOrder (some .trapez)) Reservoir.diagram).merged =
        some (4, Reservoir.network) ∧ Reservoir.network.SingleSourced ∧ 2 ≤ 4 ∧
      (Tableau.trapez : Tableau ℚ).Sized ∧
      ∃ (live : List PhaseSet) (g : Grid ℚ) (e : Equalities ℚ),
        (Run.ofDiagram (.full 4 (1 / 2 : ℚ) .firstOrder (some .trapez)) Reservoir.diagram).live =
          some live ∧
        (Run.ofDiagram (.full 4 (1 / 2 : ℚ) .firstOrder (some .trapez)) Reservoir.diagram).grid =
          some g ∧
        (Run.ofDiagram (.full 4 (1 / 2 : ℚ) .firstOrder (some .trapez))
          Reservoir.diagram).equalities = some e ∧
        live = Reservoir.network.liveness true ∧ (∀ net < 4, LiveInStages live net) ∧
        ∀ z : List ℚ, z.length = g.size → ∃ rs, e.system.residual z = .ok rs ∧
          ((∀ k, Reservoir.network.RegularOn (LiveAt live 4 k) (g.reading z k)) →
            (∀ k s, 1 ≤ k → k < 4 → 1 ≤ s → s ≤ (Tableau.trapez : Tableau ℚ).stages →
              Reservoir.network.RegularOn (LiveInStages live) (g.stageReading z k s)) →
            ((∀ r ∈ rs, r = 0) ↔ Reservoir.network.Collocates .trapez (1 / 2) live 4 (g.reading z)
              (g.stageReading z))) := by
  have hnotes := congrArg Noted.notes Reservoir.trace_diagram
  have hmerged := Reservoir.merged_diagram 4 (1 / 2) (some .trapez)
  have hname : Tableau.ofName? "Trapez" = some (Tableau.trapez : Tableau ℚ) := rfl
  have hsized := Tableau.sized_ofName hname
  have hsteps : 2 ≤ 4 := by decide
  obtain ⟨live, g, e, hlive, hgrid, hequalities, rfl, hvanishes⟩ :=
    Run.equalities_with_stages hnotes hmerged Reservoir.singleSourced_network hsteps hsized
  have hstages : ∀ net < 4, LiveInStages (Reservoir.network.liveness true) net := by
    unfold LiveInStages
    decide +kernel
  exact ⟨hnotes, hmerged, Reservoir.singleSourced_network, hsteps, hsized, _, g, e, hlive, hgrid,
    hequalities, rfl, hstages, hvanishes⟩

end Transcription
