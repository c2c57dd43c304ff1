import Transcription.Proofs.Program.Sizes

namespace Transcription

variable {α : Type}

def Row.slice (cols : Nat × Nat) (r : Row α) : Row α :=
  (r.filter fun t => cols.1 ≤ t.1 && t.1 < cols.2).map fun t => (t.1 - cols.1, t.2)

def Matrix.slice (rows cols : Nat × Nat) (m : Matrix α) : Matrix α :=
  ⟨cols.2 - cols.1, ((m.rows.take rows.2).drop rows.1).map (Row.slice cols)⟩

theorem Row.slice_shift {n : Nat} {r : Row α} (h : Row.Within n r) (k : Nat) :
    (Row.shift k r).slice (k, k + n) = r := by
  have hkept : (Row.shift k r).filter (fun t => k ≤ t.1 && t.1 < k + n) = Row.shift k r := by
    refine List.filter_eq_self.mpr (List.forall_mem_map.mpr fun t ht => ?_)
    have := h t ht
    simp only [Bool.and_eq_true, decide_eq_true_eq]
    omega
  rw [Row.slice, hkept, Row.shift, List.map_map]
  simp [Function.comp_def]

theorem Row.slice_whole {n : Nat} {r : Row α} (h : Row.Within n r) : r.slice (0, n) = r := by
  simpa [Row.shift_zero] using Row.slice_shift h 0

namespace Program

def span (ranges : List Nat) (k : Nat) : Nat × Nat := (ranges.getD (2 * k) 0, ranges.getD (2 * k + 1) 0)

/-- Three ranges that cover everything below `n`, each from where the one before it ends. -/
def Tiles (ranges : List Nat) (n : Nat) : Prop := ∃ a b, a ≤ b ∧ b ≤ n ∧ ranges = [0, a, a, b, b, n]

theorem span_ranges_zero (a n : Nat) (ns : List Nat) : span (ranges a (n :: ns)) 0 = (a, a + n) := rfl

theorem span_ranges_succ (a n : Nat) (ns : List Nat) (k : Nat) :
    span (ranges a (n :: ns)) (k + 1) = span (ranges (a + n) ns) k := by
  simp [span, ranges, Nat.mul_succ]

theorem span_ranges_snd {ns : List Nat} {k n : Nat} (h : ns[k]? = some n) (a : Nat) :
    (span (ranges a ns) k).2 = (span (ranges a ns) k).1 + n := by
  induction ns generalizing k a with
  | nil => cases h
  | cons m ns ih =>
    cases k with
    | zero =>
      cases h
      rfl
    | succ k =>
      rw [span_ranges_succ]
      exact ih h (a + m)

/-- Of lists after one another, the range of one is that list. -/
theorem drop_take_ranges {β : Type} {ls : List (List β)} {k : Nat} {l : List β} (h : ls[k]? = some l)
    (before : List β) {s : Nat × Nat} (hs : s = span (ranges before.length (ls.map List.length)) k) :
    ((before ++ ls.flatten).take s.2).drop s.1 = l := by
  subst hs
  induction ls generalizing k before with
  | nil => cases h
  | cons l' ls ih =>
    cases k with
    | zero =>
      cases h
      simp [span_ranges_zero, List.take_append]
    | succ k =>
      have := ih h (before ++ l')
      rwa [List.length_append, List.append_assoc] at this

/-- A member of lists after one another stands in the range of the list it is from. -/
theorem exists_range_of_getElem? {β : Type} {ls : List (List β)} {before : List β} {j : Nat} {b : β}
    (h : (before ++ ls.flatten)[j]? = some b) (hj : before.length ≤ j) :
    ∃ k l, ls[k]? = some l ∧ b ∈ l ∧
      (span (ranges before.length (ls.map List.length)) k).1 ≤ j ∧
      j < (span (ranges before.length (ls.map List.length)) k).2 := by
  induction ls generalizing before with
  | nil =>
    rw [List.flatten_nil, List.append_nil] at h
    have := (List.getElem?_eq_some_iff.mp h).1
    omega
  | cons l ls ih =>
    by_cases hl : j < before.length + l.length
    · refine ⟨0, l, rfl, ?_, hj, hl⟩
      rw [List.getElem?_append_right hj, List.flatten_cons,
        List.getElem?_append_left (Nat.sub_lt_left_of_lt_add hj hl)] at h
      exact List.mem_of_getElem? h
    · rw [List.flatten_cons, ← List.append_assoc] at h
      obtain ⟨k, l', hk, hb, hrange⟩ :=
        ih h (by rw [List.length_append]; exact Nat.le_of_not_lt hl)
      rw [List.length_append] at hrange
      refine ⟨k + 1, l', hk, hb, ?_⟩
      rwa [List.map_cons, span_ranges_succ]

end Program

open Program

namespace Matrix

def segments (a : Nat) (ms : List (Matrix α)) : List (List (Row α)) :=
  ms.mapIdx fun k m => m.rows.map (Row.shift (span (ranges a (ms.map cols)) k).1)

theorem flatten_segments (a : Nat) (ms : List (Matrix α)) : (segments a ms).flatten = place a ms := by
  induction ms generalizing a with
  | nil => rfl
  | cons m ms ih =>
    rw [place, ← ih]
    simp only [segments, List.map_cons, List.mapIdx_cons, List.flatten_cons, span_ranges_zero,
      span_ranges_succ]

theorem length_segments (a : Nat) (ms : List (Matrix α)) :
    (segments a ms).map List.length = ms.map (·.rows.length) := by
  refine List.ext_getElem? fun k => ?_
  simp [segments, Function.comp_def]

variable {ms : List (Matrix α)} {k : Nat} {m : Matrix α}

/-- Cut out at the ranges of one of them, matrices along a diagonal are that matrix. -/
theorem slice_diagonal (hm : ∀ r ∈ m.rows, Row.Within m.cols r) (hk : ms[k]? = some m) :
    (diagonal ms).slice (span (ranges 0 (ms.map (·.rows.length))) k)
      (span (ranges 0 (ms.map cols)) k) = m := by
  have hwidth : (ms.map cols)[k]? = some m.cols := by rw [List.getElem?_map, hk]; rfl
  have hcols := span_ranges_snd hwidth 0
  generalize hs : span (ranges 0 (ms.map cols)) k = s at hcols ⊢
  obtain ⟨start, stop⟩ := s
  obtain rfl : stop = start + m.cols := hcols
  have hsegment : (segments 0 ms)[k]? = some (m.rows.map (Row.shift start)) := by
    rw [segments, List.getElem?_mapIdx, hk, hs]
    rfl
  have hrows := drop_take_ranges hsegment [] rfl
  rw [List.nil_append, flatten_segments, length_segments] at hrows
  rw [slice, Nat.add_sub_cancel_left]
  congr 1
  refine (congrArg (List.map _) hrows).trans ?_
  rw [List.map_map]
  exact (List.map_congr_left fun r hr => Row.slice_shift (hm r hr) start).trans (List.map_id _)

/-- An entry of matrices along a diagonal lies in the ranges of one of them. -/
theorem exists_range_diagonal (hms : ∀ m ∈ ms, ∀ r ∈ m.rows, Row.Within m.cols r) {j : Nat} {r : Row α}
    (hj : (diagonal ms).rows[j]? = some r) {t : Nat × α} (ht : t ∈ r) :
    ∃ k < ms.length,
      ((span (ranges 0 (ms.map (·.rows.length))) k).1 ≤ j ∧
        j < (span (ranges 0 (ms.map (·.rows.length))) k).2) ∧
      (span (ranges 0 (ms.map cols)) k).1 ≤ t.1 ∧ t.1 < (span (ranges 0 (ms.map cols)) k).2 := by
  rw [diagonal, ← flatten_segments] at hj
  rw [← List.nil_append (segments 0 ms).flatten] at hj
  obtain ⟨k, l, hl, hr, hrange⟩ := exists_range_of_getElem? hj (Nat.zero_le j)
  rw [length_segments] at hrange
  rw [segments, List.getElem?_mapIdx] at hl
  obtain ⟨m, hm, rfl⟩ := Option.map_eq_some_iff.mp hl
  obtain ⟨s, hs, rfl⟩ := List.mem_map.mp hr
  obtain ⟨u, hu, rfl⟩ := List.mem_map.mp ht
  have hcol := hms m (List.mem_of_getElem? hm) s hs u hu
  refine ⟨k, (List.getElem?_eq_some_iff.mp hm).1, hrange, Nat.le_add_left _ _, ?_⟩
  have hwidth : (ms.map cols)[k]? = some m.cols := by rw [List.getElem?_map, hm]; rfl
  rw [span_ranges_snd hwidth, Nat.add_comm u.1]
  exact Nat.add_lt_add_left hcol _

/-- Cut out at the range of one of them, matrices below one another are that matrix. -/
theorem slice_stack {n : Nat} (hm : ∀ r ∈ m.rows, Row.Within m.cols r) (hn : m.cols = n)
    (hk : ms[k]? = some m) :
    (stack n ms).slice (span (ranges 0 (ms.map (·.rows.length))) k) (0, n) = m := by
  have hpart : (ms.map rows)[k]? = some m.rows := by rw [List.getElem?_map, hk]; rfl
  have hrows := drop_take_ranges hpart [] rfl
  rw [List.nil_append, ← List.flatMap_def, List.map_map] at hrows
  subst hn
  rw [slice, stack]
  congr 1
  refine (congrArg (List.map _) hrows).trans ?_
  exact (List.map_congr_left fun r hr => Row.slice_whole (hm r hr)).trans (List.map_id _)

end Matrix

namespace Program

variable [Scalar α]

/-- A program whose combined system is cut into its sections by the published ranges. -/
structure Sectioned (p : Program α) : Prop where
  monomials_tiled : Tiles p.monomialRanges p.combined.monomials.length
  rows_tiled : Tiles p.rowRanges p.combined.equations.length
  exponents : ∀ k s, p.sections[k]? = some s →
    p.combined.exponents.slice (span p.monomialRanges k) (0, p.size) = s.exponents
  coefficients : ∀ k s, p.sections[k]? = some s →
    p.combined.coefficients.slice (span p.rowRanges k) (span p.monomialRanges k) = s.coefficients
  /-- Every coefficient is in the rows and over the monomials of one section. -/
  coefficients_inside : ∀ j r, p.combined.coefficients.rows[j]? = some r → ∀ t ∈ r,
    ∃ k < p.sections.length, ((span p.rowRanges k).1 ≤ j ∧ j < (span p.rowRanges k).2) ∧
      (span p.monomialRanges k).1 ≤ t.1 ∧ t.1 < (span p.monomialRanges k).2
  residual : ∀ xs : List α, xs.length = p.size → ∃ cost inequalities equalities,
    p.cost.residual xs = .ok cost ∧ p.inequalities.residual xs = .ok inequalities ∧
      p.equalities.residual xs = .ok equalities ∧
      p.combined.residual xs = .ok (cost ++ inequalities ++ equalities)

theorem tiles_ranges (a b c : Nat) : Tiles (ranges 0 [a, b, c]) (a + b + c) :=
  ⟨a, a + b, Nat.le_add_right _ _, Nat.le_add_right _ _, by simp [ranges]⟩

/-- Sections over the same variables, stacked, are cut apart again by their ranges. -/
theorem sectioned_of_stacked {p : Program α} {n : Nat} (h : ∀ s ∈ p.sections, s.Proper ∧ s.width = n)
    (hp : p.combined = System.stacked n p.sections) : p.Sectioned := by
  have hsize : p.size = n := by rw [size, hp, System.stacked]
  have hmonomials : p.monomialRanges =
      ranges 0 ((p.sections.map System.exponents).map (·.rows.length)) := by
    rw [monomialRanges, List.map_map]
    rfl
  have hcolumns : p.monomialRanges = ranges 0 ((p.sections.map System.coefficients).map Matrix.cols) := by
    rw [monomialRanges, List.map_map]
    rfl
  have hrows : p.rowRanges =
      ranges 0 ((p.sections.map System.coefficients).map (·.rows.length)) := by
    rw [rowRanges, List.map_map]
    rfl
  have hexponents : p.combined.exponents = Matrix.stack n (p.sections.map System.exponents) := by
    rw [hp, System.stacked, System.exponents, Matrix.stack, List.flatMap_map]
    rfl
  have hcoefficients : p.combined.coefficients.rows =
      (Matrix.diagonal (p.sections.map System.coefficients)).rows := by
    rw [hp, System.stacked, System.coefficients]
  exact {
    monomials_tiled := by
      have hlength : p.combined.monomials.length = p.cost.monomials.length +
          p.inequalities.monomials.length + p.equalities.monomials.length := by
        simp [hp, System.stacked, sections, Nat.add_assoc]
      rw [hlength]
      exact tiles_ranges _ _ _
    rows_tiled := by
      have hlength : p.combined.equations.length = p.cost.equations.length +
          p.inequalities.equations.length + p.equalities.equations.length := by
        simp [hp, System.stacked, sections, Matrix.diagonal, Matrix.place, System.coefficients,
          Nat.add_assoc]
      rw [hlength]
      exact tiles_ranges _ _ _
    exponents := fun k s hk => by
      obtain ⟨hs, hwidth⟩ := h s (List.mem_of_getElem? hk)
      rw [hexponents, hmonomials, hsize]
      exact Matrix.slice_stack hs.monomials hwidth (by rw [List.getElem?_map, hk]; rfl)
    coefficients := fun k s hk => by
      obtain ⟨hs, _⟩ := h s (List.mem_of_getElem? hk)
      rw [Matrix.slice, hcoefficients, hrows, hcolumns]
      exact Matrix.slice_diagonal hs.equations (by rw [List.getElem?_map, hk]; rfl)
    coefficients_inside := fun j r hj t ht => by
      rw [hcoefficients] at hj
      rw [hrows, hcolumns, ← List.length_map System.coefficients]
      exact Matrix.exists_range_diagonal
        (List.forall_mem_map.mpr fun s hs => (h s hs).1.equations) hj ht
    residual := fun xs hxs => by
      have hok (s : System α) (hs : s ∈ p.sections) :
          s.residual xs = .ok (s.residualAt (System.point xs)) :=
        System.residual_of_length (hxs.trans (hsize.trans (h s hs).2.symm))
      refine ⟨_, _, _, hok p.cost (by simp [sections]), hok p.inequalities (by simp [sections]),
        hok p.equalities (by simp [sections]), ?_⟩
      rw [System.residual_of_length hxs, hp, System.residualAt_stacked fun s hs => (h s hs).1]
      simp [sections] }

/-- A program is cut into its sections by its ranges, whatever the grid and the equalities are that it
is built over. -/
theorem sectioned_build {m : Network α} {g : Grid α} {equalities : System α} {p : Program α}
    (hlower : g.lower.length = g.size) (hupper : g.upper.length = g.size)
    (hcost : g.cost.length = g.size) (hproper : equalities.Proper) (hwidth : equalities.width = g.size)
    (hp : build m g equalities = .ok p) : p.Sectioned := by
  obtain ⟨combined, hcombined, hp⟩ := except_bind_eq_ok.mp hp
  obtain ⟨rfl, _⟩ := System.combine_eq_ok hcombined
  cases hp
  exact sectioned_of_stacked (proper_sections hlower hupper hcost hproper hwidth) rfl

end Program

namespace Run

variable [Scalar α] {β : Type} {o : RunOptions α} {stage : Stage} {outcome : Noted α β}
  {keep : β → Run α → Run α} {next : β → Run α → Run α} {r : Run α} {p : Program α}

/-- A program that a run has was come to after a stage that succeeded. -/
theorem program_step (h : (step o stage outcome keep next r).program = some p)
    (hkeep : ∀ b r, (keep b r).program = r.program) (hr : r.program = none) :
    ∃ b r', outcome.result = .ok b ∧ r'.program = none ∧ (next b r').program = some p := by
  unfold step at h
  cases hresult : outcome.result with
  | error e =>
    simp only [hresult, hr] at h
    cases h
  | ok b =>
    simp only [hresult] at h
    split at h
    · rw [hkeep, hr] at h
      cases h
    · refine ⟨b, _, rfl, ?_, h⟩
      rw [hkeep, hr]

/-- A program of a run was built from the equalities of a network over a grid. -/
theorem program_eq_some {d : Diagram} (h : (ofDiagram o d).program = some p) :
    ∃ (n : Network α) (g : Grid α) (e : Equalities α) (live : List PhaseSet) (stages : Nat)
      (tableau : Option (Tableau α)),
      (n.expand live o.horizon stages).result = .ok g ∧
        (n.equalities g tableau o.stepSize).result = .ok e ∧ Program.build n g e.system = .ok p := by
  unfold ofDiagram at h
  obtain ⟨_, _, _, hr, h⟩ := program_step h (fun _ _ => rfl) rfl
  obtain ⟨⟨_, n⟩, _, _, hr, h⟩ := program_step h (fun _ _ => rfl) hr
  obtain ⟨⟨tableau, live⟩, _, _, hr, h⟩ := program_step h (fun _ _ => rfl) hr
  obtain ⟨g, _, hg, hr, h⟩ := program_step h (fun _ _ => rfl) hr
  obtain ⟨e, _, he, hr, h⟩ := program_step h (fun _ _ => rfl) hr
  refine ⟨_, g, e, _, _, tableau, hg, he, ?_⟩
  unfold step at h
  cases hp : Program.build (n.withLiveness live) g e.system with
  | error _ =>
    simp only [Noted.ofResult, hp, hr] at h
    cases h
  | ok q =>
    simp only [Noted.ofResult, hp] at h
    split at h <;> exact congrArg Except.ok (Option.some.inj h)

/-- Every program that a run comes to, under any options, is cut into its cost, its inequalities and
its equalities by the ranges it publishes. -/
theorem program_sectioned {d : Diagram} (h : (ofDiagram o d).program = some p) : p.Sectioned := by
  obtain ⟨n, g, e, live, stages, tableau, hg, he, hp⟩ := program_eq_some h
  obtain ⟨steps, hsteps⟩ := Network.exists_steps hg
  rw [hsteps] at hg
  obtain ⟨hweighs, _⟩ := Network.weighs_expand hg
  obtain ⟨hproper, hwidth⟩ := Network.proper_equalities he
  exact Program.sectioned_build hweighs.length_lower hweighs.length_upper hweighs.length_cost hproper
    hwidth hp

/-- The running total over three steps, with stages. -/
theorem program_sectioned_total :
    ∃ p : Program ℚ,
      (ofDiagram (.full 3 (1 / 2 : ℚ) .firstOrder (some .trapez)) RunningTotal.diagram).program =
        some p ∧ p.Sectioned := by
  obtain ⟨_, _, p, hrun⟩ :=
    exists_completion (RunningTotal.merged_diagram 3 (1 / 2) (some .trapez)) (by decide)
  exact ⟨p, hrun.program_eq, program_sectioned hrun.program_eq⟩

end Run

end Transcription
