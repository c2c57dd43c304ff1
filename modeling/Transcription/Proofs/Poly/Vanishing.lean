import Transcription.Proofs.Poly.Polynomials

namespace Transcription

variable {α : Type}

namespace System

section Moved

variable [Scalar α]

def moved (s : System α) (targets : List Nat) (n : Nat) : System α :=
  ⟨n, s.monomials.map (Row.relabel fun c => targets.getD c 0), s.equations⟩

theorem relabel_eq {s : System α} {targets : List Nat} {n : Nat} (hlen : targets.length = s.width)
    (hin : ∀ c ∈ targets, c < n) : s.relabel targets n = .ok (s.moved targets n) := by
  rw [relabel, if_pos hlen, if_pos (List.all_eq_true.mpr fun c hc => decide_eq_true (hin c hc))]
  simp only [getD_toArray]
  rfl

theorem polynomials_moved (s : System α) (targets : List Nat) (n : Nat) :
    (s.moved targets n).polynomials = s.polynomials.map fun p =>
      p.map fun t => (t.1, Row.relabel (fun c => targets.getD c 0) t.2) := by
  simp only [polynomials, moved, List.map_map]
  refine List.map_congr_left fun r _ => ?_
  simp only [terms, Function.comp_apply, List.map_filterMap, List.getElem?_map]
  refine List.filterMap_congr fun t _ => ?_
  cases s.monomials[t.1]? <;> rfl

theorem Proper.moved {s : System α} (hs : s.Proper) {targets : List Nat} {n : Nat}
    (hlen : targets.length = s.width) (hin : ∀ c ∈ targets, c < n) :
    (s.moved targets n).Proper where
  monomials r hr := by
    obtain ⟨m, hm, rfl⟩ := List.mem_map.mp hr
    refine Row.within_relabel fun e he => ?_
    have hlt : e.1 < targets.length := by
      rw [hlen]
      exact hs.monomials m hm e he
    rw [List.getD_eq_getElem _ _ hlt]
    exact hin _ (List.getElem_mem hlt)
  equations r hr := by
    rw [show (s.moved targets n).monomials.length = s.monomials.length by simp [System.moved]]
    exact hs.equations r hr

end Moved

section Closed

variable [Scalar α]

/-- Expressions with each output taken away from the value that defines it. -/
def closed (s : System α) : System α :=
  let n := s.equations.length
  ⟨s.width + n, (Matrix.diagonal [s.exponents, Matrix.identity n]).rows,
    (s.coefficients.beside ⟨n, (List.range n).map fun i => [(i, -1)]⟩).rows⟩

theorem appendOutputs_eq (s : System α) : s.appendOutputs s.equations.length = .ok s.closed := by
  rw [appendOutputs, if_pos rfl]
  rfl

theorem monomials_closed (s : System α) :
    s.closed.monomials =
      s.monomials ++ (List.range s.equations.length).map fun i => [(i + s.width, 1)] := by
  simp [closed, Matrix.diagonal, Matrix.place, exponents, Matrix.identity, Row.map_shift_zero,
    Row.shift]

theorem equations_closed (s : System α) (j : Nat) :
    s.closed.equations[j]? =
      (s.equations[j]?).map fun r => r ++ [(j + s.monomials.length, -1)] := by
  rw [show s.closed.equations = List.zipWith (fun r q => r ++ Row.shift s.monomials.length q)
    s.equations ((List.range s.equations.length).map fun i => [(i, -1)]) from rfl]
  rw [List.getElem?_zipWith]
  by_cases hj : j < s.equations.length
  · simp [hj, Row.shift]
  · simp [hj]

theorem length_closed (s : System α) : s.closed.equations.length = s.equations.length := by
  rw [show s.closed.equations = List.zipWith (fun r q => r ++ Row.shift s.monomials.length q)
    s.equations ((List.range s.equations.length).map fun i => [(i, -1)]) from rfl]
  simp

theorem Proper.closed {s : System α} (hs : s.Proper) : s.closed.Proper where
  monomials r hr := by
    rw [monomials_closed] at hr
    rcases List.mem_append.mp hr with h | h
    · exact (hs.monomials r h).mono (Nat.le_add_right _ _)
    · obtain ⟨i, hi, rfl⟩ := List.mem_map.mp h
      have := List.mem_range.mp hi
      intro e he
      obtain rfl := List.mem_singleton.mp he
      change i + s.width < s.width + s.equations.length
      omega
  equations r hr := by
    have hlen : s.closed.monomials.length = s.monomials.length + s.equations.length := by
      simp [monomials_closed]
    obtain ⟨j, hj⟩ := List.mem_iff_getElem?.mp hr
    rw [equations_closed] at hj
    obtain ⟨q, hq, rfl⟩ := Option.map_eq_some_iff.mp hj
    have hlt := (List.getElem?_eq_some_iff.mp hq).1
    rw [hlen]
    intro e he
    rcases List.mem_append.mp he with h | h
    · exact Nat.lt_of_lt_of_le (hs.equations q (List.mem_of_getElem? hq) e h) (Nat.le_add_right _ _)
    · obtain rfl := List.mem_singleton.mp h
      change j + s.monomials.length < _
      omega

/-- Each polynomial gets one more term, which takes its output away. -/
theorem polynomials_closed {s : System α} (hs : s.Proper) (j : Nat) :
    s.closed.polynomials[j]? =
      (s.polynomials[j]?).map fun p => p ++ [(-1, [(j + s.width, 1)])] := by
  rw [polynomials, polynomials, List.getElem?_map, List.getElem?_map, equations_closed]
  cases hq : s.equations[j]? with
  | none => rfl
  | some q =>
    have hlt := (List.getElem?_eq_some_iff.mp hq).1
    have hleft : s.closed.terms q = s.terms q :=
      List.filterMap_congr fun t ht => by
        rw [monomials_closed, List.getElem?_append_left (hs.equations q (List.mem_of_getElem? hq) t ht)]
    have hright : s.closed.terms [(j + s.monomials.length, -1)] = [(-1, [(j + s.width, 1)])] := by
      have : s.closed.monomials[j + s.monomials.length]? = some [(j + s.width, 1)] := by
        rw [monomials_closed, List.getElem?_append_right (Nat.le_add_left _ _), Nat.add_sub_cancel]
        simp [hlt]
      simp [terms, this]
    rw [Option.map_some, Option.map_some, Option.map_some, ← hleft, ← hright]
    exact congrArg some List.filterMap_append

end Closed

variable [LinearOrder α] [ExactScalar α]

/-- A system with its columns moved leaves what the system leaves at the moved point. -/
theorem residualAt_moved_of_regular {s : System α} {targets : List Nat} {n : Nat} {x : Nat → α}
    (hr : s.Regular fun c => x (targets.getD c 0)) :
    (s.moved targets n).residualAt x = s.residualAt fun c => x (targets.getD c 0) := by
  rw [residualAt_polynomials, residualAt_polynomials, polynomials_moved, List.map_map]
  exact List.map_congr_left fun p hp => Poly.valueAt_relabel (hr p hp)

/-- Moving columns moves the points at which a system vanishes. -/
theorem vanishes_moved {s : System α} {targets : List Nat} {n : Nat} {x : Nat → α}
    (hr : s.Regular fun c => x (targets.getD c 0)) :
    (s.moved targets n).Vanishes x ↔ s.Vanishes fun c => x (targets.getD c 0) := by
  rw [Vanishes, residualAt_moved_of_regular hr, Vanishes]

theorem touches_iff (p : Nat → Bool) (r : Row α) :
    touches p r = true ↔ ∃ t ∈ r, p t.1 = true ∧ t.2 ≠ 0 := by
  rw [touches, Scalar.hasMass_iff]
  simp only [List.mem_map, List.mem_filter]
  constructor
  · rintro ⟨_, ⟨t, ⟨ht, hp⟩, rfl⟩, h⟩
    exact ⟨t, ht, hp, h⟩
  · rintro ⟨t, ht, hp, h⟩
    exact ⟨_, ⟨t, ⟨ht, hp⟩, rfl⟩, h⟩

abbrev Kept (keep : List Bool) (c : Nat) : Prop := keep.getD c false = true

theorem removed_iff (s : System α) (keep : List Bool) (i : Nat) :
    (removed s keep).getD i false = true ↔
      ∃ m, s.monomials[i]? = some m ∧ ∃ e ∈ m, ¬ Kept keep e.1 ∧ e.2 ≠ 0 := by
  rw [removed, List.getD_eq_getElem?_getD, List.getElem?_map]
  cases s.monomials[i]? with
  | none => simp
  | some m => simp [touches_iff, Kept]

/-- An equation is kept when its polynomial has no weight on a variable that goes. -/
theorem touches_removed {s : System α} {keep : List Bool} {r : Row α} :
    (!touches (fun m => (removed s keep).getD m false) r) = true ↔ (s.terms r).Over (Kept keep) := by
  rw [Bool.not_eq_true', ← Bool.not_eq_true, touches_iff]
  constructor
  · intro h t ht hk e he hz
    obtain ⟨i, hi, hm⟩ := mem_terms.mp ht
    by_contra hn
    exact h ⟨_, hi, (removed_iff s keep i).mpr ⟨_, hm, e, he, hn, hz⟩, hk⟩
  · rintro h ⟨t, ht, hrem, hk⟩
    obtain ⟨m, hm, e, he, hn, hz⟩ := (removed_iff s keep t.1).mp hrem
    exact hn (h (t.2, m) (mem_terms.mpr ⟨t.1, ht, hm⟩) hk e he hz)

theorem mem_keptEquations {s : System α} {keep : List Bool} {r : Row α} :
    r ∈ keptEquations s keep ↔ r ∈ s.equations ∧ (s.terms r).Over (Kept keep) :=
  List.mem_filter.trans (and_congr_right fun _ => touches_removed)

/-- A monomial is kept when an equation that is kept has weight on it. -/
theorem used_of_mem {s : System α} (hs : s.Proper) {keep : List Bool} {r : Row α}
    (hr : r ∈ keptEquations s keep) {t : Nat × α} (ht : t ∈ r) (hk : t.2 ≠ 0) :
    (usedMonomials s keep).getD t.1 false = true := by
  have hlt := within_keptEquations hs r hr t ht
  have hused : touches (· = t.1) (keptEquations s keep).flatten = true :=
    (touches_iff _ _).mpr ⟨t, List.mem_flatten.mpr ⟨r, hr, ht⟩, by simp, hk⟩
  have hrem : (removed s keep).getD t.1 false = false := by
    rw [← Bool.not_eq_true, removed_iff]
    rintro ⟨m, hm, e, he, hn, hz⟩
    exact hn ((mem_keptEquations.mp hr).2 (t.2, m) (mem_terms.mpr ⟨t.1, ht, hm⟩) hk e he hz)
  have hlt' : t.1 < (removed s keep).length := by rw [length_removed]; exact hlt
  rw [List.getD_eq_getElem _ _ hlt'] at hrem
  have hlu : t.1 < (usedMonomials s keep).length := by rw [length_usedMonomials]; exact hlt
  rw [List.getD_eq_getElem _ _ hlu]
  simp [usedMonomials, usedColumns, hused, hrem]

theorem not_removed_of_used {s : System α} {keep : List Bool} {i : Nat}
    (h : (usedMonomials s keep).getD i false = true) : (removed s keep).getD i false = false := by
  unfold usedMonomials at h
  rw [List.getD_eq_getElem?_getD, List.getElem?_zipWith] at h
  rw [List.getD_eq_getElem?_getD]
  cases hu : (usedColumns s.monomials.length (keptEquations s keep))[i]? with
  | none => simp [hu] at h
  | some u =>
    cases hv : (removed s keep)[i]? with
    | none => rfl
    | some v => simp_all

/-- A monomial without the variables that go has its value at the point without them. -/
theorem monomialAt_pick {keep : List Bool} {x y : Nat → α} {r : Row α}
    (hxy : ∀ c, Kept keep c → y ((keep.take c).count true) = x c)
    (h : ∀ e ∈ r, e.2 ≠ 0 → Kept keep e.1) : monomialAt y (Row.pick keep r) = monomialAt x r := by
  induction r with
  | nil => rfl
  | cons e r ih =>
    obtain ⟨he, hr⟩ := List.forall_mem_cons.mp h
    rw [monomialAt_cons, ← ih hr]
    by_cases hk : Kept keep e.1
    · rw [Row.pick, List.filter_cons, if_pos hk, List.map_cons, monomialAt_cons, hxy e.1 hk]
      rfl
    · have hz : e.2 = 0 := by
        by_contra hz
        exact hk (he hz)
      rw [Row.pick, List.filter_cons, if_neg hk, hz, pow_zero_eq, one_mul]
      rfl

theorem regular_pick {keep : List Bool} {x y : Nat → α} {r : Row α}
    (hxy : ∀ c, Kept keep c → y ((keep.take c).count true) = x c) (h : Row.Regular x r) :
    Row.Regular y (Row.pick keep r) := by
  intro t ht
  obtain ⟨e, he, rfl⟩ := List.mem_map.mp ht
  obtain ⟨hmem, hk⟩ := List.mem_filter.mp he
  obtain ⟨k, hk', hx⟩ := h e hmem
  exact ⟨k, hk', by rw [hxy e.1 hk]; exact hx⟩

/-- The terms of an equation of a restriction are those of a kept equation, on kept monomials. -/
theorem terms_cut (s : System α) (keep : List Bool) (r : Row α) :
    (s.cut keep).terms (Row.pick (usedMonomials s keep) r) =
      (s.terms (r.filter fun t => (usedMonomials s keep).getD t.1 false)).map fun t =>
        (t.1, Row.pick keep t.2) := by
  simp only [terms, Row.pick, List.filterMap_map, List.map_filterMap]
  refine List.filterMap_congr fun t ht => ?_
  have hu := (List.mem_filter.mp ht).2
  simp only [Function.comp_apply, cut, List.getElem?_map,
    getElem?_select (length_usedMonomials s keep) hu]
  cases s.monomials[t.1]? <;> rfl

theorem mem_polynomials_cut {s : System α} {keep : List Bool} {p : Poly α} :
    p ∈ (s.cut keep).polynomials ↔ ∃ r ∈ s.equations, (s.terms r).Over (Kept keep) ∧
      p = (s.terms (r.filter fun t => (usedMonomials s keep).getD t.1 false)).map fun t =>
        (t.1, Row.pick keep t.2) := by
  rw [mem_polynomials]
  constructor
  · rintro ⟨q, hq, rfl⟩
    obtain ⟨r, hr, rfl⟩ := List.mem_map.mp hq
    obtain ⟨hmem, hover⟩ := mem_keptEquations.mp hr
    exact ⟨r, hmem, hover, terms_cut s keep r⟩
  · rintro ⟨r, hr, hover, rfl⟩
    exact ⟨_, List.mem_map_of_mem (mem_keptEquations.mpr ⟨hr, hover⟩), terms_cut s keep r⟩

/-- Dropping monomials without weight and columns that go changes no value. -/
theorem valueAt_kept {s : System α} (hs : s.Proper) {keep : List Bool} {x y : Nat → α} {r : Row α}
    (hxy : ∀ c, Kept keep c → y ((keep.take c).count true) = x c)
    (hr : r ∈ keptEquations s keep) :
    Poly.valueAt y ((s.terms (r.filter fun t => (usedMonomials s keep).getD t.1 false)).map fun t =>
      (t.1, Row.pick keep t.2)) = (s.terms r).valueAt x := by
  have hall : ∀ t ∈ r, t.2 ≠ 0 → (usedMonomials s keep).getD t.1 false = true :=
    fun t ht hk => used_of_mem hs hr ht hk
  clear hr
  induction r with
  | nil => rfl
  | cons t r ih =>
    obtain ⟨ht, hr⟩ := List.forall_mem_cons.mp hall
    have hcons (q : Row α) : s.terms (t :: q) = s.terms [t] ++ s.terms q :=
      List.filterMap_append (l := [t])
    rw [hcons r, Poly.valueAt_append, ← ih hr, List.filter_cons]
    split
    · rename_i hu
      rw [hcons, List.map_append, Poly.valueAt_append]
      congr 1
      have hrem := not_removed_of_used hu
      cases hm : s.monomials[t.1]? with
      | none => simp [terms, hm, Poly.valueAt]
      | some m =>
        have hover : ∀ e ∈ m, e.2 ≠ 0 → Kept keep e.1 := by
          intro e he hz
          by_contra hn
          rw [(removed_iff s keep t.1).mpr ⟨m, hm, e, he, hn, hz⟩] at hrem
          cases hrem
        simp [terms, hm, Poly.valueAt, monomialAt_pick hxy hover]
    · rename_i hu
      have hz : t.2 = 0 := by
        by_contra hz
        exact hu (ht hz)
      have : (s.terms [t]).valueAt x = 0 := by
        rw [valueAt_terms, equationAt_cons, hz, zero_mul, zero_add, equationAt_nil]
      rw [this, zero_add]

/-- A restriction vanishes at a point without the variables that go exactly when those polynomials
do that have no weight on them. -/
theorem vanishes_trimmed {s : System α} (hs : s.Proper) {keep : List Bool} {x y : Nat → α}
    (hxy : ∀ c, Kept keep c → y ((keep.take c).count true) = x c) :
    (s.trimmed keep).Vanishes y ↔
      ∀ p ∈ s.polynomials, p.Over (Kept keep) → p.valueAt x = 0 := by
  unfold trimmed
  split
  · rename_i he
    have : s.polynomials = [] := by
      simp only [isEmpty, List.isEmpty_iff] at he
      simp [polynomials, he]
    simp [vanishes_empty, this]
  · rw [vanishes_iff]
    constructor
    · intro h p hp hover
      obtain ⟨r, hr, rfl⟩ := mem_polynomials.mp hp
      rw [← valueAt_kept hs hxy (mem_keptEquations.mpr ⟨hr, hover⟩)]
      exact h _ (mem_polynomials_cut.mpr ⟨r, hr, hover, rfl⟩)
    · intro h p hp
      obtain ⟨r, hr, hover, rfl⟩ := mem_polynomials_cut.mp hp
      rw [valueAt_kept hs hxy (mem_keptEquations.mpr ⟨hr, hover⟩)]
      exact h _ (mem_polynomials.mpr ⟨r, hr, rfl⟩) hover

theorem regular_trimmed {s : System α} {keep : List Bool} {x y : Nat → α}
    (hxy : ∀ c, Kept keep c → y ((keep.take c).count true) = x c)
    (hr : ∀ p ∈ s.polynomials, p.Over (Kept keep) → p.Regular x) : (s.trimmed keep).Regular y := by
  unfold trimmed
  split
  · simp [Regular, polynomials_empty]
  · intro p hp t ht
    obtain ⟨r, hmem, hover, rfl⟩ := mem_polynomials_cut.mp hp
    obtain ⟨u, hu, rfl⟩ := List.mem_map.mp ht
    obtain ⟨i, hi, hm⟩ := mem_terms.mp hu
    have hu' : u ∈ s.terms r := mem_terms.mpr ⟨i, (List.mem_filter.mp hi).1, hm⟩
    exact regular_pick hxy (hr _ (mem_polynomials.mpr ⟨r, hmem, rfl⟩) hover u hu')

end System

end Transcription
