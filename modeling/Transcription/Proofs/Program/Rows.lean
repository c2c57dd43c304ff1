import Mathlib
import Transcription.Program.Rows
import Transcription.Proofs.Poly.Evaluation
import Transcription.Proofs.Wire.Limits

namespace Transcription

namespace Program

section Widths

variable {α : Type} [Scalar α]

theorem width_boundRows (lower upper : List (Limit α)) :
    (boundRows lower upper).width = lower.length := by
  unfold boundRows
  dsimp only
  split <;> rfl

theorem width_costRow (costs : List α) : (costRow costs).width = costs.length := by
  unfold costRow
  dsimp only
  split
  · rfl
  · split
    · rfl
    · rename_i h
      have hnil : costs = [] := by simpa using h
      rw [hnil]
      rfl

end Widths

end Program

variable {α : Type} [LinearOrder α] [ExactScalar α]

namespace Program

section Limits

variable {lower upper : List (Limit α)} {x : Nat → α}

/-- The value of the row of a bound, where its own monomial and the constant one stand. -/
theorem Bound.equationAt_row {m : Nat → α} {b : Bound α} {one own : Nat} {a : α} (hown : m own = a)
    (hone : m one = 1) : System.equationAt m (b.row one own) = b.sign * a + b.constant := by
  rw [Bound.row, System.equationAt_compact, System.equationAt_cons, System.equationAt_cons,
    System.equationAt_nil, hown, hone, mul_one, add_zero]

theorem residualAt_boundRows (lower upper : List (Limit α)) (x : Nat → α) :
    (boundRows lower upper).residualAt x =
      (bounds lower upper).map fun b => b.sign * x b.column + b.constant := by
  unfold boundRows
  dsimp only
  split
  · rename_i h
    rw [List.isEmpty_iff.mp h]
    rfl
  rw [System.residualAt_eq]
  generalize hm : System.monomialsFrom _ x = m
  have hmonomials (k : Nat) : m k =
      ((bounds lower upper).map (fun b : Bound α => x b.column) ++ [1]).getD k 0 := by
    rw [← hm, System.monomialsFrom]
    simp [System.monomialsAt, Function.comp_def, System.monomialAt_single, System.monomialAt_nil]
  apply List.ext_getElem?
  intro k
  simp only [List.getElem?_map, List.getElem?_zipIdx, Option.map_map]
  cases hk : (bounds lower upper)[k]? with
  | none => rfl
  | some b =>
    refine congrArg some (Bound.equationAt_row ?_ ?_)
    · rw [hmonomials, List.getD_append _ _ _ _ (by simpa using (List.getElem?_eq_some_iff.mp hk).1)]
      simp [hk]
    · rw [hmonomials, List.getD_append_right _ _ _ _ (by simp)]
      simp

omit [LinearOrder α] [ExactScalar α] in
theorem mem_finiteLimits {limits : List (Limit α)} {i : Nat} {a : α} :
    (i, a) ∈ finiteLimits limits ↔ limits[i]? = some (.finite a) := by
  simp only [finiteLimits, List.mem_filterMap, Prod.exists, List.mem_zipIdx_iff_getElem?,
    Option.map_eq_some_iff, Prod.mk.injEq]
  constructor
  · rintro ⟨l, _, hl, b, hb, rfl, rfl⟩
    cases l <;> cases hb
    exact hl
  · intro h
    exact ⟨_, i, h, a, rfl, rfl, rfl⟩

theorem forall_below_iff (h : ∀ l ∈ lower, l ≠ .posInf) :
    (∀ (i : Nat) l, lower[i]? = some l → l.Below (x i)) ↔
      ∀ e ∈ finiteLimits lower, -1 * x e.1 + e.2 ≤ 0 := by
  constructor
  · rintro hall ⟨i, a⟩ he
    have hle : a ≤ x i := hall i _ (mem_finiteLimits.mp he)
    linarith
  · intro hall i l hl
    cases l with
    | negInf => trivial
    | posInf => exact h _ (List.mem_of_getElem? hl) rfl
    | finite a =>
      have hle := hall (i, a) (mem_finiteLimits.mpr hl)
      change a ≤ x i
      linarith

theorem forall_above_iff (h : ∀ u ∈ upper, u ≠ .negInf) :
    (∀ (i : Nat) u, upper[i]? = some u → u.Above (x i)) ↔
      ∀ e ∈ finiteLimits upper, 1 * x e.1 + -e.2 ≤ 0 := by
  constructor
  · rintro hall ⟨i, a⟩ he
    have hle : x i ≤ a := hall i _ (mem_finiteLimits.mp he)
    linarith
  · intro hall i u hu
    cases u with
    | posInf => trivial
    | negInf => exact h _ (List.mem_of_getElem? hu) rfl
    | finite a =>
      have hle := hall (i, a) (mem_finiteLimits.mpr hu)
      change x i ≤ a
      linarith

/-- Where no limit excludes all numbers by itself, the rows of bounds hold exactly within all of
them. -/
theorem residualAt_boundRows_nonpos (hlower : ∀ l ∈ lower, l ≠ .posInf)
    (hupper : ∀ u ∈ upper, u ≠ .negInf) : (∀ a ∈ (boundRows lower upper).residualAt x, a ≤ 0) ↔
      (∀ (i : Nat) l, lower[i]? = some l → l.Below (x i)) ∧
        ∀ (i : Nat) u, upper[i]? = some u → u.Above (x i) := by
  rw [residualAt_boundRows, List.forall_mem_map, bounds, List.forall_mem_append, List.forall_mem_map,
    List.forall_mem_map, forall_below_iff hlower, forall_above_iff hupper, and_comm]

end Limits

/-- Variables that cost nothing may be left out. -/
theorem sum_weighted (es : List (α × Nat)) (x : Nat → α) :
    ((es.filter fun e => !Scalar.isZero e.1).map fun e => e.1 * x e.2).sum =
      (es.map fun e => e.1 * x e.2).sum := by
  induction es with
  | nil => rfl
  | cons e es ih =>
    rw [List.filter_cons]
    split
    · rw [List.map_cons, List.map_cons, List.sum_cons, List.sum_cons, ih]
    · rename_i hz
      have hz' : e.1 = 0 := (Scalar.isZero_iff e.1).mp (by simpa using hz)
      rw [List.map_cons, List.sum_cons, hz', zero_mul, zero_add, ih]

/-- The row of costs: nothing without variables, and their sum otherwise. -/
theorem residualAt_costRow (costs : List α) (x : Nat → α) : (costRow costs).residualAt x =
    if costs = [] then [] else [(costs.zipIdx.map fun e => e.1 * x e.2).sum] := by
  rw [← sum_weighted]
  unfold costRow
  dsimp only
  generalize hw : costs.zipIdx.filter (fun e => !Scalar.isZero e.1) = weighted
  split
  · rename_i h
    have hne : costs ≠ [] := by
      rintro rfl
      rw [← hw] at h
      cases h
    rw [if_neg hne, System.residualAt_eq]
    generalize hm : System.monomialsFrom _ x = m
    -- the monomial of a term stands where the term does
    have hmonomials (k : Nat) : m k = (weighted.map fun e => x e.2).getD k 0 := by
      rw [← hm, System.monomialsFrom]
      simp [System.monomialsAt, Function.comp_def, System.monomialAt_single]
    refine congrArg (fun a => [a]) ?_
    rw [System.equationAt_eq, List.map_map]
    refine congrArg List.sum (List.ext_getElem? fun k => ?_)
    rw [List.getElem?_map, List.getElem?_map, List.getElem?_zipIdx, Option.map_map]
    cases hk : weighted[k]? with
    | none => rfl
    | some e => simp [hmonomials, hk]
  · rename_i h
    have hnil : weighted = [] := by simpa using h
    split
    · rename_i hne
      rw [if_neg (by simpa using hne), hnil]
      rfl
    · rename_i hne
      rw [if_pos (by simpa using hne)]
      rfl

end Program

end Transcription
