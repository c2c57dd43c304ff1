import Transcription.Proofs.Exact

namespace Transcription.Limit

section Folds

variable {α : Type} [Scalar α]

theorem max_negInf_left (l : Limit α) : negInf.max l = l := by
  cases l <;> rfl

theorem min_posInf_left (l : Limit α) : posInf.min l = l := by
  cases l <;> rfl

theorem max_eq_or (l m : Limit α) : l.max m = l ∨ l.max m = m := by
  unfold Limit.max
  split
  · exact .inr rfl
  · exact .inl rfl

theorem min_eq_or (l m : Limit α) : l.min m = l ∨ l.min m = m := by
  unfold Limit.min
  split
  · exact .inr rfl
  · exact .inl rfl

omit [Scalar α] in
/-- What is one of its two arguments keeps what holds of both. -/
theorem foldl_of_forall {f : Limit α → Limit α → Limit α} (hf : ∀ l m, f l m = l ∨ f l m = m)
    {P : Limit α → Prop} {ls : List (Limit α)} {l : Limit α} (hl : P l) (h : ∀ m ∈ ls, P m) :
    P (ls.foldl f l) := by
  induction ls generalizing l with
  | nil => exact hl
  | cons m ls ih =>
    obtain ⟨hm, hls⟩ := List.forall_mem_cons.mp h
    apply ih ?_ hls
    cases hf l m with
    | inl he => exact he.symm ▸ hl
    | inr he => exact he.symm ▸ hm

theorem foldl_max_ne_posInf {ls : List (Limit α)} (h : ∀ m ∈ ls, m ≠ .posInf) :
    ls.foldl Limit.max .negInf ≠ .posInf := foldl_of_forall max_eq_or nofun h

theorem foldl_min_ne_negInf {ls : List (Limit α)} (h : ∀ m ∈ ls, m ≠ .negInf) :
    ls.foldl Limit.min .posInf ≠ .negInf := foldl_of_forall min_eq_or nofun h

end Folds

variable {α : Type} [LinearOrder α] [ExactScalar α]

def Below : Limit α → α → Prop
  | negInf, _ => True
  | finite a, x => a ≤ x
  | posInf, _ => False

def Above : Limit α → α → Prop
  | negInf, _ => False
  | finite a, x => x ≤ a
  | posInf, _ => True

theorem max_finite (a b : α) : (finite a).max (finite b) = finite (a ⊔ b) := by
  have hlt : (finite a).lt (finite b) = true ↔ a < b := Scalar.lt_iff a b
  by_cases h : a < b
  · rw [Limit.max, if_pos (hlt.mpr h), sup_eq_right.mpr h.le]
  · rw [Limit.max, if_neg (mt hlt.mp h), sup_eq_left.mpr (not_lt.mp h)]

theorem min_finite (a b : α) : (finite a).min (finite b) = finite (a ⊓ b) := by
  have hlt : (finite b).lt (finite a) = true ↔ b < a := Scalar.lt_iff b a
  by_cases h : b < a
  · rw [Limit.min, if_pos (hlt.mpr h), inf_eq_right.mpr h.le]
  · rw [Limit.min, if_neg (mt hlt.mp h), inf_eq_left.mpr (not_lt.mp h)]

theorem below_max {l m : Limit α} {x : α} : (l.max m).Below x ↔ l.Below x ∧ m.Below x := by
  cases l with
  | negInf =>
    rw [max_negInf_left]
    exact (and_iff_right trivial).symm
  | posInf =>
    rw [show posInf.max m = (posInf : Limit α) by cases m <;> rfl]
    exact (and_iff_left_of_imp False.elim).symm
  | finite a =>
    cases m with
    | negInf => exact (and_iff_left trivial).symm
    | posInf => exact (and_iff_right_of_imp False.elim).symm
    | finite b =>
      rw [max_finite]
      exact sup_le_iff

theorem above_min {l m : Limit α} {x : α} : (l.min m).Above x ↔ l.Above x ∧ m.Above x := by
  cases l with
  | posInf =>
    rw [min_posInf_left]
    exact (and_iff_right trivial).symm
  | negInf =>
    rw [show negInf.min m = (negInf : Limit α) by cases m <;> rfl]
    exact (and_iff_left_of_imp False.elim).symm
  | finite a =>
    cases m with
    | posInf => exact (and_iff_left trivial).symm
    | negInf => exact (and_iff_right_of_imp False.elim).symm
    | finite b =>
      rw [min_finite]
      exact le_inf_iff

theorem below_foldl {ls : List (Limit α)} {l : Limit α} {x : α} :
    (ls.foldl Limit.max l).Below x ↔ l.Below x ∧ ∀ m ∈ ls, m.Below x := by
  induction ls generalizing l with
  | nil => simp
  | cons m ls ih => rw [List.foldl_cons, ih, below_max, List.forall_mem_cons, and_assoc]

theorem above_foldl {ls : List (Limit α)} {l : Limit α} {x : α} :
    (ls.foldl Limit.min l).Above x ↔ l.Above x ∧ ∀ m ∈ ls, m.Above x := by
  induction ls generalizing l with
  | nil => simp
  | cons m ls ih => rw [List.foldl_cons, ih, above_min, List.forall_mem_cons, and_assoc]

end Transcription.Limit
