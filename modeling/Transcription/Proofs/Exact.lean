import Mathlib
import Transcription.Number.Binary64
import Transcription.Scalar

namespace Transcription

/-- A scalar with the operations of an ordered field. A power is that of the field where the
exponent is whole, unless it is a negative power of zero. -/
class ExactScalar (α : Type) [LinearOrder α] extends Field α, Scalar α, IsStrictOrderedRing α where
  exact_lt (a b : α) : Scalar.lt a b = true ↔ a < b
  exact_beq (a b : α) : Scalar.beq a b = true ↔ a = b
  exact_abs (a : α) : Scalar.abs a = |a|
  exact_pow (a : α) (k : ℤ) : a ≠ 0 ∨ 0 ≤ k → Scalar.pow a (k : α) = a ^ k

def rational (x : Float) : ℚ :=
  let p := Binary64.parts x
  (if p.negative then -1 else 1) * p.mantissa * 2 ^ p.exponent

instance : ExactScalar ℚ where
  pow a e := if e.den = 1 then a ^ e.num else 0
  abs a := |a|
  lt a b := decide (a < b)
  beq a b := decide (a = b)
  ofFloat := rational
  exact_lt a b := by simp
  exact_beq a b := by simp
  exact_abs a := rfl
  exact_pow a k _ := by simp

namespace Scalar

variable {α : Type} [LinearOrder α] [ExactScalar α]

theorem lt_iff (a b : α) : lt a b = true ↔ a < b := ExactScalar.exact_lt a b

theorem isZero_iff (a : α) : isZero a = true ↔ a = 0 := ExactScalar.exact_beq a 0

theorem pow_int (a : α) (k : ℤ) (h : a ≠ 0 ∨ 0 ≤ k) : pow a (k : α) = a ^ k :=
  ExactScalar.exact_pow a k h

theorem sum_eq (as : List α) : sum as = as.sum := by
  rw [List.sum_eq_foldl]
  rfl

theorem product_eq (as : List α) : product as = as.prod := by
  rw [List.prod_eq_foldl]
  rfl

theorem map_abs (as : List α) : as.map abs = as.map fun a => |a| :=
  List.map_congr_left fun a _ => ExactScalar.exact_abs a

/-- Magnitudes cannot cancel, so they add up to nothing only when all of them are zero. -/
theorem hasMass_iff (as : List α) : hasMass as = true ↔ ∃ a ∈ as, a ≠ 0 := by
  rw [hasMass, lt_iff, sum_eq, map_abs]
  induction as with
  | nil => simp
  | cons a as ih =>
    have hrest : 0 ≤ (as.map fun a => |a|).sum := List.sum_nonneg (by simp)
    have hhead := abs_nonneg a
    rw [List.map_cons, List.sum_cons, List.exists_mem_cons_iff, ← ih, ← abs_pos]
    constructor
    · intro h
      by_contra hn
      push Not at hn
      linarith
    · rintro (h | h) <;> linarith

end Scalar

end Transcription
