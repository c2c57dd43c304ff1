import Transcription.Proofs.Poly.Folding
import Transcription.Poly.Tape

namespace Transcription

variable {α : Type} [LinearOrder α] [ExactScalar α]

namespace Row

def entry (r : Row α) (c : Nat) : α := System.equationAt (System.only c) r

theorem entry_cons (t : Nat × α) (r : Row α) (c : Nat) :
    entry (t :: r) c = (if t.1 = c then t.2 else 0) + entry r c := by
  rw [entry, System.equationAt_cons, System.only, mul_ite, mul_one, mul_zero]
  rfl

/-- What adds up in a column is whole, and negative only where the variable is not zero. -/
theorem Regular.entry {x : Nat → α} {r : Row α} (h : Regular x r) (c : Nat) :
    Regular x [(c, r.entry c)] := by
  induction r with
  | nil =>
    intro t ht
    rw [List.mem_singleton.mp ht]
    exact ⟨0, by simp [Row.entry, System.equationAt_nil], .inr le_rfl⟩
  | cons t r ih =>
    obtain ⟨ht, hr⟩ := regular_cons.mp h
    rw [entry_cons]
    split
    · rename_i hc
      exact (System.pow_add_eq (ih hr) (hc ▸ ht)).1
    · rw [zero_add]
      exact ih hr

end Row

def Matrix.entry (m : Matrix α) (i j : Nat) : α := Row.entry (m.rows.getD i []) j

namespace System

open Row

/-- An equation adds up what stands in its columns. -/
theorem equationAt_eq_sum {n : Nat} {r : Row α} (h : Within n r) (m : Nat → α) :
    equationAt m r = ∑ c : Fin n, entry r c * m c := by
  induction r with
  | nil => simp [equationAt_nil, entry]
  | cons t r ih =>
    obtain ⟨ht, hr⟩ := List.forall_mem_cons.mp h
    have hown : ∑ c : Fin n, (if t.1 = c then t.2 else 0) * m c = t.2 * m t.1 := by
      rw [Finset.sum_eq_single ⟨t.1, ht⟩]
      · rw [if_pos rfl]
      · intro c _ hc
        rw [if_neg fun he => hc (Fin.ext he.symm), zero_mul]
      · exact fun hmem => absurd (Finset.mem_univ _) hmem
    simp only [equationAt_cons, ih hr, entry_cons, add_mul, Finset.sum_add_distrib, hown]

/-- A factor before a row goes to the power of its column, if that is one of those multiplied. -/
theorem prod_entry_cons {n : Nat} {x : Nat → α} {t : Nat × α} {r : Row α} (h : Row.Regular x (t :: r))
    {c : Fin n} (hc : t.1 = c) (cs : Finset (Fin n)) :
    ∏ d ∈ cs, Scalar.pow (x d) (entry (t :: r) d) =
      (if c ∈ cs then Scalar.pow (x c) t.2 else 1) * ∏ d ∈ cs, Scalar.pow (x d) (entry r d) := by
  obtain ⟨ht, hr⟩ := regular_cons.mp h
  have hsplit (d : Fin n) : Scalar.pow (x d) (entry (t :: r) d) =
      (if c = d then Scalar.pow (x d) t.2 else 1) * Scalar.pow (x d) (entry r d) := by
    rw [entry_cons, hc]
    by_cases hd : c = d
    · subst hd
      rw [if_pos rfl, if_pos rfl]
      exact (pow_add_eq (hr.entry c) (hc ▸ ht)).2
    · rw [if_neg fun he => hd (Fin.ext he), if_neg hd, zero_add, one_mul]
  rw [Finset.prod_congr rfl fun d _ => hsplit d, Finset.prod_mul_distrib, Finset.prod_ite_eq]

/-- A monomial multiplies the powers of its columns. -/
theorem monomialAt_eq_prod {n : Nat} {x : Nat → α} {r : Row α} (h : Within n r) (hr : Row.Regular x r) :
    monomialAt x r = ∏ c : Fin n, Scalar.pow (x c) (entry r c) := by
  induction r with
  | nil => simp [monomialAt_nil, entry, equationAt_nil, pow_zero_eq]
  | cons t r ih =>
    obtain ⟨ht, hwithin⟩ := List.forall_mem_cons.mp h
    rw [prod_entry_cons hr (c := ⟨t.1, ht⟩) rfl, if_pos (Finset.mem_univ _), monomialAt_cons,
      ih hwithin (regular_cons.mp hr).2]

/-- The product rule for two powers of one variable. -/
theorem slope_add {x : Nat → α} {c : Nat} {a b : α} (ha : Row.Regular x [(c, a)])
    (hb : Row.Regular x [(c, b)]) :
    a * Scalar.pow (x c) (a - 1) * Scalar.pow (x c) b + Scalar.pow (x c) a * (b * Scalar.pow (x c) (b - 1)) =
      (a + b) * Scalar.pow (x c) (a + b - 1) := by
  obtain ⟨i, hi, hxi⟩ := ha _ List.mem_cons_self
  obtain ⟨j, hj, hxj⟩ := hb _ List.mem_cons_self
  simp only at hi hj hxi hxj
  subst hi hj
  by_cases hx : x c = 0
  · have hi := hxi.resolve_left (not_not.mpr hx)
    have hj := hxj.resolve_left (not_not.mpr hx)
    -- a positive power of zero is zero, and where there is none the other power stands alone
    have hvanish {k : ℤ} (hk : 0 < k) : Scalar.pow (x c) (k : α) = 0 := by
      rw [Scalar.pow_int _ _ (.inr hk.le), hx, zero_zpow k hk.ne']
    rcases hi.eq_or_lt with rfl | hi
    · simp [pow_zero_eq]
    · rcases hj.eq_or_lt with rfl | hj
      · simp [pow_zero_eq]
      · have hsum := hvanish (k := i + j - 1) (by omega)
        push_cast at hsum
        rw [hvanish hi, hvanish hj, hsum]
        ring
  · have hpow (k : ℤ) : Scalar.pow (x c) (k : α) = x c ^ k := Scalar.pow_int _ _ (.inl hx)
    have hless (k : ℤ) : Scalar.pow (x c) ((k : α) - 1) = x c ^ (k - 1) := by
      rw [← hpow]
      push_cast
      rfl
    have hsum := hless (i + j)
    push_cast at hsum
    have hfirst : x c ^ (i - 1) * x c ^ j = x c ^ (i + j - 1) := by
      rw [← zpow_add₀ hx, sub_add_eq_add_sub]
    have hsecond : x c ^ i * x c ^ (j - 1) = x c ^ (i + j - 1) := by
      rw [← zpow_add₀ hx, add_sub_assoc]
    rw [hpow, hpow, hless, hless, hsum]
    linear_combination (i : α) * hfirst + (j : α) * hsecond

end System

namespace Dual

omit [LinearOrder α] [ExactScalar α] in
theorem ext {a b : Dual α} (hvalue : a.value = b.value) (hslope : a.slope = b.slope) : a = b := by
  cases a
  cases b
  cases hvalue
  cases hslope
  rfl

instance : CommMonoid (Dual α) where
  mul := mul
  one := one
  mul_assoc a b c := ext (mul_assoc _ _ _) (by
    change (a.slope * b.value + a.value * b.slope) * c.value + a.value * b.value * c.slope =
      a.slope * (b.value * c.value) + a.value * (b.slope * c.value + b.value * c.slope)
    ring)
  one_mul a := ext (one_mul _) (by
    change 0 * a.value + 1 * a.slope = a.slope
    ring)
  mul_one a := ext (mul_one _) (by
    change a.slope * 1 + a.value * 0 = a.slope
    ring)
  mul_comm a b := ext (mul_comm _ _) (by
    change a.slope * b.value + a.value * b.slope = b.slope * a.value + b.value * a.slope
    ring)

/-- Multiplying one half of a list into the other keeps the product. -/
theorem prod_fold (ds : List (Dual α)) : (fold ds).prod = ds.prod := by
  let half := (ds.length + 1) / 2
  let second := ds.drop half
  let padded := second ++ List.replicate (half - second.length) (1 : Dual α)
  have hlength : (ds.take half).length = padded.length := by
    simp only [padded, second, half, List.length_take, List.length_append, List.length_drop,
      List.length_replicate]
    omega
  calc (fold ds).prod = (ds.take half).prod * padded.prod :=
        (List.prod_mul_prod_eq_prod_zipWith_of_length_eq _ _ hlength).symm
    _ = (ds.take half).prod * second.prod := by
        rw [List.prod_append, List.prod_replicate, one_pow, mul_one]
    _ = ds.prod := by rw [← List.prod_append, List.take_append_drop]

/-- Halving a list until one is left multiplies all of it. -/
theorem product_eq_prod (ds : List (Dual α)) : product ds = ds.prod := by
  fun_induction product ds with
  | case1 => rfl
  | case2 d => exact List.prod_singleton.symm
  | case3 a b rest ih => rw [ih, prod_fold]

theorem value_mul (a b : Dual α) : (a * b).value = a.value * b.value := rfl

theorem slope_mul (a b : Dual α) : (a * b).slope = a.slope * b.value + a.value * b.slope := rfl

end Dual

namespace Tape

open Row

/-- A power with the exponent zero is one, so nothing is left out. -/
theorem factorAt_eq (x : Nat → α) (t : Nat × α) : factorAt x t = Scalar.pow (x t.1) t.2 := by
  rw [factorAt]
  split
  · rename_i hz
    rw [(Scalar.isZero_iff t.2).mp hz, System.pow_zero_eq]
  · rfl

theorem product_factors (x : Nat → α) (r : Row α) :
    Scalar.product (r.map (factorAt x)) = System.monomialAt x r :=
  congrArg Scalar.product (List.map_congr_left fun t _ => factorAt_eq x t)

theorem point_of_lt {xs : List α} {c : Nat} (h : c < xs.length) : point xs c = System.point xs c := by
  simp [point, System.point, h]

/-- A tape has the values of its system. -/
theorem run_ofSystem {s : System α} (hs : s.Proper) {xs : List α} (h : xs.length = s.width) :
    (ofSystem s).run xs = s.residualAt (System.point xs) := by
  have hrows : (ofSystem s).factors.map (fun r => Scalar.product (r.map (factorAt (point xs)))) =
      s.monomialsAt (point xs) := by
    rw [ofSystem, List.map_map]
    refine List.map_congr_left fun r _ => ?_
    rw [Function.comp_apply, product_factors]
    simp [System.monomialAt_eq, System.pow_zero_eq]
  rw [run, hrows]
  exact System.residualAt_congr hs fun c hc => point_of_lt (h ▸ hc)

def slopeAt {n : Nat} (x : Nat → α) (j : Fin n) (r : Row α) : α :=
  entry r j * Scalar.pow (x j) (entry r j - 1) *
    ∏ c ∈ Finset.univ.erase j, Scalar.pow (x c) (entry r c)

theorem slopeAt_nil {n : Nat} (x : Nat → α) (j : Fin n) : slopeAt x j [] = 0 := by
  rw [slopeAt, entry, System.equationAt_nil, zero_mul, zero_mul]

theorem slopeAt_congr {n : Nat} {x y : Nat → α} (h : ∀ c : Fin n, x c = y c) (j : Fin n) (r : Row α) :
    slopeAt x j r = slopeAt y j r := by
  simp only [slopeAt, h]

theorem value_dualAt (x : Nat → α) (j : Nat) (t : Nat × α) :
    (dualAt x j t).value = Scalar.pow (x t.1) t.2 := by
  rw [← factorAt_eq, dualAt, factorAt]
  split <;> rfl

theorem slope_dualAt (x : Nat → α) (j : Nat) (t : Nat × α) :
    (dualAt x j t).slope = if t.1 = j then t.2 * Scalar.pow (x t.1) (t.2 - 1) else 0 := by
  rw [dualAt]
  split
  · rename_i hz
    rw [(Scalar.isZero_iff t.2).mp hz]
    simp
  · simp

theorem value_prod_dualAt (x : Nat → α) (j : Nat) (r : Row α) :
    (r.map (dualAt x j)).prod.value = System.monomialAt x r := by
  induction r with
  | nil => exact (System.monomialAt_nil x).symm
  | cons t r ih =>
    rw [List.map_cons, List.prod_cons, Dual.value_mul, value_dualAt, ih, System.monomialAt_cons]

/-- Multiplied with their slopes, the factors of a row have the derivative of its monomial. -/
theorem slope_prod_dualAt {n : Nat} {x : Nat → α} {r : Row α} (h : Within n r) (hr : Regular x r)
    (j : Fin n) : (r.map (dualAt x j)).prod.slope = slopeAt x j r := by
  induction r with
  | nil => exact (slopeAt_nil x j).symm
  | cons t r ih =>
    obtain ⟨ht, hwithin⟩ := List.forall_mem_cons.mp h
    obtain ⟨hfirst, hrest⟩ := regular_cons.mp hr
    let c : Fin n := ⟨t.1, ht⟩
    have hc : t.1 = c := rfl
    rw [List.map_cons, List.prod_cons, Dual.slope_mul, value_dualAt, slope_dualAt, value_prod_dualAt,
      ih hwithin hrest, slopeAt, slopeAt, System.prod_entry_cons hr hc, entry_cons]
    by_cases hj : c = j
    · -- the power of the variable and the factor form one power again
      have hmonomial := System.monomialAt_eq_prod hwithin hrest
      rw [← Finset.mul_prod_erase _ _ (Finset.mem_univ j)] at hmonomial
      have hrule := System.slope_add hfirst (hc ▸ hrest.entry t.1)
      subst hj
      rw [if_pos hc, if_pos hc, if_neg (Finset.notMem_erase c _), one_mul, hmonomial]
      rw [hc] at hrule ⊢
      linear_combination (∏ d ∈ Finset.univ.erase c, Scalar.pow (x d) (entry r d)) * hrule
    · have hcj : t.1 ≠ j := fun he => hj (Fin.ext he)
      rw [if_neg hcj, if_neg hcj, if_pos (Finset.mem_erase.mpr ⟨hj, Finset.mem_univ c⟩), zero_add]
      ring

/-- What a row is filled up with are ones without a slope. -/
theorem prod_dualAt_padded (x : Nat → α) (j : Nat) (r : Row α) (k c : Nat) :
    ((r ++ List.replicate k (c, 0)).map (dualAt x j)).prod = (r.map (dualAt x j)).prod := by
  have hone : dualAt x j (c, 0) = 1 := by
    rw [dualAt, if_pos ((Scalar.isZero_iff (0 : α)).mpr rfl)]
    rfl
  rw [List.map_append, List.map_replicate, hone, List.prod_append, List.prod_replicate, one_pow, mul_one]

/-- The derivatives of all equations in the direction of a variable. -/
theorem slopes_ofSystem {s : System α} (hs : s.Proper) {xs : List α} (h : xs.length = s.width)
    (hrows : ∀ r ∈ s.monomials, Regular (System.point xs) r) (j : Fin s.width) :
    (ofSystem s).slopes xs j = s.equations.map
      (System.equationAt fun m => slopeAt (System.point xs) j (s.monomials.getD m [])) := by
  have hslopes : (ofSystem s).factors.map (fun r =>
      (Dual.product (r.map (dualAt (point xs) j))).slope) =
        s.monomials.map (slopeAt (System.point xs) j) := by
    rw [ofSystem, List.map_map]
    refine List.map_congr_left fun r hr => ?_
    have hpoint (c : Fin s.width) : point xs c = System.point xs c := point_of_lt (c.isLt.trans_eq h.symm)
    have hregular : Regular (point xs) r := by
      intro t ht
      have hcolumn : t.1 < xs.length := h ▸ hs.monomials r hr t ht
      rw [point_of_lt hcolumn]
      exact hrows r hr t ht
    rw [Function.comp_apply, Dual.product_eq_prod, prod_dualAt_padded,
      slope_prod_dualAt (hs.monomials r hr) hregular, slopeAt_congr hpoint]
  rw [slopes, hslopes]
  refine List.map_congr_left fun e _ => System.equationAt_congr fun t _ => ?_
  rw [System.getD_toArray, ← slopeAt_nil (System.point xs) j, List.getD_map]

/-- Where the exponents are whole, the derivative is that of a monomial with whole exponents. -/
theorem slopeAt_whole {n : Nat} {x : Fin n → α} {r : Row α}
    (hr : Regular (System.point (List.ofFn x)) r) {p : Fin n → ℤ} (hp : ∀ i : Fin n, entry r i = (p i : α))
    (j : Fin n) : slopeAt (System.point (List.ofFn x)) j r =
      if p j ≠ 0 then p j * x j ^ (p j - 1) * ∏ i ∈ Finset.univ.erase j, x i ^ p i else 0 := by
  have hsign (i : Fin n) : x i ≠ 0 ∨ 0 ≤ p i := by
    obtain ⟨k, hk, hik⟩ := hr.entry i _ (List.mem_singleton_self _)
    rw [System.point_ofFn] at hik
    have hpk : p i = k := Int.cast_injective (((hp i).symm.trans hk))
    exact hpk ▸ hik
  have hpowers : ∏ i ∈ Finset.univ.erase j, Scalar.pow (System.point (List.ofFn x) i) (entry r i) =
      ∏ i ∈ Finset.univ.erase j, x i ^ p i :=
    Finset.prod_congr rfl fun i _ => by rw [System.point_ofFn, hp, Scalar.pow_int _ _ (hsign i)]
  rw [slopeAt, hpowers, hp, System.point_ofFn]
  split
  · rename_i hj
    have hless : x j ≠ 0 ∨ 0 ≤ p j - 1 := (hsign j).imp_right fun h => by omega
    have hpow := Scalar.pow_int (x j) (p j - 1) hless
    push_cast at hpow
    rw [hpow]
  · rename_i hj
    rw [not_not.mp hj, Int.cast_zero, zero_mul, zero_mul]

/-- A matrix of derivatives stands its columns beside one another. -/
theorem jacobian_ofSystem {s : System α} {xs : List α} (h : xs.length = s.width) :
    (ofSystem s).jacobian xs = List.ofFn fun r : Fin s.equations.length =>
      List.ofFn fun j : Fin s.width => ((ofSystem s).slopes xs j).getD r 0 := by
  have hrows : (ofSystem s).equations.length = s.equations.length := rfl
  simp [jacobian, h, hrows, List.ofFn_eq_map, ← List.map_coe_finRange_eq_range, Function.comp_def]

/-- A tape stands for its system. It has the same values, and its matrix of derivatives has in every
column the sum, over the monomials in which the variable occurs, of the coefficient times the exponent
times the monomial with one power less. Variables may be zero wherever no exponent is negative. -/
theorem tape_differentiates {s : System α} (hs : s.Proper) {x : Fin s.width → α}
    (hx : ∀ r ∈ s.monomials, Regular (System.point (List.ofFn x)) r)
    {P : Fin s.monomials.length → Fin s.width → ℤ}
    (hP : ∀ (m : Fin s.monomials.length) (i : Fin s.width), s.exponents.entry m i = (P m i : α)) :
    ∃ values, s.residual (List.ofFn x) = .ok values ∧ (ofSystem s).run (List.ofFn x) = values ∧
      (ofSystem s).jacobian (List.ofFn x) = List.ofFn fun r : Fin s.equations.length =>
        List.ofFn fun j => ∑ m : Fin s.monomials.length with P m j ≠ 0,
          s.coefficients.entry r m * P m j * x j ^ (P m j - 1) * ∏ i ∈ Finset.univ.erase j, x i ^ P m i := by
  have hlength : (List.ofFn x).length = s.width := List.length_ofFn
  refine ⟨_, System.residual_of_length hlength, run_ofSystem hs hlength, ?_⟩
  rw [jacobian_ofSystem hlength]
  congr 1
  funext r
  congr 1
  funext j
  have hr : s.equations[r.val] ∈ s.equations := List.getElem_mem r.isLt
  rw [slopes_ofSystem hs hlength hx, List.getD_eq_getElem _ _ (by simp), List.getElem_map,
    System.equationAt_eq_sum (hs.equations _ hr), Finset.sum_filter]
  refine Finset.sum_congr rfl fun m _ => ?_
  have hm : s.monomials.getD m [] = s.monomials[m.val] := List.getD_eq_getElem _ _ m.isLt
  have hcoefficient : s.coefficients.entry r m = entry s.equations[r.val] m :=
    congrArg (entry · m) (List.getD_eq_getElem _ _ r.isLt)
  have hexponents (i : Fin s.width) : entry (s.monomials.getD m []) i = (P m i : α) := hP m i
  rw [slopeAt_whole (hm ▸ hx _ (List.getElem_mem m.isLt)) hexponents, hcoefficient, mul_ite, mul_zero]
  simp only [mul_assoc]

def fraction : System ℚ := ⟨2, [[(0, 1), (1, -1)], []], [[(0, 1), (1, 3)], []]⟩

/-- Where `a` is zero and `b` is two, the fraction grows with `a` by one half. -/
theorem tape_differentiates_fraction :
    fraction.Proper ∧ (∀ r ∈ fraction.monomials, Regular (System.point (List.ofFn ![(0 : ℚ), 2])) r) ∧
      (∀ (m i : Fin 2), fraction.exponents.entry m i = ((![![1, -1], ![0, 0]] m i : ℤ) : ℚ)) ∧
      ∃ values, fraction.residual [0, 2] = .ok values ∧ (ofSystem fraction).run [0, 2] = values ∧
        (ofSystem fraction).jacobian [0, 2] = [[1 / 2, 0], [0, 0]] := by
  have hproper : fraction.Proper := by
    constructor <;> unfold Within <;> decide
  have hregular : ∀ r ∈ fraction.monomials, Regular (System.point (List.ofFn ![(0 : ℚ), 2])) r := by
    have hone : ∃ k : ℤ, (1 : ℚ) = k ∧ 0 ≤ k := ⟨1, by simp⟩
    have hminus : ∃ k : ℤ, (-1 : ℚ) = k := ⟨-1, by simp⟩
    simp only [fraction, Regular, List.forall_mem_cons]
    simp [System.point, hone, hminus]
  have hentry : ∀ (m i : Fin 2),
      fraction.exponents.entry m i = ((![![1, -1], ![0, 0]] m i : ℤ) : ℚ) := by
    decide +kernel
  refine ⟨hproper, hregular, hentry, ?_⟩
  obtain ⟨values, hvalues, hrun, hjacobian⟩ := tape_differentiates hproper hregular hentry
  refine ⟨values, hvalues, hrun, hjacobian.trans ?_⟩
  decide +kernel

end Tape

end Transcription
