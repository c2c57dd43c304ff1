import Transcription.Proofs.Exact
import Transcription.Proofs.Poly.Blocks

namespace Transcription

variable {α : Type}

namespace Row

/-- A value that is added to a row stands for itself, or it is added to one that stood in its column. -/
theorem add_perm [Scalar α] (c : Nat) (a : α) (r : Row α) :
    (add c a r).Perm ((c, a) :: r) ∨
      ∃ b q, r.Perm ((c, b) :: q) ∧ (add c a r).Perm ((c, b + a) :: q) := by
  induction r with
  | nil => exact .inl (.refl _)
  | cons t r ih =>
    obtain ⟨d, b⟩ := t
    rw [add]
    split
    · exact .inl (.refl _)
    · split
      · rename_i he
        subst he
        exact .inr ⟨b, r, .refl _, .refl _⟩
      · rcases ih with hadd | ⟨b', q, hr, hadd⟩
        · exact .inl ((hadd.cons _).trans (.swap _ _ _))
        · exact .inr ⟨b', (d, b) :: q, (hr.cons _).trans (.swap _ _ _), (hadd.cons _).trans (.swap _ _ _)⟩

variable [LinearOrder α] [ExactScalar α]

/-- The exponents of a row are whole, and negative only on variables that are not zero at `x`. -/
def Regular (x : Nat → α) (r : Row α) : Prop :=
  ∀ t ∈ r, ∃ k : ℤ, t.2 = k ∧ (x t.1 ≠ 0 ∨ 0 ≤ k)

theorem regular_cons {x : Nat → α} {t : Nat × α} {r : Row α} :
    Regular x (t :: r) ↔ Regular x [t] ∧ Regular x r := by
  simp [Regular]

theorem Regular.perm {x : Nat → α} {r q : Row α} (h : Regular x r) (hp : r.Perm q) : Regular x q :=
  fun t ht => h t (hp.mem_iff.mpr ht)

theorem Regular.append {x : Nat → α} {r s : Row α} (hr : Regular x r) (hs : Regular x s) :
    Regular x (r ++ s) := by
  intro t ht
  rcases List.mem_append.mp ht with h | h
  · exact hr t h
  · exact hs t h

/-- Powers that meet in one column can be told from the sum of their exponents. -/
def Mergeable (x : Nat → α) (r : Row α) : Prop :=
  r.Pairwise fun t u => t.1 = u.1 → Regular x [t] ∧ Regular x [u]

theorem Mergeable.perm {x : Nat → α} {r q : Row α} (h : Mergeable x r) (hp : r.Perm q) :
    Mergeable x q := by
  refine (hp.pairwise_iff ?_).mp h
  intro t u htu hut
  exact (htu hut.symm).symm

theorem Regular.mergeable {x : Nat → α} {r : Row α} (h : Regular x r) : Mergeable x r := by
  refine List.pairwise_of_forall_mem_list ?_
  intro t ht u hu _
  constructor
  · intro e he
    obtain rfl := List.mem_singleton.mp he
    exact h e ht
  · intro e he
    obtain rfl := List.mem_singleton.mp he
    exact h e hu

end Row

namespace System

open Row

section Places

variable [Scalar α]

theorem monomialAt_congr {x y : Nat → α} {r : Row α} (h : ∀ t ∈ r, x t.1 = y t.1) :
    monomialAt x r = monomialAt y r :=
  congrArg Scalar.product (List.map_congr_left fun t ht => congrArg (Scalar.pow · t.2) (h t ht))

theorem equationAt_congr {m l : Nat → α} {r : Row α} (h : ∀ t ∈ r, m t.1 = l t.1) :
    equationAt m r = equationAt l r :=
  congrArg Scalar.sum (List.map_congr_left fun t ht => congrArg (t.2 * ·) (h t ht))

theorem monomialAt_shift (x : Nat → α) (k : Nat) (r : Row α) :
    monomialAt x (shift k r) = monomialAt (fun i => x (i + k)) r := by
  simp [monomialAt, shift, Function.comp_def]

theorem equationAt_shift (m : Nat → α) (k : Nat) (r : Row α) :
    equationAt m (shift k r) = equationAt (fun i => m (i + k)) r := by
  simp [equationAt, shift, Function.comp_def]

theorem residualAt_getD (s : System α) (x : Nat → α) :
    s.residualAt x = s.equations.map (equationAt fun i => (s.monomialsAt x).getD i 0) := by
  have : (fun i => (s.monomialsAt x).toArray.getD i 0) = fun i => (s.monomialsAt x).getD i 0 := by
    funext i
    simp
  rw [residualAt, this]

/-- Equations moved past the monomials of others, over the values of all monomials. -/
theorem map_equationAt_append {ms ns : List α} {rs qs : List (Row α)}
    (h : ∀ r ∈ rs, Within ms.length r) :
    (rs ++ qs.map (shift ms.length)).map (equationAt fun i => (ms ++ ns).getD i 0) =
      rs.map (equationAt fun i => ms.getD i 0) ++ qs.map (equationAt fun i => ns.getD i 0) := by
  rw [List.map_append, List.map_map]
  congr 1
  · refine List.map_congr_left fun r hr => equationAt_congr fun t ht => ?_
    exact List.getD_append _ _ _ _ (h r hr t ht)
  · refine List.map_congr_left fun r _ => (equationAt_shift _ _ r).trans ?_
    refine equationAt_congr fun t _ => ?_
    rw [List.getD_append_right _ _ _ _ (Nat.le_add_left _ _), Nat.add_sub_cancel]

theorem residualAt_stacked_cons {s : System α} (hs : s.Proper) (n : Nat) (ss : List (System α))
    (x : Nat → α) :
    (stacked n (s :: ss)).residualAt x = s.residualAt x ++ (stacked n ss).residualAt x := by
  have hlength : (s.monomialsAt x).length = s.monomials.length := List.length_map _
  have hmonomials : (stacked n (s :: ss)).monomialsAt x =
      s.monomialsAt x ++ (stacked n ss).monomialsAt x := by
    rw [stacked_cons]
    exact List.map_append
  rw [residualAt_getD, residualAt_getD, residualAt_getD, hmonomials, stacked_cons, ← hlength]
  exact map_equationAt_append fun r hr => hlength ▸ hs.equations r hr

/-- What stacked systems leave at a point is what each of them leaves there, in order. -/
theorem residualAt_stacked {ss : List (System α)} (h : ∀ s ∈ ss, s.Proper) (n : Nat) (x : Nat → α) :
    (stacked n ss).residualAt x = ss.flatMap fun s => s.residualAt x := by
  induction ss with
  | nil => rfl
  | cons s ss ih =>
    obtain ⟨hs, hss⟩ := List.forall_mem_cons.mp h
    rw [residualAt_stacked_cons hs, ih hss, List.flatMap_cons]

/-- A residual looks at the variables of the system only. -/
theorem residualAt_congr {s : System α} (hs : s.Proper) {x y : Nat → α}
    (h : ∀ c < s.width, x c = y c) : s.residualAt x = s.residualAt y := by
  have : s.monomialsAt x = s.monomialsAt y :=
    List.map_congr_left fun r hr => monomialAt_congr fun t ht => h t.1 (hs.monomials r hr t ht)
  simp only [residualAt, this]

theorem residualAt_join {s t : System α} (hs : s.Proper) (x : Nat → α) :
    (s.join t).residualAt x = s.residualAt x ++ t.residualAt fun i => x (i + s.width) := by
  have hm : (s.join t).monomialsAt x = s.monomialsAt x ++ t.monomialsAt fun i => x (i + s.width) := by
    simp only [join, monomialsAt, List.map_append, List.map_map]
    congr 1
    exact List.map_congr_left fun r _ => monomialAt_shift x s.width r
  have hlength : (s.monomialsAt x).length = s.monomials.length := List.length_map _
  rw [residualAt_getD, residualAt_getD, residualAt_getD, hm, join, ← hlength]
  exact map_equationAt_append fun r hr => hlength ▸ hs.equations r hr

theorem point_eq_getD (xs : List α) (i : Nat) : point xs i = xs.getD i 0 := by
  simp [point]

theorem residual_of_length {s : System α} {xs : List α} (h : xs.length = s.width) :
    s.residual xs = .ok (s.residualAt (point xs)) := by
  rw [residual, checkPoint, if_pos h]
  rfl

end Places

variable [LinearOrder α] [ExactScalar α]

theorem monomialAt_eq (x : Nat → α) (r : Row α) :
    monomialAt x r = (r.map fun t => Scalar.pow (x t.1) t.2).prod := Scalar.product_eq _

theorem equationAt_eq (m : Nat → α) (r : Row α) :
    equationAt m r = (r.map fun t => t.2 * m t.1).sum := Scalar.sum_eq _

theorem monomialAt_nil (x : Nat → α) : monomialAt x ([] : Row α) = 1 := by simp [monomialAt_eq]

theorem monomialAt_cons (x : Nat → α) (t : Nat × α) (r : Row α) :
    monomialAt x (t :: r) = Scalar.pow (x t.1) t.2 * monomialAt x r := by simp [monomialAt_eq]

theorem equationAt_nil (m : Nat → α) : equationAt m ([] : Row α) = 0 := by simp [equationAt_eq]

theorem equationAt_cons (m : Nat → α) (t : Nat × α) (r : Row α) :
    equationAt m (t :: r) = t.2 * m t.1 + equationAt m r := by simp [equationAt_eq]

theorem pow_zero_eq (a : α) : Scalar.pow a 0 = 1 := by
  have := Scalar.pow_int a 0 (.inr le_rfl)
  simpa using this

theorem pow_one_eq (a : α) : Scalar.pow a 1 = a := by
  have := Scalar.pow_int a 1 (.inr (by decide))
  simpa using this

/-- Powers of one variable multiply by adding exponents. -/
theorem pow_add_eq {x : Nat → α} {c : Nat} {a b : α} (ha : Regular x [(c, a)])
    (hb : Regular x [(c, b)]) :
    Regular x [(c, b + a)] ∧ Scalar.pow (x c) (b + a) = Scalar.pow (x c) b * Scalar.pow (x c) a := by
  obtain ⟨i, hi, hxi⟩ := ha _ List.mem_cons_self
  obtain ⟨j, hj, hxj⟩ := hb _ List.mem_cons_self
  simp only at hi hj hxi hxj
  subst hi hj
  have hsum : x c ≠ 0 ∨ 0 ≤ j + i := by
    rcases hxi with h | hi
    · exact .inl h
    · rcases hxj with h | hj
      · exact .inl h
      · exact .inr (by omega)
  refine ⟨fun t ht => ?_, ?_⟩
  · rw [List.mem_singleton.mp ht]
    exact ⟨j + i, by push_cast; rfl, hsum⟩
  · rw [← Int.cast_add, Scalar.pow_int _ _ hsum, Scalar.pow_int _ _ hxi, Scalar.pow_int _ _ hxj]
    by_cases hx : x c = 0
    · have hi := hxi.resolve_left (not_not.mpr hx)
      have hj := hxj.resolve_left (not_not.mpr hx)
      obtain ⟨i, rfl⟩ := Int.eq_ofNat_of_zero_le hi
      obtain ⟨j, rfl⟩ := Int.eq_ofNat_of_zero_le hj
      exact_mod_cast pow_add (x c) j i
    · exact zpow_add₀ hx j i

theorem monomialAt_perm {x : Nat → α} {r q : Row α} (h : r.Perm q) :
    monomialAt x r = monomialAt x q := by
  rw [monomialAt_eq, monomialAt_eq, (h.map _).prod_eq]

theorem equationAt_perm {m : Nat → α} {r q : Row α} (h : r.Perm q) :
    equationAt m r = equationAt m q := by
  rw [equationAt_eq, equationAt_eq, (h.map _).sum_eq]

/-- Two entries of a column are worth their sum. -/
theorem monomialAt_merge {x : Nat → α} {c : Nat} {a b : α} {r : Row α}
    (h : Mergeable x ((c, a) :: (c, b) :: r)) :
    Mergeable x ((c, b + a) :: r) ∧
      monomialAt x ((c, b + a) :: r) = monomialAt x ((c, a) :: (c, b) :: r) := by
  obtain ⟨hfirst, hrest⟩ := List.pairwise_cons.mp h
  obtain ⟨ha, hb⟩ := hfirst _ List.mem_cons_self rfl
  obtain ⟨hregular, hpow⟩ := pow_add_eq ha hb
  constructor
  · refine List.pairwise_cons.mpr ⟨?_, (List.pairwise_cons.mp hrest).2⟩
    intro u hu hcu
    exact ⟨hregular, (hfirst u (List.mem_cons_of_mem _ hu) hcu).2⟩
  · rw [monomialAt_cons, monomialAt_cons, monomialAt_cons, hpow]
    ring

/-- Adding up what meets in a column keeps the value of a monomial. -/
theorem monomialAt_foldl_add {x : Nat → α} {ts : List (Nat × α)} {r : Row α}
    (h : Mergeable x (ts ++ r)) :
    monomialAt x (ts.foldl (fun r t => Row.add t.1 t.2 r) r) = monomialAt x (ts ++ r) := by
  induction ts generalizing r with
  | nil => rfl
  | cons t ts ih =>
    obtain ⟨c, a⟩ := t
    rw [List.foldl_cons]
    rcases Row.add_perm c a r with hadd | ⟨b, q, hr, hadd⟩
    · have hp : ((c, a) :: ts ++ r).Perm (ts ++ Row.add c a r) :=
        List.perm_middle.symm.trans (hadd.symm.append_left ts)
      rw [ih (h.perm hp)]
      exact (monomialAt_perm hp).symm
    · have hp : ((c, a) :: ts ++ r).Perm ((c, a) :: (c, b) :: (ts ++ q)) :=
        ((hr.append_left ts).trans List.perm_middle).cons _
      have hq : (ts ++ Row.add c a r).Perm ((c, b + a) :: (ts ++ q)) :=
        (hadd.append_left ts).trans List.perm_middle
      obtain ⟨hmerged, hvalue⟩ := monomialAt_merge (h.perm hp)
      rw [ih (hmerged.perm hq.symm), monomialAt_perm hq, hvalue]
      exact (monomialAt_perm hp).symm

theorem regular_foldl_add {x : Nat → α} {ts : List (Nat × α)} {r : Row α}
    (ht : Regular x ts) (hr : Regular x r) :
    Regular x (ts.foldl (fun r t => Row.add t.1 t.2 r) r) := by
  induction ts generalizing r with
  | nil => exact hr
  | cons t ts ih =>
    obtain ⟨hfirst, hrest⟩ := regular_cons.mp ht
    refine ih hrest ?_
    rcases Row.add_perm t.1 t.2 r with hadd | ⟨b, q, hq, hadd⟩
    · exact (hfirst.append hr).perm hadd.symm
    · obtain ⟨hb, hregular⟩ := regular_cons.mp (hr.perm hq)
      exact ((pow_add_eq hfirst hb).1.append hregular).perm hadd.symm

/-- Exponents that are zero count for nothing. -/
theorem monomialAt_compact (x : Nat → α) (r : Row α) :
    monomialAt x (Row.compact r) = monomialAt x r := by
  induction r with
  | nil => rfl
  | cons t r ih =>
    rw [Row.compact, List.filter_cons]
    split
    · rw [monomialAt_cons, monomialAt_cons]
      exact congrArg _ ih
    · rename_i hz
      have hz' : t.2 = 0 := (Scalar.isZero_iff t.2).mp (by simpa using hz)
      rw [monomialAt_cons, hz', pow_zero_eq, one_mul]
      exact ih

/-- Coefficients that are zero count for nothing. -/
theorem equationAt_compact (m : Nat → α) (r : Row α) :
    equationAt m (Row.compact r) = equationAt m r := by
  induction r with
  | nil => rfl
  | cons t r ih =>
    rw [Row.compact, List.filter_cons]
    split
    · rw [equationAt_cons, equationAt_cons]
      exact congrArg _ ih
    · rename_i hz
      have hz' : t.2 = 0 := (Scalar.isZero_iff t.2).mp (by simpa using hz)
      rw [equationAt_cons, hz', zero_mul, zero_add]
      exact ih

/-- A monomial of one variable has its value. -/
theorem monomialAt_single (x : Nat → α) (i : Nat) : monomialAt x [(i, (1 : α))] = x i := by
  rw [monomialAt_cons, monomialAt_nil, pow_one_eq, mul_one]

theorem Regular.compact {x : Nat → α} {r : Row α} (h : Regular x r) :
    Regular x (Row.compact r) ∧ monomialAt x (Row.compact r) = monomialAt x r :=
  ⟨fun t ht => h t (List.mem_filter.mp ht).1, monomialAt_compact x r⟩

/-- A monomial with its columns moved by `f` has the value of the monomial at the moved point, as long as
the powers that meet can be told from the sum of their exponents. -/
theorem monomialAt_relabel_of_mergeable {x : Nat → α} {f : Nat → Nat} {r : Row α}
    (h : Mergeable x (r.map fun t => (f t.1, t.2))) :
    monomialAt x (Row.relabel f r) = monomialAt (fun c => x (f c)) r := by
  have hvalue := monomialAt_foldl_add (r := []) (by rwa [List.append_nil])
  rw [Row.relabel, Row.ofTerms, monomialAt_compact, Row.collect, hvalue, List.append_nil]
  simp [monomialAt_eq, Function.comp_def]

theorem monomialAt_relabel {x : Nat → α} (f : Nat → Nat) {r : Row α}
    (h : Regular (fun c => x (f c)) r) :
    Regular x (Row.relabel f r) ∧ monomialAt x (Row.relabel f r) = monomialAt (fun c => x (f c)) r := by
  have hmoved : Regular x (r.map fun t => (f t.1, t.2)) := by
    intro t ht
    obtain ⟨u, hu, rfl⟩ := List.mem_map.mp ht
    exact h u hu
  refine ⟨?_, monomialAt_relabel_of_mergeable (Regular.mergeable hmoved)⟩
  exact (Regular.compact (regular_foldl_add hmoved (by simp [Regular]))).1

def monomialsFrom (s : System α) (x : Nat → α) (i : Nat) : α := (s.monomialsAt x).getD i 0

theorem residualAt_eq (s : System α) (x : Nat → α) :
    s.residualAt x = s.equations.map (equationAt (s.monomialsFrom x)) := residualAt_getD s x

end System

end Transcription
