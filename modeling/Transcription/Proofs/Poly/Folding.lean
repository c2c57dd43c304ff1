import Transcription.Proofs.Poly.Vanishing

namespace Transcription

variable {α : Type}

namespace Row

def Ascending (r : Row α) : Prop := r.Pairwise fun t u => t.1 < u.1

section Entries

variable [Scalar α]

theorem ascending_add {c : Nat} {a : α} {r : Row α} (h : Ascending r) : Ascending (add c a r) := by
  induction r with
  | nil => exact List.pairwise_singleton _ _
  | cons t r ih =>
    obtain ⟨d, b⟩ := t
    obtain ⟨hd, hr⟩ := List.pairwise_cons.mp h
    rw [add]
    split
    · rename_i hlt
      refine List.pairwise_cons.mpr ⟨?_, h⟩
      intro u hu
      rcases List.mem_cons.mp hu with rfl | hu
      · exact hlt
      · exact Nat.lt_trans hlt (hd u hu)
    · split
      · exact List.pairwise_cons.mpr ⟨hd, hr⟩
      · refine List.pairwise_cons.mpr ⟨?_, ih hr⟩
        intro u hu
        rcases mem_add hu with hc | ⟨v, hv, hvu⟩
        · change d < u.1
          omega
        · exact hvu ▸ hd v hv

theorem ascending_collect (ts : List (Nat × α)) : Ascending (collect ts) := by
  have hadd (r : Row α) (h : Ascending r) : Ascending (ts.foldl (fun r t => add t.1 t.2 r) r) := by
    induction ts generalizing r with
    | nil => exact h
    | cons t ts ih => exact ih _ (ascending_add h)
  exact hadd [] .nil

theorem relabel_congr {f g : Nat → Nat} {r : Row α} (h : ∀ t ∈ r, f t.1 = g t.1) :
    relabel f r = relabel g r := by
  unfold relabel
  rw [List.map_congr_left fun t ht => by rw [h t ht]]

theorem ascending_relabel (f : Nat → Nat) (r : Row α) : Ascending (relabel f r) :=
  (ascending_collect _).filter _

end Entries

variable [LinearOrder α] [ExactScalar α]

theorem ne_zero_of_mem_relabel {f : Nat → Nat} {r : Row α} {t : Nat × α} (h : t ∈ relabel f r) :
    t.2 ≠ 0 := by
  have hz := (List.mem_filter.mp h).2
  intro ht
  rw [(Scalar.isZero_iff t.2).mpr ht] at hz
  cases hz

end Row

namespace System

open Row

variable [LinearOrder α] [ExactScalar α]

/-- Adding up what meets in a column keeps the value of an equation. -/
theorem equationAt_foldl_add (m : Nat → α) (ts : List (Nat × α)) (r : Row α) :
    equationAt m (ts.foldl (fun r t => add t.1 t.2 r) r) = equationAt m (ts ++ r) := by
  induction ts generalizing r with
  | nil => rfl
  | cons t ts ih =>
    rw [List.foldl_cons, ih, List.cons_append]
    rcases add_perm t.1 t.2 r with hadd | ⟨b, q, hr, hadd⟩
    · exact equationAt_perm ((hadd.append_left ts).trans List.perm_middle)
    · rw [equationAt_perm ((hadd.append_left ts).trans List.perm_middle),
        equationAt_perm (((hr.append_left ts).trans List.perm_middle).cons t)]
      simp only [equationAt_cons]
      ring

/-- A row with its columns moved adds up as the row does over the weights read back. -/
theorem equationAt_relabel (m : Nat → α) (f : Nat → Nat) (r : Row α) :
    equationAt m (Row.relabel f r) = equationAt (fun c => m (f c)) r := by
  rw [Row.relabel, ofTerms, equationAt_compact, collect, equationAt_foldl_add, List.append_nil]
  simp [equationAt_eq, Function.comp_def]

def only (c : Nat) : Nat → α := fun d => if d = c then 1 else 0

theorem equationAt_only_of_lt {c : Nat} {r : Row α} (h : ∀ t ∈ r, c < t.1) :
    equationAt (only c) r = 0 := by
  induction r with
  | nil => exact equationAt_nil _
  | cons t r ih =>
    obtain ⟨ht, hr⟩ := List.forall_mem_cons.mp h
    rw [equationAt_cons, ih hr, only, if_neg (by omega), mul_zero, zero_add]

/-- What stands in a column is what the row adds up to there. -/
theorem mem_iff_equationAt {r : Row α} (hr : Ascending r) (hz : ∀ t ∈ r, t.2 ≠ 0) {c : Nat} {a : α} :
    (c, a) ∈ r ↔ a ≠ 0 ∧ equationAt (only c) r = a := by
  induction r with
  | nil =>
    rw [equationAt_nil]
    simp +contextual [eq_comm]
  | cons t r ih =>
    obtain ⟨d, b⟩ := t
    obtain ⟨hfirst, hrest⟩ := List.pairwise_cons.mp hr
    obtain ⟨hb, hz⟩ := List.forall_mem_cons.mp hz
    rw [List.mem_cons, ih hrest hz, equationAt_cons, only]
    by_cases hdc : d = c
    · subst hdc
      rw [if_pos rfl, mul_one, equationAt_only_of_lt hfirst, add_zero]
      constructor
      · intro h
        rcases h with heq | ⟨hne, h₀⟩
        · cases heq
          exact ⟨hb, rfl⟩
        · exact absurd h₀.symm hne
      · intro h
        exact .inl (Prod.ext rfl h.2.symm)
    · rw [if_neg hdc, mul_zero, zero_add]
      constructor
      · intro h
        exact h.resolve_left fun heq => hdc (congrArg Prod.fst heq).symm
      · exact .inr

/-- Rows are told apart by what they add up to. -/
theorem eq_of_equationAt {r q : Row α} (hr : Ascending r) (hq : Ascending q)
    (hr₀ : ∀ t ∈ r, t.2 ≠ 0) (hq₀ : ∀ t ∈ q, t.2 ≠ 0)
    (h : ∀ m, equationAt m r = equationAt m q) : r = q := by
  have hnodup {p : Row α} (hp : Ascending p) : p.Nodup :=
    hp.imp fun hlt heq => Nat.ne_of_lt hlt (congrArg Prod.fst heq)
  have hperm : r.Perm q := by
    rw [List.perm_ext_iff_of_nodup (hnodup hr) (hnodup hq)]
    intro t
    rw [mem_iff_equationAt hr hr₀, mem_iff_equationAt hq hq₀, h]
  apply hperm.eq_of_pairwise ?_ hr hq
  intro t u _ _ htu hut
  exact absurd hut (Nat.lt_asymm htu)

/-- Columns moved twice are moved once by both maps. -/
theorem relabel_relabel (f g : Nat → Nat) (r : Row α) :
    Row.relabel g (Row.relabel f r) = Row.relabel (fun c => g (f c)) r := by
  apply eq_of_equationAt (ascending_relabel _ _) (ascending_relabel _ _)
  · exact fun t => ne_zero_of_mem_relabel
  · exact fun t => ne_zero_of_mem_relabel
  · intro m
    rw [equationAt_relabel, equationAt_relabel, equationAt_relabel]

def labels {n m : Nat} (f : Fin n → Fin m) : List Nat := List.ofFn fun c => (f c).val

theorem length_labels {n m : Nat} (f : Fin n → Fin m) : (labels f).length = n := List.length_ofFn

theorem labels_lt {n m : Nat} (f : Fin n → Fin m) : ∀ c ∈ labels f, c < m := by
  intro c hc
  obtain ⟨i, rfl⟩ := List.mem_ofFn.mp hc
  exact (f i).isLt

theorem getD_labels {n m : Nat} (f : Fin n → Fin m) (c : Fin n) : (labels f).getD c 0 = f c := by
  simp [labels]

theorem getD_labels_comp {n m k : Nat} (f : Fin n → Fin m) (g : Fin m → Fin k) {c : Nat} (hc : c < n) :
    (labels g).getD ((labels f).getD c 0) 0 = (labels (g ∘ f)).getD c 0 := by
  have hf := getD_labels f ⟨c, hc⟩
  have hgf := getD_labels (g ∘ f) ⟨c, hc⟩
  simp only at hf hgf
  rw [hf, hgf, getD_labels]
  rfl

theorem point_ofFn {n : Nat} (x : Fin n → α) (c : Fin n) : point (List.ofFn x) c = x c := by
  rw [point_eq_getD]
  simp

/-- Targets that may have any sign are columns as well. -/
theorem move_labels (s : System α) {n m : Nat} (f : Fin n → Fin m) :
    s.move ((labels f).map Nat.cast) m = s.relabel (labels f) m := by
  have hwithin : targetsWithin ((labels f).map Nat.cast) m = .ok (labels f) := by
    have hall : ((labels f).map (Nat.cast : Nat → ℤ)).all (fun c => 0 ≤ c && c < m) = true := by
      rw [List.all_eq_true]
      intro c hc
      obtain ⟨i, hi, rfl⟩ := List.mem_map.mp hc
      simpa using labels_lt f i hi
    rw [targetsWithin, if_pos hall, List.map_map]
    exact congrArg Except.ok (List.map_id _)
  rw [move, List.length_map, hwithin]
  split
  · rfl
  · rename_i hlength
    rw [relabel, if_neg hlength]

/-- Folding twice is folding once by both maps. -/
theorem moved_moved {s : System α} (hs : s.Proper) {m k : Nat} (f : Fin s.width → Fin m)
    (g : Fin m → Fin k) :
    (s.moved (labels f) m).moved (labels g) k = s.moved (labels (g ∘ f)) k := by
  simp only [moved, List.map_map, mk.injEq, true_and, and_true]
  apply List.map_congr_left
  intro r hr
  rw [Function.comp_apply, relabel_relabel]
  apply Row.relabel_congr
  intro t ht
  exact getD_labels_comp f g (hs.monomials r hr t ht)

def WholeExponents (s : System α) : Prop := ∀ r ∈ s.monomials, ∀ t ∈ r, ∃ k : ℤ, t.2 = k

/-- Where the point is zero, no variable with a negative exponent meets another one. -/
def MeetsAt (s : System α) {m : Nat} (f : Fin s.width → Fin m) (x : Fin m → α) : Prop :=
  ∀ c d, c ≠ d → f c = f d → ∀ r ∈ s.monomials, ∀ a, (c.val, a) ∈ r → a < 0 → x (f c) ≠ 0

/-- Powers that meet in a column where they are folded can be told from the sum of their exponents. -/
theorem MeetsAt.mergeable {s : System α} (hs : s.Proper) (hw : s.WholeExponents) {m : Nat}
    {f : Fin s.width → Fin m} {x : Fin m → α} (h : s.MeetsAt f x) {r : Row α} (hr : r ∈ s.monomials)
    (ha : Ascending r) :
    Mergeable (point (List.ofFn x)) (r.map fun t => ((labels f).getD t.1 0, t.2)) := by
  have hregular {c d : Fin s.width} {a : α} (hc : (c.val, a) ∈ r) (hne : c ≠ d) (hf : f c = f d) :
      Row.Regular (point (List.ofFn x)) [((f c : Nat), a)] := by
    intro t ht
    obtain rfl := List.mem_singleton.mp ht
    obtain ⟨k, rfl⟩ : ∃ k : ℤ, a = k := hw r hr _ hc
    refine ⟨k, rfl, ?_⟩
    rw [point_ofFn]
    by_cases hk : 0 ≤ k
    · exact .inr hk
    · exact .inl (h c d hne hf r hr _ hc (by exact_mod_cast not_le.mp hk))
  rw [Mergeable, List.pairwise_map]
  apply List.Pairwise.imp_of_mem _ ha
  intro t u ht hu hlt heq
  obtain ⟨c, a⟩ := t
  obtain ⟨d, b⟩ := u
  have hc : c < s.width := hs.monomials r hr _ ht
  have hd : d < s.width := hs.monomials r hr _ hu
  have hne : (⟨c, hc⟩ : Fin s.width) ≠ ⟨d, hd⟩ := fun he => Nat.ne_of_lt hlt (congrArg Fin.val he)
  have hfc := getD_labels f ⟨c, hc⟩
  have hfd := getD_labels f ⟨d, hd⟩
  simp only at heq hfc hfd ⊢
  rw [hfc, hfd] at heq ⊢
  exact ⟨hregular ht hne (Fin.ext heq), hregular hu hne.symm (Fin.ext heq.symm)⟩

/-- A folded system has the values of the system at the point read back through the map. -/
theorem residualAt_moved {s : System α} (hs : s.Proper) (hrows : ∀ r ∈ s.monomials, Ascending r)
    (hw : s.WholeExponents) {m : Nat} {f : Fin s.width → Fin m} {x : Fin m → α} (h : s.MeetsAt f x) :
    (s.moved (labels f) m).residualAt (point (List.ofFn x)) =
      s.residualAt (point (List.ofFn (x ∘ f))) := by
  have hmonomials : (s.moved (labels f) m).monomialsAt (point (List.ofFn x)) =
      s.monomialsAt (point (List.ofFn (x ∘ f))) := by
    rw [monomialsAt, monomialsAt, moved, List.map_map]
    apply List.map_congr_left
    intro r hr
    rw [Function.comp_apply, monomialAt_relabel_of_mergeable (h.mergeable hs hw hr (hrows r hr))]
    apply monomialAt_congr
    intro t ht
    have ht' := hs.monomials r hr t ht
    have hf := getD_labels f ⟨t.1, ht'⟩
    simp only at hf
    rw [hf, point_ofFn]
    exact (point_ofFn (x ∘ f) ⟨t.1, ht'⟩).symm
  rw [residualAt, residualAt, hmonomials]
  rfl

/-- Folding variables is substituting them, and it composes: the folded system has at every point the
residuals of the system at the point read back, and folding again is folding by both maps at once. -/
theorem relabel_substitutes {s : System α} (hs : s.Proper) (hrows : ∀ r ∈ s.monomials, Ascending r)
    (hw : s.WholeExponents) {m : Nat} (f : Fin s.width → Fin m) :
    ∃ t, s.relabel (labels f) m = .ok t ∧ s.move ((labels f).map Nat.cast) m = .ok t ∧
      (∀ x : Fin m → α, s.MeetsAt f x → ∃ values, t.residual (List.ofFn x) = .ok values ∧
        s.residual (List.ofFn (x ∘ f)) = .ok values) ∧
      ∀ (k : Nat) (g : Fin m → Fin k), t.relabel (labels g) k = s.relabel (labels (g ∘ f)) k := by
  have hfolded := relabel_eq (length_labels f) (labels_lt f)
  refine ⟨s.moved (labels f) m, hfolded, (move_labels s f).trans hfolded, ?_, ?_⟩
  · intro x hx
    refine ⟨_, residual_of_length List.length_ofFn, ?_⟩
    rw [residual_of_length List.length_ofFn, residualAt_moved hs hrows hw hx]
  · intro k g
    rw [relabel_eq (length_labels g) (labels_lt g), relabel_eq (length_labels _) (labels_lt _),
      moved_moved hs]

def quotient : System ℚ := ⟨3, [[(0, 1), (1, -1)], [(2, -1)], []], [[(0, 1), (1, 2), (2, -1)]]⟩

theorem proper_quotient : quotient.Proper := by
  constructor
  · unfold Row.Within
    decide
  · unfold Row.Within
    decide

/-- Once `a` and `b` are one variable they cancel, so that it must not be zero; `c` may be. -/
theorem relabel_substitutes_quotient :
    quotient.Proper ∧ (∀ r ∈ quotient.monomials, Ascending r) ∧ quotient.WholeExponents ∧
      quotient.MeetsAt ![(0 : Fin 2), 0, 1] ![2, 0] ∧
      ∃ t, quotient.relabel (labels ![(0 : Fin 2), 0, 1]) 2 = .ok t ∧
        (∃ values, t.residual [2, 0] = .ok values ∧ quotient.residual [2, 2, 0] = .ok values) ∧
        t.relabel (labels ![(1 : Fin 2), 0]) 2 = quotient.relabel [1, 1, 0] 2 := by
  have hrows : ∀ r ∈ quotient.monomials, Ascending r := by simp [quotient, Ascending]
  have hwhole : quotient.WholeExponents := by
    have hone : ∃ k : ℤ, (1 : ℚ) = k := ⟨1, by simp⟩
    have hminus : ∃ k : ℤ, (-1 : ℚ) = k := ⟨-1, by simp⟩
    simp only [quotient, WholeExponents, List.forall_mem_cons]
    simp [hone, hminus]
  have hmeets : quotient.MeetsAt ![(0 : Fin 2), 0, 1] ![2, 0] := by
    have hfirst : ∀ c d : Fin 3, c ≠ d → ![(0 : Fin 2), 0, 1] c = ![0, 0, 1] d →
        ![(0 : Fin 2), 0, 1] c = 0 := by decide
    intro c d hne heq _ _ _ _ _
    simp [hfirst c d hne heq]
  obtain ⟨t, ht, _, hvalues, htwice⟩ :=
    relabel_substitutes proper_quotient hrows hwhole ![(0 : Fin 2), 0, 1]
  have hlabels : labels (![(1 : Fin 2), 0] ∘ ![(0 : Fin 2), 0, 1] : Fin 3 → Fin 2) = [1, 1, 0] := by
    simp [labels]
  refine ⟨proper_quotient, hrows, hwhole, hmeets, t, ht, ?_, ?_⟩
  · obtain ⟨values, hfolded, hvalue⟩ := hvalues ![2, 0] hmeets
    exact ⟨values, by simpa using hfolded, hvalue⟩
  · exact hlabels ▸ htwice 2 ![1, 0]

end System

end Transcription
