import Transcription.Proofs.Poly.Evaluation
import Transcription.Proofs.Poly.Trim

namespace Transcription

abbrev Poly (α : Type) := List (α × Row α)

variable {α : Type}

namespace Poly

def shift (k : Nat) (p : Poly α) : Poly α := p.map fun t => (t.1, Row.shift k t.2)

variable [LinearOrder α] [ExactScalar α]

def valueAt (x : Nat → α) (p : Poly α) : α := (p.map fun t => t.1 * System.monomialAt x t.2).sum

def relabel (f : Nat → Nat) (p : Poly α) : Poly α := p.map fun t => (t.1, Row.relabel f t.2)

def Over (keep : Nat → Prop) (p : Poly α) : Prop :=
  ∀ t ∈ p, t.1 ≠ 0 → ∀ e ∈ t.2, e.2 ≠ 0 → keep e.1

def Regular (x : Nat → α) (p : Poly α) : Prop := ∀ t ∈ p, Row.Regular x t.2

theorem valueAt_nil (x : Nat → α) : valueAt x [] = 0 := rfl

theorem valueAt_cons (x : Nat → α) (t : α × Row α) (p : Poly α) :
    valueAt x (t :: p) = t.1 * System.monomialAt x t.2 + valueAt x p := by simp [valueAt]

theorem valueAt_append (x : Nat → α) (p q : Poly α) :
    valueAt x (p ++ q) = valueAt x p + valueAt x q := by simp [valueAt]

theorem valueAt_congr {x y : Nat → α} {p : Poly α} (h : ∀ t ∈ p, ∀ e ∈ t.2, x e.1 = y e.1) :
    valueAt x p = valueAt y p := by
  refine congrArg List.sum (List.map_congr_left fun t ht => ?_)
  rw [System.monomialAt_congr (h t ht)]

theorem regular_shift {x : Nat → α} {k : Nat} {p : Poly α} :
    Regular x (shift k p) ↔ Regular (fun c => x (c + k)) p := by
  simp only [Regular, shift, Row.Regular, Row.shift, List.forall_mem_map]

/-- A polynomial with its variables moved has the value of the polynomial at the moved point. -/
theorem valueAt_relabel {x : Nat → α} {f : Nat → Nat} {p : Poly α}
    (h : Regular (fun c => x (f c)) p) :
    valueAt x (relabel f p) = valueAt (fun c => x (f c)) p := by
  unfold valueAt relabel
  rw [List.map_map]
  refine congrArg List.sum (List.map_congr_left fun t ht => ?_)
  simp only [Function.comp_apply, (System.monomialAt_relabel f (h t ht)).2]

theorem Regular.relabel {x : Nat → α} {f : Nat → Nat} {p : Poly α}
    (h : Regular (fun c => x (f c)) p) : Regular x (Poly.relabel f p) := by
  intro t ht
  obtain ⟨u, hu, rfl⟩ := List.mem_map.mp ht
  exact (System.monomialAt_relabel f (h u hu)).1

end Poly

namespace Row

variable [Scalar α]

theorem mem_add {c : Nat} {a : α} {r : Row α} {e : Nat × α} (h : e ∈ add c a r) :
    e.1 = c ∨ ∃ u ∈ r, u.1 = e.1 := by
  induction r with
  | nil =>
    obtain rfl := List.mem_singleton.mp h
    exact .inl rfl
  | cons t r ih =>
    obtain ⟨d, b⟩ := t
    rw [add] at h
    split at h
    · rcases List.mem_cons.mp h with rfl | h
      · exact .inl rfl
      · exact .inr ⟨e, h, rfl⟩
    · split at h
      · rcases List.mem_cons.mp h with rfl | h
        · exact .inr ⟨(d, b), List.mem_cons_self, rfl⟩
        · exact .inr ⟨e, List.mem_cons_of_mem _ h, rfl⟩
      · rcases List.mem_cons.mp h with rfl | h
        · exact .inr ⟨(d, b), List.mem_cons_self, rfl⟩
        · rcases ih h with h | ⟨u, hu, he⟩
          · exact .inl h
          · exact .inr ⟨u, List.mem_cons_of_mem _ hu, he⟩

theorem mem_foldl_add {ts : List (Nat × α)} {r : Row α} {e : Nat × α}
    (h : e ∈ ts.foldl (fun r t => add t.1 t.2 r) r) : ∃ u ∈ ts ++ r, u.1 = e.1 := by
  induction ts generalizing r with
  | nil => exact ⟨e, h, rfl⟩
  | cons t ts ih =>
    obtain ⟨u, hu, he⟩ := ih h
    rcases List.mem_append.mp hu with hu | hu
    · exact ⟨u, List.mem_append_left _ (List.mem_cons_of_mem _ hu), he⟩
    · rcases mem_add hu with hc | ⟨v, hv, hve⟩
      · exact ⟨t, by simp, hc.symm.trans he⟩
      · exact ⟨v, List.mem_append_right _ hv, hve.trans he⟩

/-- Merging columns leaves entries only where columns were moved. -/
theorem mem_relabel {f : Nat → Nat} {r : Row α} {e : Nat × α} (h : e ∈ relabel f r) :
    ∃ u ∈ r, f u.1 = e.1 := by
  obtain ⟨u, hu, he⟩ := mem_foldl_add (List.mem_filter.mp h).1
  rw [List.append_nil] at hu
  obtain ⟨v, hv, rfl⟩ := List.mem_map.mp hu
  exact ⟨v, hv, he⟩

theorem relabel_single {α : Type} [LinearOrder α] [ExactScalar α] (f : Nat → Nat) (c : Nat) :
    relabel f ([(c, 1)] : Row α) = [(f c, 1)] := by
  have hone : Scalar.isZero (1 : α) = false := by
    rw [← Bool.not_eq_true, Scalar.isZero_iff]
    exact one_ne_zero
  simp [relabel, ofTerms, collect, compact, add, hone]

theorem within_relabel {f : Nat → Nat} {n : Nat} {r : Row α} (h : ∀ e ∈ r, f e.1 < n) :
    Within n (relabel f r) := by
  intro e he
  obtain ⟨u, hu, hf⟩ := mem_relabel he
  exact hf ▸ h u hu

end Row

namespace System

def terms (s : System α) (r : Row α) : Poly α :=
  r.filterMap fun t => (s.monomials[t.1]?).map fun m => (t.2, m)

def polynomials (s : System α) : List (Poly α) := s.equations.map s.terms

theorem mem_terms {s : System α} {r : Row α} {t : α × Row α} :
    t ∈ s.terms r ↔ ∃ i, (i, t.1) ∈ r ∧ s.monomials[i]? = some t.2 := by
  obtain ⟨k, m⟩ := t
  simp only [terms, List.mem_filterMap, Option.map_eq_some_iff, Prod.mk.injEq, Prod.exists]
  constructor
  · rintro ⟨i, _, hm, _, he, rfl, rfl⟩
    exact ⟨i, hm, he⟩
  · rintro ⟨i, hm, he⟩
    exact ⟨i, k, hm, m, he, rfl, rfl⟩

theorem mem_polynomials {s : System α} {p : Poly α} :
    p ∈ s.polynomials ↔ ∃ r ∈ s.equations, s.terms r = p := List.mem_map

/-- The variables of a polynomial of a system are among those of the system. -/
theorem Proper.within_polynomials {s : System α} (hs : s.Proper) {p : Poly α}
    (hp : p ∈ s.polynomials) {t : α × Row α} (ht : t ∈ p) : Row.Within s.width t.2 := by
  obtain ⟨r, _, rfl⟩ := mem_polynomials.mp hp
  obtain ⟨i, _, hi⟩ := mem_terms.mp ht
  exact hs.monomials _ (List.mem_of_getElem? hi)

theorem terms_append_left {s : System α} {ms : List (Row α)} {w : Nat} {es : List (Row α)}
    {r : Row α} (h : Row.Within s.monomials.length r) :
    terms ⟨w, s.monomials ++ ms, es⟩ r = s.terms r := by
  refine List.filterMap_congr fun t ht => ?_
  rw [List.getElem?_append_left (h t ht)]

theorem terms_append_shift (w : Nat) (ls ms : List (Row α)) (es : List (Row α)) (r : Row α) :
    terms ⟨w, ls ++ ms, es⟩ (Row.shift ls.length r) = terms ⟨w, ms, es⟩ r := by
  simp only [terms, Row.shift, List.filterMap_map]
  refine List.filterMap_congr fun t _ => ?_
  simp only [Function.comp_apply]
  rw [List.getElem?_append_right (Nat.le_add_left _ _), Nat.add_sub_cancel]

/-- What is joined keeps its polynomials; those of the second system move right. -/
theorem polynomials_join {s t : System α} (hs : s.Proper) :
    (s.join t).polynomials = s.polynomials ++ t.polynomials.map (Poly.shift s.width) := by
  unfold polynomials
  rw [show (s.join t).equations = s.equations ++ t.equations.map (Row.shift s.monomials.length)
    from rfl, List.map_append, List.map_map, List.map_map]
  congr 1
  · exact List.map_congr_left fun r hr => terms_append_left (hs.equations r hr)
  · refine List.map_congr_left fun r _ => (terms_append_shift _ _ _ _ _).trans ?_
    simp only [terms, Poly.shift, Function.comp_apply, List.map_filterMap, List.getElem?_map]
    refine List.filterMap_congr fun e _ => ?_
    cases t.monomials[e.1]? <;> rfl

theorem polynomials_empty (n : Nat) : (empty n : System α).polynomials = [] := rfl

/-- Systems over the same variables keep their polynomials. -/
theorem polynomials_stacked {n : Nat} {ss : List (System α)} (h : ∀ s ∈ ss, s.Proper) :
    (stacked n ss).polynomials = ss.flatMap polynomials := by
  induction ss with
  | nil => rfl
  | cons s ss ih =>
    obtain ⟨hs, hss⟩ := List.forall_mem_cons.mp h
    rw [stacked_cons, List.flatMap_cons, ← ih hss, polynomials, List.map_append, List.map_map]
    congr 1
    · exact List.map_congr_left fun r hr => terms_append_left (hs.equations r hr)
    · exact List.map_congr_left fun r _ => terms_append_shift _ _ _ _ _

def offset (ss : List (System α)) (i : Nat) : Nat := ((ss.take i).map width).sum

theorem offset_cons_succ (s : System α) (ss : List (System α)) (i : Nat) :
    offset (s :: ss) (i + 1) = offset ss i + s.width := by
  simp [offset, Nat.add_comm]

theorem offset_replicate (s : System α) {i m : Nat} (hi : i < m) :
    offset (List.replicate m s) i = i * s.width := by
  simp [offset, Nat.min_eq_left (Nat.le_of_lt hi)]

variable [LinearOrder α] [ExactScalar α]

theorem valueAt_terms (s : System α) (x : Nat → α) (r : Row α) :
    (s.terms r).valueAt x = equationAt (s.monomialsFrom x) r := by
  induction r with
  | nil => rw [equationAt_nil]; rfl
  | cons t r ih =>
    rw [equationAt_cons, ← ih, terms, List.filterMap_cons]
    cases h : s.monomials[t.1]? with
    | none =>
      have hz : s.monomialsFrom x t.1 = 0 := by simp [monomialsFrom, monomialsAt, h]
      rw [hz, mul_zero, zero_add]
      rfl
    | some m =>
      have hm : s.monomialsFrom x t.1 = monomialAt x m := by simp [monomialsFrom, monomialsAt, h]
      rw [hm]
      exact Poly.valueAt_cons x (t.2, m) _

theorem residualAt_polynomials (s : System α) (x : Nat → α) :
    s.residualAt x = s.polynomials.map (Poly.valueAt x) := by
  rw [residualAt_eq, polynomials, List.map_map]
  exact List.map_congr_left fun r _ => (valueAt_terms s x r).symm

def Vanishes (s : System α) (x : Nat → α) : Prop := ∀ a ∈ s.residualAt x, a = 0

def Regular (s : System α) (x : Nat → α) : Prop := ∀ p ∈ s.polynomials, p.Regular x

theorem vanishes_iff {s : System α} {x : Nat → α} :
    s.Vanishes x ↔ ∀ p ∈ s.polynomials, p.valueAt x = 0 := by
  rw [Vanishes, residualAt_polynomials]
  exact List.forall_mem_map

theorem vanishes_congr {s : System α} (hs : s.Proper) {x y : Nat → α}
    (h : ∀ c < s.width, x c = y c) : s.Vanishes x ↔ s.Vanishes y := by
  rw [Vanishes, residualAt_congr hs h, Vanishes]

theorem Regular.congr {s : System α} (hs : s.Proper) {x y : Nat → α} (h : ∀ c < s.width, x c = y c)
    (hr : s.Regular x) : s.Regular y := by
  intro p hp t ht e he
  obtain ⟨k, hk, hx⟩ := hr p hp t ht e he
  exact ⟨k, hk, h e.1 (hs.within_polynomials hp ht e he) ▸ hx⟩

theorem vanishes_empty (n : Nat) (x : Nat → α) : (empty n : System α).Vanishes x := by
  simp [vanishes_iff, polynomials_empty]

theorem vanishes_join {s t : System α} (hs : s.Proper) {x : Nat → α} :
    (s.join t).Vanishes x ↔ s.Vanishes x ∧ t.Vanishes fun c => x (c + s.width) := by
  simp only [Vanishes, residualAt_join hs, List.forall_mem_append]

theorem regular_join {s t : System α} (hs : s.Proper) {x : Nat → α} :
    (s.join t).Regular x ↔ s.Regular x ∧ t.Regular fun c => x (c + s.width) := by
  simp only [Regular, polynomials_join hs, List.forall_mem_append, List.forall_mem_map,
    Poly.regular_shift]

theorem vanishes_stacked {n : Nat} {ss : List (System α)} (h : ∀ s ∈ ss, s.Proper) {x : Nat → α} :
    (stacked n ss).Vanishes x ↔ ∀ s ∈ ss, s.Vanishes x := by
  simp only [Vanishes, residualAt_stacked h, List.mem_flatMap]
  constructor
  · exact fun hv s hs a ha => hv a ⟨s, hs, ha⟩
  · rintro hv a ⟨s, hs, ha⟩
    exact hv s hs a ha

/-- Side by side, every system reads variables of its own. -/
theorem vanishes_directSum {ss : List (System α)} (h : ∀ s ∈ ss, s.Proper) {x : Nat → α} :
    (directSum ss).Vanishes x ↔
      ∀ (i : Nat) (s : System α), ss[i]? = some s → s.Vanishes fun c => x (c + offset ss i) := by
  induction ss generalizing x with
  | nil => simp [directSum_nil, vanishes_empty]
  | cons s ss ih =>
    obtain ⟨hs, hss⟩ := List.forall_mem_cons.mp h
    rw [directSum_cons, vanishes_join hs, ih hss]
    constructor
    · rintro ⟨h₀, h₁⟩ (_ | i) t ht
      · obtain rfl : s = t := by simpa using ht
        exact h₀
      · simpa only [offset_cons_succ, ← Nat.add_assoc] using h₁ i t (by simpa using ht)
    · intro hv
      refine ⟨hv 0 s rfl, fun i t ht => ?_⟩
      simpa only [offset_cons_succ, ← Nat.add_assoc] using hv (i + 1) t (by simpa using ht)

/-- Every copy reads variables of its own. -/
theorem vanishes_replicate {s : System α} (hs : s.Proper) {m : Nat} {x : Nat → α} :
    (s.replicate m).Vanishes x ↔ ∀ i < m, s.Vanishes fun c => x (c + i * s.width) := by
  rw [replicate_eq_directSum, vanishes_directSum fun t ht => List.eq_of_mem_replicate ht ▸ hs]
  constructor
  · intro h i hi
    rw [← offset_replicate s hi]
    exact h i s (by rw [List.getElem?_replicate, if_pos hi])
  · intro h i t ht
    rw [List.getElem?_replicate] at ht
    split at ht
    case isFalse => cases ht
    case isTrue hi =>
      cases ht
      rw [offset_replicate s hi]
      exact h i hi

theorem regular_directSum {ss : List (System α)} (h : ∀ s ∈ ss, s.Proper) {x : Nat → α}
    (hr : ∀ (i : Nat) (s : System α), ss[i]? = some s → s.Regular fun c => x (c + offset ss i)) :
    (directSum ss).Regular x := by
  induction ss generalizing x with
  | nil => simp [directSum_nil, Regular, polynomials_empty]
  | cons s ss ih =>
    obtain ⟨hs, hss⟩ := List.forall_mem_cons.mp h
    rw [directSum_cons, regular_join hs]
    refine ⟨hr 0 s rfl, ih hss fun i t ht => ?_⟩
    simpa only [offset_cons_succ, ← Nat.add_assoc] using hr (i + 1) t (by simpa using ht)

end System

end Transcription
