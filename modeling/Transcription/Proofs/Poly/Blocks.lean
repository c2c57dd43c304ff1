import Mathlib
import Transcription.Poly.System

namespace Transcription

variable {α : Type}

namespace Row

def Within (n : Nat) (r : Row α) : Prop := ∀ t ∈ r, t.1 < n

theorem Within.mono {m n : Nat} {r : Row α} (h : Within m r) (hmn : m ≤ n) : Within n r :=
  fun t ht => Nat.lt_of_lt_of_le (h t ht) hmn

theorem Within.shift {n : Nat} {r : Row α} (h : Within n r) (k : Nat) :
    Within (k + n) (Row.shift k r) := by
  intro t ht
  obtain ⟨u, hu, rfl⟩ := List.mem_map.mp ht
  have := h u hu
  simp only
  omega

theorem shift_zero (r : Row α) : shift 0 r = r := by simp [shift]

theorem shift_shift (j k : Nat) (r : Row α) : shift j (shift k r) = shift (j + k) r := by
  simp [shift, Nat.add_comm, Nat.add_left_comm]

theorem map_shift_zero (rs : List (Row α)) : rs.map (shift 0) = rs := by
  rw [show (shift 0 : Row α → Row α) = id from funext shift_zero, List.map_id]

theorem map_shift_shift (j k : Nat) (rs : List (Row α)) :
    (rs.map (shift k)).map (shift j) = rs.map (shift (j + k)) := by
  rw [List.map_map]
  exact List.map_congr_left fun r _ => shift_shift j k r

end Row

namespace Matrix

/-- Placing further right is placing, then moving all rows right. -/
theorem place_add (j k : Nat) (ms : List (Matrix α)) :
    place (j + k) ms = (place k ms).map (Row.shift j) := by
  induction ms generalizing k with
  | nil => rfl
  | cons m ms ih =>
    rw [place, place, List.map_append, Row.map_shift_shift, Nat.add_assoc, ih]

end Matrix

namespace System

/-- Monomials over the variables and equations over the monomials, and nothing beyond them. -/
structure Proper (s : System α) : Prop where
  monomials : ∀ r ∈ s.monomials, Row.Within s.width r
  equations : ∀ r ∈ s.equations, Row.Within s.monomials.length r

theorem proper_empty (n : Nat) : (empty n : System α).Proper :=
  ⟨by simp [empty], by simp [empty]⟩

def join (s t : System α) : System α :=
  ⟨s.width + t.width, s.monomials ++ t.monomials.map (Row.shift s.width),
    s.equations ++ t.equations.map (Row.shift s.monomials.length)⟩

theorem Proper.join {s t : System α} (hs : s.Proper) (ht : t.Proper) : (s.join t).Proper where
  monomials r hr := by
    rcases List.mem_append.mp hr with h | h
    · exact (hs.monomials r h).mono (Nat.le_add_right _ _)
    · obtain ⟨u, hu, rfl⟩ := List.mem_map.mp h
      exact (ht.monomials u hu).shift _
  equations r hr := by
    rw [show (s.join t).monomials.length = s.monomials.length + t.monomials.length by
      simp [System.join]]
    rcases List.mem_append.mp hr with h | h
    · exact (hs.equations r h).mono (Nat.le_add_right _ _)
    · obtain ⟨u, hu, rfl⟩ := List.mem_map.mp h
      exact (ht.equations u hu).shift _

theorem join_assoc (s t u : System α) : (s.join t).join u = s.join (t.join u) := by
  simp only [join, List.map_append, Row.map_shift_shift, List.append_assoc, List.length_append,
    List.length_map, Nat.add_assoc]

theorem join_empty (s : System α) : s.join (empty 0) = s := by simp [join, empty]

theorem empty_join (s : System α) : (empty 0).join s = s := by
  simp [join, empty, Row.map_shift_zero]

theorem directSum_nil : directSum ([] : List (System α)) = empty 0 := rfl

theorem directSum_cons (s : System α) (ss : List (System α)) :
    directSum (s :: ss) = s.join (directSum ss) := by
  simp only [directSum, join, Matrix.diagonal, List.map_cons, Matrix.place, Row.map_shift_zero,
    Nat.zero_add]
  congr 1
  · exact congrArg _ (Matrix.place_add s.width 0 _)
  · exact congrArg _ (Matrix.place_add s.monomials.length 0 _)

theorem directSum_singleton (s : System α) : directSum [s] = s := by
  rw [directSum_cons, directSum_nil, join_empty]

theorem directSum_append (ss ts : List (System α)) :
    directSum (ss ++ ts) = (directSum ss).join (directSum ts) := by
  induction ss with
  | nil => rw [directSum_nil, empty_join, List.nil_append]
  | cons s ss ih => rw [List.cons_append, directSum_cons, directSum_cons, ih, join_assoc]

theorem Proper.directSum {ss : List (System α)} (h : ∀ s ∈ ss, s.Proper) :
    (System.directSum ss).Proper := by
  induction ss with
  | nil => exact proper_empty 0
  | cons s ss ih =>
    obtain ⟨hs, hss⟩ := List.forall_mem_cons.mp h
    rw [directSum_cons]
    exact hs.join (ih hss)

theorem width_directSum (ss : List (System α)) : (directSum ss).width = (ss.map width).sum := by
  rw [List.sum_eq_foldr]
  simp [directSum, Matrix.diagonal, exponents, Function.comp_def]

theorem directSum_empty (ns : List Nat) :
    directSum (ns.map fun n => (empty n : System α)) = empty ns.sum := by
  induction ns with
  | nil => rfl
  | cons n ns ih => rw [List.map_cons, directSum_cons, ih]; rfl

theorem repeated_succ_rows (n : Nat) (m : Matrix α) :
    (m.repeated (n + 1)).rows = m.rows ++ (m.repeated n).rows.map (Row.shift m.cols) := by
  simp only [Matrix.repeated, List.range_succ_eq_map, List.flatMap_cons, Nat.zero_mul,
    Row.map_shift_zero, List.flatMap_map, List.map_flatMap, Row.map_shift_shift]
  congr 1
  refine List.flatMap_congr fun i _ => ?_
  rw [Nat.succ_mul, Nat.add_comm]

/-- One more copy goes before the others. -/
theorem replicate_succ (s : System α) (n : Nat) :
    s.replicate (n + 1) = s.join (s.replicate n) := by
  simp only [replicate, join, repeated_succ_rows, exponents, coefficients]
  rw [Nat.succ_mul, Nat.add_comm]

theorem replicate_zero (s : System α) : s.replicate 0 = empty 0 := by
  simp [replicate, Matrix.repeated, empty]

/-- Copies are the direct sum of equal systems. -/
theorem replicate_eq_directSum (s : System α) (n : Nat) :
    s.replicate n = directSum (List.replicate n s) := by
  induction n with
  | zero => rw [replicate_zero, List.replicate_zero, directSum_nil]
  | succ n ih => rw [replicate_succ, List.replicate_succ, directSum_cons, ih]

theorem isEmpty_directSum_replicate (s : System α) (n : Nat) :
    (directSum (List.replicate (n + 1) s)).isEmpty = s.isEmpty := by
  induction n with
  | zero => rw [List.replicate_one, directSum_singleton]
  | succ n ih =>
    rw [List.replicate_succ, directSum_cons]
    simp only [isEmpty, join] at ih ⊢
    cases h : s.equations with
    | nil => simpa [h] using ih
    | cons r rs => rfl

theorem tooWide?_eq_none {n : Nat} {ms : List (Matrix α)} (h : ∀ m ∈ ms, m.cols ≤ n) :
    Matrix.tooWide? n ms = none := by
  simp only [Matrix.tooWide?, Option.map_eq_none_iff, List.find?_eq_none, decide_eq_true_eq]
  exact fun m hm => Nat.not_lt.mpr (h m hm)

def stacked (n : Nat) (ss : List (System α)) : System α :=
  ⟨n, ss.flatMap monomials, (Matrix.diagonal (ss.map coefficients)).rows⟩

theorem combine_eq {n : Nat} {ss : List (System α)} (h : ∀ s ∈ ss, s.width ≤ n) :
    combine n ss = .ok (stacked n ss) := by
  rw [combine, tooWide?_eq_none (by simpa [exponents] using h)]
  rfl

/-- Systems that combine are stacked, and none is too wide. -/
theorem combine_eq_ok {n : Nat} {ss : List (System α)} {u : System α} (h : combine n ss = .ok u) :
    u = stacked n ss ∧ ∀ s ∈ ss, s.width ≤ n := by
  have hwidth : ∀ s ∈ ss, s.width ≤ n := by
    rw [combine] at h
    split at h
    · cases h
    · rename_i hnone
      simp only [Matrix.tooWide?, Option.map_eq_none_iff, List.find?_eq_none, decide_eq_true_eq,
        List.forall_mem_map] at hnone
      exact fun s hs => Nat.not_lt.mp (hnone s hs)
  rw [combine_eq hwidth] at h
  cases h
  exact ⟨rfl, hwidth⟩

theorem stacked_cons (n : Nat) (s : System α) (ss : List (System α)) :
    stacked n (s :: ss) = ⟨n, s.monomials ++ (stacked n ss).monomials,
      s.equations ++ (stacked n ss).equations.map (Row.shift s.monomials.length)⟩ := by
  simp only [stacked, Matrix.diagonal, List.flatMap_cons, List.map_cons, Matrix.place,
    Row.map_shift_zero, Nat.zero_add]
  congr 2
  exact Matrix.place_add s.monomials.length 0 _

theorem Proper.stacked {n : Nat} {ss : List (System α)} (h : ∀ s ∈ ss, s.Proper ∧ s.width ≤ n) :
    (System.stacked n ss).Proper := by
  induction ss with
  | nil => exact ⟨fun r hr => (nomatch hr), fun r hr => (nomatch hr)⟩
  | cons s ss ih =>
    obtain ⟨⟨hs, hn⟩, hss⟩ := List.forall_mem_cons.mp h
    have ht := ih hss
    rw [stacked_cons]
    refine ⟨fun r hr => ?_, fun r hr => ?_⟩
    · rcases List.mem_append.mp hr with hr | hr
      · exact (hs.monomials r hr).mono hn
      · exact ht.monomials r hr
    · simp only [List.length_append]
      rcases List.mem_append.mp hr with hr | hr
      · exact (hs.equations r hr).mono (Nat.le_add_right _ _)
      · obtain ⟨u, hu, rfl⟩ := List.mem_map.mp hr
        exact (ht.equations u hu).shift _

end System

end Transcription
