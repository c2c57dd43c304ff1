import Transcription.Proofs.Poly.Polynomials

namespace Transcription

namespace LinearRows

variable {α : Type}

section Rows

variable [Scalar α]

theorem foldl_add (rows : List (List (Int × α))) (l : LinearRows α) :
    rows.foldl add l = ⟨l.width, l.rows ++ rows.map fun r => r.filter fun t => !Scalar.isZero t.2⟩ := by
  induction rows generalizing l with
  | nil => simp
  | cons r rows ih =>
    rw [List.foldl_cons, ih]
    simp [add]

def monomials (r : List (Int × α)) : List (Row α) := r.map fun t => [(t.1.toNat, 1)]

theorem length_monomials (r : List (Int × α)) : (monomials r).length = r.length := by simp [monomials]

/-- The equation of a row has its terms, on monomials of their own. -/
theorem terms_row (w : Nat) (ms ns : List (Row α)) (es : List (Row α)) (r : List (Int × α)) :
    System.terms ⟨w, ms ++ (monomials r ++ ns), es⟩
        (r.zipIdx.map fun (t, i) => (ms.length + i, t.2)) =
      r.map fun t => (t.2, [(t.1.toNat, 1)]) := by
  have hterm : ∀ e ∈ r.zipIdx,
      ((ms ++ (monomials r ++ ns))[ms.length + e.2]?).map (fun m => (e.1.2, m)) =
        some (e.1.2, [(e.1.1.toNat, 1)]) := by
    intro e he
    obtain ⟨t, i⟩ := e
    have ht := List.mem_zipIdx_iff_getElem?.mp he
    have hlt : i < (monomials r).length := by
      rw [length_monomials]
      exact (List.getElem?_eq_some_iff.mp ht).1
    rw [List.getElem?_append_right (Nat.le_add_right _ _), Nat.add_sub_cancel_left,
      List.getElem?_append_left hlt, monomials, List.getElem?_map, ht]
    rfl
  rw [System.terms, List.filterMap_map]
  refine (List.filterMap_congr hterm).trans ?_
  rw [List.filterMap_eq_map', show (fun e : (Int × α) × Nat => ((e.1.2, [(e.1.1.toNat, 1)]) : α × Row α)) =
    (fun t : Int × α => (t.2, [(t.1.toNat, 1)])) ∘ Prod.fst from rfl, ← List.map_map,
    List.zipIdx_map_fst]

theorem polynomials_equations (w : Nat) (ms ns : List (Row α)) (es : List (Row α))
    (rows : List (List (Int × α))) :
    (equations ms.length rows).map (System.terms ⟨w, ms ++ (rows.flatMap monomials ++ ns), es⟩) =
      rows.map fun r => r.map fun t => (t.2, [(t.1.toNat, 1)]) := by
  induction rows generalizing ms with
  | nil => rfl
  | cons r rows ih =>
    have htail := ih (ms ++ monomials r)
    rw [List.length_append, length_monomials] at htail
    rw [equations, List.map_cons, List.map_cons, List.flatMap_cons, List.append_assoc, terms_row,
      ← htail, List.append_assoc]

omit [Scalar α] in
theorem within_equations (k : Nat) (rows : List (List (Int × α))) :
    ∀ r ∈ equations k rows, Row.Within (k + rows.flatten.length) r := by
  induction rows generalizing k with
  | nil => exact fun r hr => nomatch hr
  | cons s rows ih =>
    intro r hr
    rw [List.flatten_cons, List.length_append]
    cases List.mem_cons.mp hr with
    | inl hrs =>
      subst hrs
      intro t ht
      obtain ⟨⟨u, i⟩, hm, rfl⟩ := List.mem_map.mp ht
      have := List.snd_lt_of_mem_zipIdx hm
      simp only at this ⊢
      omega
    | inr hrs =>
      have := ih (k + s.length) r hrs
      rwa [Nat.add_assoc] at this

/-- The system of some rows refers to nothing beyond itself. -/
theorem proper_system {l : LinearRows α} {s : System α} (h : l.system = .ok s) : s.Proper := by
  rw [system] at h
  split at h
  · rename_i hall
    cases h
    rw [List.all_eq_true] at hall
    refine ⟨fun m hm => ?_, fun r hr => ?_⟩
    · obtain ⟨c, hc, rfl⟩ := List.mem_map.mp hm
      have hc := hall c hc
      simp only [Bool.and_eq_true, decide_eq_true_eq] at hc
      exact List.forall_mem_singleton.mpr (show c.toNat < l.width by omega)
    · have := within_equations 0 l.rows r hr
      rwa [Nat.zero_add, ← List.length_map (·.1),
        ← List.length_map (fun c : Int => ([(c.toNat, 1)] : Row α))] at this
  · cases h

def poly (r : List (Int × α)) : Poly α :=
  (r.filter fun t => !Scalar.isZero t.2).map fun t => (t.2, [(t.1.toNat, 1)])

/-- Rows over the variables of a system have a system, whose polynomials they are. -/
theorem exists_polynomials {width : Nat} {rows : List (List (Int × α))}
    (h : ∀ r ∈ rows, ∀ t ∈ r, 0 ≤ t.1 ∧ t.1 < width) :
    ∃ s, (rows.foldl add { width }).system = .ok s ∧ s.Proper ∧ s.width = width ∧
      s.polynomials = rows.map poly := by
  let kept := rows.map fun r => r.filter fun t => !Scalar.isZero t.2
  have hkept : ∀ r ∈ kept, ∀ t ∈ r, 0 ≤ t.1 ∧ t.1 < width := by
    intro r hr t ht
    obtain ⟨s, hs, rfl⟩ := List.mem_map.mp hr
    exact h s hs t (List.mem_filter.mp ht).1
  have hmonomials : kept.flatten.map (fun t => ([(t.1.toNat, 1)] : Row α)) = kept.flatMap monomials := by
    rw [List.map_flatten, List.flatMap_def]
    rfl
  have hall : ((kept.flatten.map (·.1)).all fun c => 0 ≤ c && c < (width : Int)) = true := by
    rw [List.all_eq_true]
    intro c hc
    obtain ⟨t, ht, rfl⟩ := List.mem_map.mp hc
    obtain ⟨r, hr, htr⟩ := List.mem_flatten.mp ht
    obtain ⟨h₀, h₁⟩ := hkept r hr t htr
    simp [h₀, h₁]
  have hsystem : (rows.foldl add { width }).system =
      .ok ⟨width, kept.flatMap monomials, equations 0 kept⟩ := by
    rw [foldl_add, List.nil_append, system]
    simp only
    rw [if_pos hall, List.map_map, ← hmonomials]
    rfl
  refine ⟨_, hsystem, proper_system hsystem, rfl, ?_⟩
  have hpoly := polynomials_equations width [] [] (equations 0 kept) kept
  rw [List.nil_append, List.append_nil, List.length_nil] at hpoly
  rw [System.polynomials]
  simp only
  rw [hpoly, List.map_map]
  rfl

end Rows

variable [LinearOrder α] [ExactScalar α]

def rowAt (x : Nat → α) (r : List (Int × α)) : α := (r.map fun t => t.2 * x t.1.toNat).sum

theorem rowAt_filter (x : Nat → α) (r : List (Int × α)) :
    rowAt x (r.filter fun t => !Scalar.isZero t.2) = rowAt x r := by
  induction r with
  | nil => rfl
  | cons t r ih =>
    rw [List.filter_cons]
    split
    · rw [rowAt, rowAt, List.map_cons, List.map_cons, List.sum_cons, List.sum_cons]
      exact congrArg _ ih
    · rename_i hz
      have hz' : t.2 = 0 := (Scalar.isZero_iff t.2).mp (by simpa using hz)
      rw [ih, rowAt, rowAt, List.map_cons, List.sum_cons, hz', zero_mul, zero_add]

theorem valueAt_row (x : Nat → α) (r : List (Int × α)) :
    Poly.valueAt x (r.map fun t => (t.2, [(t.1.toNat, 1)])) = rowAt x r := by
  rw [Poly.valueAt, List.map_map, rowAt]
  refine congrArg _ (List.map_congr_left fun t _ => ?_)
  simp only [Function.comp_apply, System.monomialAt_cons, System.monomialAt_nil, System.pow_one_eq,
    mul_one]

theorem valueAt_poly (x : Nat → α) (r : List (Int × α)) : (poly r).valueAt x = rowAt x r := by
  rw [poly, valueAt_row, rowAt_filter]

end LinearRows

end Transcription
