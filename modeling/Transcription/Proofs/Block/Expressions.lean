import Mathlib
import Transcription.Block.Record
import Transcription.Proofs.Noted
import Transcription.Proofs.Poly.Vanishing

namespace Transcription

variable {α : Type} [Scalar α]

namespace Matrix

def Within (m : Matrix α) : Prop := ∀ r ∈ m.rows, Row.Within m.cols r

omit [Scalar α] in
theorem within_zero (r c : Nat) : (zero r c : Matrix α).Within := by
  intro row hr
  obtain rfl := List.eq_of_mem_replicate hr
  exact fun t ht => nomatch ht

theorem within_identity (n : Nat) : (identity n : Matrix α).Within := by
  intro row hr
  obtain ⟨i, hi, rfl⟩ := List.mem_map.mp hr
  intro t ht
  obtain rfl := List.mem_singleton.mp ht
  exact List.mem_range.mp hi

theorem Within.compact {m : Matrix α} (h : m.Within) : m.compact.Within := by
  intro row hrow
  obtain ⟨r, hr, rfl⟩ := List.mem_map.mp hrow
  exact fun t ht => h r hr t (List.mem_filter.mp ht).1

omit [Scalar α] in
theorem Within.beside {a b : Matrix α} (ha : a.Within) (hb : b.Within) : (a.beside b).Within := by
  intro row hrow
  obtain ⟨i, hi⟩ := List.mem_iff_getElem?.mp hrow
  obtain ⟨r, s, hr, hs, rfl⟩ := List.getElem?_zipWith_eq_some.mp hi
  intro t ht
  rcases List.mem_append.mp ht with ht | ht
  · exact Nat.lt_of_lt_of_le (ha r (List.mem_of_getElem? hr) t ht) (Nat.le_add_right _ _)
  · exact (hb s (List.mem_of_getElem? hs)).shift a.cols t ht

omit [Scalar α] in
theorem within_stack {n : Nat} {ms : List (Matrix α)} (h : ∀ m ∈ ms, m.Within ∧ m.cols = n) :
    (stack n ms).Within := by
  intro row hrow
  obtain ⟨m, hm, hr⟩ := List.mem_flatMap.mp hrow
  obtain ⟨hw, rfl⟩ := h m hm
  exact hw row hr

/-- The matrix with its entries as scalars. -/
def scaled (m : Matrix Float) : Matrix α :=
  ⟨m.cols, m.rows.map fun r => r.map fun t => (t.1, Scalar.ofFloat t.2)⟩

theorem within_scaled {m : Matrix Float} : (m.scaled : Matrix α).Within ↔ m.isWithin = true := by
  simp only [Within, scaled, Row.Within, List.forall_mem_map, isWithin, List.all_eq_true,
    decide_eq_true_eq]

end Matrix

namespace Value

theorem tensor?_eq_ok {v : Value} {t : Tensor} :
    v.tensor? = .ok t ↔ v.shape = .ok t.shape ∧ v.doubles = .ok t.data := by
  constructor
  · intro h
    obtain ⟨s, hs, h⟩ := except_bind_eq_ok.mp h
    obtain ⟨xs, hxs, h⟩ := except_bind_eq_ok.mp h
    cases h
    exact ⟨hs, hxs⟩
  · rintro ⟨hs, hxs⟩
    rw [tensor?, hs]
    simp only [bind, Except.bind, hxs]
    rfl

/-- The matrix that a value stands for, by its entries that are not zero. A number and a vector are one
row. -/
def entries? (v : Value) : Option (Matrix α) :=
  let row (xs : List Float) : Row α :=
    (xs.zipIdx.filter fun e => !(e.1 == 0)).map fun e => (e.2, Scalar.ofFloat e.1)
  match v with
  | .sparse m => some m.scaled
  | v => match v.shape, v.doubles with
    | .ok [], .ok xs => some ⟨1, [row xs]⟩
    | .ok [n], .ok xs => some ⟨n, [row xs]⟩
    | .ok [count, n], .ok xs =>
      some ⟨n, (List.range count).map fun i => row ((xs.drop (i * n)).take n)⟩
    | _, _ => Option.none

theorem map_ofDense (xs : List Float) :
    (Row.ofDense xs).map (fun e => (e.1, (Scalar.ofFloat e.2 : α))) =
      (xs.zipIdx.filter fun e => !(e.1 == 0)).map fun e => (e.2, Scalar.ofFloat e.1) := by
  simp only [Row.ofDense, Row.compact, List.filter_map, List.map_map]
  rfl

theorem entries_of_tensor {v : Value} {t : Tensor} (hv : ∀ m, v ≠ .sparse m) (ht : v.tensor? = .ok t) :
    v.entries? = t.matrix?.map (Matrix.scaled : Matrix Float → Matrix α) := by
  obtain ⟨hshape, hdoubles⟩ := tensor?_eq_ok.mp ht
  unfold entries?
  dsimp only
  split
  · exact absurd rfl (hv _)
  rw [hshape, hdoubles]
  unfold Tensor.matrix?
  rcases t.shape with _ | ⟨n, _ | ⟨c, _ | _⟩⟩
  · simp only [Matrix.ofDense, Matrix.scaled, Option.map_some, List.map_cons, List.map_nil, map_ofDense]
  · simp only [Matrix.ofDense, Matrix.scaled, Option.map_some, List.map_cons, List.map_nil, map_ofDense]
  · simp only [Matrix.ofDense, Matrix.scaled, Option.map_some, List.map_map, Function.comp_def,
      map_ofDense]
  · rfl

theorem tensor_of_entries {v : Value} {m : Matrix α} (hv : ∀ m, v ≠ .sparse m) (h : v.entries? = some m) :
    ∃ t, v.tensor? = .ok t := by
  unfold entries? at h
  dsimp only at h
  split at h
  · exact absurd rfl (hv _)
  split at h
  · rename_i xs hshape hdoubles
    exact ⟨⟨_, xs⟩, tensor?_eq_ok.mpr ⟨hshape, hdoubles⟩⟩
  · rename_i xs hshape hdoubles
    exact ⟨⟨_, xs⟩, tensor?_eq_ok.mpr ⟨hshape, hdoubles⟩⟩
  · rename_i xs hshape hdoubles
    exact ⟨⟨_, xs⟩, tensor?_eq_ok.mpr ⟨hshape, hdoubles⟩⟩
  · cases h

end Value

theorem Row.within_ofDense (as : List α) : Row.Within as.length (Row.ofDense as) := by
  intro t ht
  obtain ⟨⟨a, c⟩, hm, rfl⟩ := List.mem_map.mp (List.mem_filter.mp ht).1
  have := List.snd_lt_of_mem_zipIdx hm
  simpa using this

theorem Row.within_compact_singleton {n c : Nat} {a : α} (h : c < n) :
    Row.Within n (Row.compact [(c, a)]) := by
  intro t ht
  obtain rfl := List.mem_singleton.mp (List.mem_filter.mp ht).1
  exact h

namespace Equation

theorem within_constantRow (n : Nat) (a : α) :
    (⟨n, [constantRow n a]⟩ : Matrix α).Within := by
  intro row hr
  obtain rfl := List.mem_singleton.mp hr
  have := Row.within_ofDense (List.replicate n a)
  rwa [List.length_replicate] at this

theorem within_column (as : List α) : (column as).Within := by
  intro row hr
  obtain ⟨_, hm, rfl⟩ := List.mem_map.mp hr
  obtain ⟨a, _, rfl⟩ := List.mem_map.mp hm
  exact Row.within_ofDense [a]

theorem within_inputColumns (length width : Nat) (scale : α) :
    (inputColumns length width scale).Within := by
  unfold inputColumns
  split
  · intro row hr
    obtain rfl := List.eq_of_mem_replicate hr
    exact Row.within_compact_singleton Nat.one_pos
  · intro row hr
    obtain ⟨i, hi, rfl⟩ := List.mem_map.mp hr
    exact Row.within_compact_singleton (List.mem_range.mp hi)

theorem within_broadcast (length : Nat) (ws : List (Nat × α)) : (broadcast length ws).Within := by
  induction ws with
  | nil => exact Matrix.within_zero length 0
  | cons w ws ih => exact (within_inputColumns length w.1 w.2).beside ih

theorem within_diagonalOf {n : Nat} {as : List α} (h : as.length = n) :
    (⟨n, diagonalOf as⟩ : Matrix α).Within := by
  intro row hr
  obtain ⟨⟨a, i⟩, hm, rfl⟩ := List.mem_map.mp hr
  have := List.snd_lt_of_mem_zipIdx hm
  exact Row.within_compact_singleton (show i < n by omega)

end Equation

theorem Tensor.length_spread? {t : Tensor} {n : Nat} {xs : List Float} (h : t.spread? n = some xs) :
    xs.length = n := by
  unfold Tensor.spread? at h
  split at h
  · cases h
    exact List.length_replicate
  · split at h
    · cases h
      assumption
    · cases h

theorem System.proper_ofMatrices {p k : Matrix α} {s : System α} (h : ofMatrices p k = .ok s)
    (hp : p.Within) (hk : k.Within) : s.Proper := by
  unfold ofMatrices at h
  simp only at h
  split at h
  · rename_i hc
    cases h
    refine ⟨hp.compact, fun r hr => ?_⟩
    rcases Bool.or_eq_true _ _ |>.mp hc with hc | hc
    · rw [← of_decide_eq_true hc]
      exact hk.compact r hr
    · rw [List.isEmpty_iff.mp hc] at hr
      cases hr
  · cases h

namespace Diagram

open Equation

variable {d : Diagram} {i : Nat} {s : System α}

theorem proper_sumExpression (h : d.sumExpression i = .ok s) : s.Proper := by
  unfold sumExpression at h
  obtain ⟨widths, _, h⟩ := except_bind_eq_ok.mp h
  obtain ⟨ops, _, h⟩ := except_bind_eq_ok.mp h
  obtain ⟨n, _, h⟩ := except_bind_eq_ok.mp h
  obtain ⟨out, _, h⟩ := except_bind_eq_ok.mp h
  split at h
  · exact System.proper_ofMatrices h (Matrix.within_identity n) (within_constantRow n _)
  · obtain ⟨common, _, h⟩ := except_bind_eq_ok.mp h
    obtain ⟨length, _, h⟩ := except_bind_eq_ok.mp h
    split at h
    · cases h
    · obtain ⟨ws, _, h⟩ := except_bind_eq_ok.mp h
      exact System.proper_ofMatrices h (Matrix.within_identity n) (within_broadcast length _)

theorem proper_productExpression (h : d.productExpression i = .ok s) : s.Proper := by
  unfold productExpression at h
  obtain ⟨isWord, _, h⟩ := except_bind_eq_ok.mp h
  split at h
  · cases h
  obtain ⟨widths, _, h⟩ := except_bind_eq_ok.mp h
  obtain ⟨ops, _, h⟩ := except_bind_eq_ok.mp h
  obtain ⟨n, _, h⟩ := except_bind_eq_ok.mp h
  obtain ⟨out, _, h⟩ := except_bind_eq_ok.mp h
  split at h
  · exact System.proper_ofMatrices h (within_constantRow n _) (Matrix.within_identity 1)
  · obtain ⟨common, _, h⟩ := except_bind_eq_ok.mp h
    obtain ⟨length, _, h⟩ := except_bind_eq_ok.mp h
    split at h
    · cases h
    · obtain ⟨ws, _, h⟩ := except_bind_eq_ok.mp h
      exact System.proper_ofMatrices h (within_broadcast length _) (Matrix.within_identity length)

theorem proper_constantExpression (h : d.constantExpression i = .ok s) : s.Proper := by
  unfold constantExpression at h
  obtain ⟨value, _, h⟩ := except_bind_eq_ok.mp h
  obtain ⟨width, _, h⟩ := except_bind_eq_ok.mp h
  have hcolumn {xs : List Float} (h : System.ofMatrices (Matrix.zero 1 0) (column (scalars xs)) = .ok s) :
      s.Proper := System.proper_ofMatrices h (Matrix.within_zero 1 0) (within_column _)
  by_cases hone : value.size = 1
  · rw [if_pos hone] at h
    obtain ⟨_, _, h⟩ := except_bind_eq_ok.mp h
    split at h
    · exact hcolumn h
    · cases h
  · rw [if_neg hone] at h
    simp only at h
    split at h
    · exact hcolumn h
    · cases h

theorem proper_gainExpression (h : d.gainExpression i = .ok s) : s.Proper := by
  unfold gainExpression at h
  obtain ⟨isWord, _, h⟩ := except_bind_eq_ok.mp h
  split at h
  · cases h
  obtain ⟨gain, _, h⟩ := except_bind_eq_ok.mp h
  obtain ⟨width, _, h⟩ := except_bind_eq_ok.mp h
  obtain ⟨n, _, h⟩ := except_bind_eq_ok.mp h
  split at h
  · exact System.proper_ofMatrices h (Matrix.within_identity n) (within_column _)
  · split at h
    · rename_i xs hx
      refine System.proper_ofMatrices h (Matrix.within_identity n) (within_diagonalOf ?_)
      rw [scalars, List.length_map, Tensor.length_spread? hx]
    · cases h

theorem proper_biasExpression (h : d.biasExpression i = .ok s) : s.Proper := by
  unfold biasExpression at h
  obtain ⟨bias, _, h⟩ := except_bind_eq_ok.mp h
  obtain ⟨width, _, h⟩ := except_bind_eq_ok.mp h
  obtain ⟨n, _, h⟩ := except_bind_eq_ok.mp h
  split at h
  · refine System.proper_ofMatrices h (Matrix.within_stack fun m hm => ?_)
      ((Matrix.within_identity n).beside (within_column _))
    rcases List.mem_cons.mp hm with rfl | hm
    · exact ⟨Matrix.within_identity n, rfl⟩
    · obtain rfl := List.mem_singleton.mp hm
      exact ⟨Matrix.within_zero 1 n, rfl⟩
  · cases h

/-- Parameters that are read as matrices are those that stand for one with all entries in its columns. -/
theorem matrixParam_eq_ok {name : String} {m : Matrix α} :
    d.matrixParam i name = .ok m ↔ (d.param i name .none).entries? = some m ∧ m.Within := by
  have hchecked (k : Matrix Float) : (do
      if !k.isWithin then throw .columnOutside
      return k.scaled : Except Fault (Matrix α)) = .ok m ↔ some k.scaled = some m ∧ m.Within := by
    constructor
    · intro h
      split at h
      · cases h
      · rename_i hwithin
        cases h
        exact ⟨rfl, Matrix.within_scaled.mpr (by simpa using hwithin)⟩
    · rintro ⟨h, hwithin⟩
      obtain rfl := Option.some.inj h
      rw [if_neg (by simpa using Matrix.within_scaled.mp hwithin)]
      rfl
  unfold matrixParam
  generalize d.param i name .none = v
  simp only
  split
  · exact hchecked _
  · rename_i hv
    constructor
    · intro h
      obtain ⟨t, ht, h⟩ := except_bind_eq_ok.mp h
      rw [Value.entries_of_tensor hv ht]
      split at h
      · rename_i k hk
        rw [hk]
        exact (hchecked k).mp h
      · obtain ⟨k, hk, _⟩ := except_bind_eq_ok.mp h
        cases hk
    · rintro ⟨hentries, hwithin⟩
      obtain ⟨t, ht⟩ := Value.tensor_of_entries hv hentries
      rw [Value.entries_of_tensor hv ht] at hentries
      obtain ⟨k, hk, hm⟩ := Option.map_eq_some_iff.mp hentries
      rw [ht]
      simp only [bind, Except.bind, hk]
      exact (hchecked k).mpr ⟨congrArg some hm, hwithin⟩

theorem within_matrixParam {name : String} {m : Matrix α} (h : d.matrixParam i name = .ok m) :
    m.Within := (matrixParam_eq_ok.mp h).2

theorem proper_polyExpression (h : d.polyExpression i = .ok s) : s.Proper := by
  unfold polyExpression at h
  obtain ⟨_, _, h⟩ := except_bind_eq_ok.mp h
  obtain ⟨_, _, h⟩ := except_bind_eq_ok.mp h
  obtain ⟨p, hp, h⟩ := except_bind_eq_ok.mp h
  obtain ⟨k, hk, h⟩ := except_bind_eq_ok.mp h
  exact System.proper_ofMatrices h (within_matrixParam hp) (within_matrixParam hk)

/-- No expression leaves its columns and monomials. -/
theorem proper_expression (h : d.expression i = .ok s) : s.Proper := by
  unfold expression at h
  split at h
  · exact proper_sumExpression h
  · exact proper_sumExpression h
  · exact proper_productExpression h
  · exact proper_constantExpression h
  · exact proper_gainExpression h
  · exact proper_biasExpression h
  · exact proper_polyExpression h
  · cases h

/-- The equations of a block are its expression, closed; the widths of its ports add up to the columns
and the rows. -/
theorem equations_eq_ok (h : d.equations i = .ok s) :
    ∃ E : System α, d.expression i = .ok E ∧ s = E.closed ∧
      (∃ ws, d.inputWidths i = .ok ws ∧ sumWidths ws = E.width) ∧ d.outputWidth i = .ok E.equations.length := by
  unfold equations at h
  obtain ⟨E, hE, h⟩ := except_bind_eq_ok.mp h
  obtain ⟨ws, hws, h⟩ := except_bind_eq_ok.mp h
  obtain ⟨out, hout, h⟩ := except_bind_eq_ok.mp h
  by_cases hin : ((E.width : Int) != sumWidths ws) = true
  · rw [if_pos hin] at h
    cases h
  rw [if_neg hin] at h
  by_cases hrows : ((E.equations.length : Int) != out) = true
  · rw [if_pos hrows] at h
    cases h
  rw [if_neg hrows] at h
  have hin' : (E.width : Int) = sumWidths ws := by simpa using hin
  have hrows' : (E.equations.length : Int) = out := by simpa using hrows
  subst hrows'
  rw [Int.toNat_natCast, System.appendOutputs_eq] at h
  cases h
  exact ⟨E, hE, rfl, ⟨ws, hws, hin'.symm⟩, hout⟩

end Diagram

end Transcription
