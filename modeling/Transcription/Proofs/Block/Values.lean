import Transcription.Proofs.Block.Expressions
import Transcription.Proofs.Block.Operators

namespace Transcription

def spreadAt {α : Type} [Zero α] (u : List α) (j : Nat) : α :=
  if u.length = 1 then u.getD 0 0 else u.getD j 0

variable {α : Type}

namespace Equation

theorem nat_eq_ok {z : ℤ} {n : Nat} (h : nat z = .ok n) : z = n := by
  unfold nat at h
  split at h
  · cases h
  · cases h
    omega

theorem nat_natCast (k : Nat) : nat k = .ok k := if_neg (Int.not_lt.mpr (Int.natCast_nonneg k))

theorem mapM_nat (ks : List Nat) : (ks.map (Nat.cast : Nat → ℤ)).mapM nat = .ok ks := by
  refine except_mapM_eq_ok.mpr (List.forall₂_map_left_iff.mpr ?_)
  exact List.forall₂_same.mpr fun k _ => nat_natCast k

/-- Inputs have one common length, or they are scalars. -/
theorem width_of_vectorLength {ws : List ℤ} {l : ℤ} (h : vectorLength ws = .ok l) :
    ∀ w ∈ ws, w = 1 ∨ w = l := by
  intro w hw
  by_cases hone : w = 1
  · exact .inl hone
  have hmem : w ∈ (ws.filter (· != 1)).eraseDups :=
    List.mem_eraseDups.mpr (List.mem_filter.mpr ⟨hw, by simpa using hone⟩)
  unfold vectorLength at h
  split at h
  · rename_i hnil
    rw [hnil] at hmem
    cases hmem
  · rename_i n hlone
    rw [hlone] at hmem
    cases h
    exact .inr (List.mem_singleton.mp hmem)
  · cases h

section Inputs

variable [Scalar α]

def entriesAt {α : Type} (j : Nat) : Nat → List (Nat × α) → Row α
  | _, [] => []
  | c, (w, a) :: rest => (c + if w = 1 then 0 else j, a) :: entriesAt j (c + w) rest

omit [Scalar α] in
theorem shift_entriesAt (j k c : Nat) (ws : List (Nat × α)) :
    Row.shift k (entriesAt j c ws) = entriesAt j (c + k) ws := by
  induction ws generalizing c with
  | nil => rfl
  | cons w ws ih =>
    obtain ⟨w, a⟩ := w
    rw [entriesAt, entriesAt, Nat.add_right_comm c k w, ← ih, Nat.add_right_comm c k]
    rfl

theorem compact_append (r q : Row α) : Row.compact (r ++ q) = Row.compact r ++ Row.compact q :=
  List.filter_append _ _

theorem shift_compact (k : Nat) (r : Row α) :
    Row.shift k (Row.compact r) = Row.compact (Row.shift k r) := by
  rw [Row.compact, Row.compact, Row.shift, Row.shift, List.filter_map]
  rfl

theorem rows_inputColumns {length w : Nat} (h : w = 1 ∨ w = length) (a : α) :
    (inputColumns length w a).rows =
      (List.range length).map fun j => Row.compact [(if w = 1 then 0 else j, a)] := by
  unfold inputColumns
  by_cases hw : w = 1
  · simp only [hw, if_true, List.map_const', List.length_range]
  · obtain rfl := h.resolve_left hw
    simp only [hw, if_false]

theorem cols_inputColumns (length w : Nat) (a : α) : (inputColumns length w a).cols = w := by
  unfold inputColumns
  split
  · rename_i h
    exact h.symm
  · rfl

theorem cols_broadcast (length : Nat) (ws : List (Nat × α)) :
    (broadcast length ws).cols = (ws.map (·.1)).sum := by
  induction ws with
  | nil => rfl
  | cons w ws ih =>
    rw [List.map_cons, List.sum_cons, ← ih, ← cols_inputColumns length w.1 w.2]
    rfl

/-- Inputs that are scalars or vectors of one length stand side by side in as many rows. -/
theorem rows_broadcast {length : Nat} {ws : List (Nat × α)} (h : ∀ w ∈ ws, w.1 = 1 ∨ w.1 = length) :
    (broadcast length ws).rows =
      (List.range length).map fun j => Row.compact (entriesAt j 0 ws) := by
  induction ws with
  | nil => simp [broadcast, Matrix.zero, entriesAt, Row.compact]
  | cons w ws ih =>
    obtain ⟨w, a⟩ := w
    obtain ⟨hw, hws⟩ := List.forall_mem_cons.mp h
    rw [broadcast, Matrix.beside, rows_inputColumns hw, ih hws, cols_inputColumns, List.zipWith_map,
      List.zipWith_self]
    refine List.map_congr_left fun j _ => ?_
    rw [shift_compact, shift_entriesAt, ← compact_append, entriesAt, Nat.zero_add, Nat.zero_add]
    rfl

end Inputs

end Equation

variable [LinearOrder α] [ExactScalar α]

namespace System

/-- A system of two matrices has the values of their rows, zeros or not. -/
theorem residualAt_ofMatrices {p k : Matrix α} {s : System α} (h : ofMatrices p k = .ok s)
    (x : Nat → α) :
    s.residualAt x = k.rows.map (equationAt fun i => (p.rows.map (monomialAt x)).getD i 0) := by
  unfold ofMatrices at h
  dsimp only at h
  split at h
  · cases h
    have hmonomials : (p.compact.rows.map (monomialAt x)) = p.rows.map (monomialAt x) :=
      List.map_map.trans (List.map_congr_left fun r _ => monomialAt_compact x r)
    rw [residualAt_getD, monomialsAt, hmonomials]
    exact List.map_map.trans (List.map_congr_left fun r _ => equationAt_compact _ r)
  · cases h

theorem size_ofMatrices {p k : Matrix α} {s : System α} (h : ofMatrices p k = .ok s) :
    s.width = p.cols ∧ s.equations.length = k.rows.length := by
  unfold ofMatrices at h
  dsimp only at h
  split at h
  · cases h
    exact ⟨rfl, List.length_map _⟩
  · cases h

theorem equationAt_append (m : Nat → α) (r q : Row α) :
    equationAt m (r ++ q) = equationAt m r + equationAt m q := by
  rw [equationAt_eq, equationAt_eq, equationAt_eq, List.map_append, List.sum_append]

/-- A closed system leaves the differences between expressions and outputs. -/
theorem residualAt_closed {s : System α} (hs : s.Proper) {xs ys : List α} (hx : xs.length = s.width)
    (hy : ys.length = s.equations.length) :
    s.closed.residualAt (point (xs ++ ys)) =
      List.zipWith (· - ·) (s.residualAt (point xs)) ys := by
  have hinputs : s.monomials.map (monomialAt (point (xs ++ ys))) = s.monomialsAt (point xs) := by
    refine List.map_congr_left fun r hr => monomialAt_congr fun t ht => ?_
    rw [point_eq_getD, point_eq_getD, List.getD_append _ _ _ _ (hx ▸ hs.monomials r hr t ht)]
  have houtputs : ((List.range s.equations.length).map fun i => [(i + s.width, (1 : α))]).map
      (monomialAt (point (xs ++ ys))) = ys := by
    rw [List.map_map, ← hy]
    refine List.ext_getElem (by simp) fun i hi _ => ?_
    rw [List.getElem_map, List.getElem_range, Function.comp_apply, monomialAt_single, point_eq_getD,
      List.getD_append_right _ _ _ _ (hx ▸ Nat.le_add_left _ _), hx, Nat.add_sub_cancel]
    exact List.getD_eq_getElem _ _ _
  have hmonomials : s.closed.monomialsAt (point (xs ++ ys)) = s.monomialsAt (point xs) ++ ys := by
    rw [monomialsAt, monomials_closed, List.map_append, hinputs, houtputs]
  have hlength : (s.monomialsAt (point xs)).length = s.monomials.length := List.length_map _
  rw [residualAt_getD, residualAt_getD, hmonomials]
  refine List.ext_getElem? fun j => ?_
  rw [List.getElem?_map, equations_closed, List.getElem?_zipWith, List.getElem?_map]
  cases hr : s.equations[j]? with
  | none => rfl
  | some r =>
    obtain ⟨hj, _⟩ := List.getElem?_eq_some_iff.mp hr
    have hwithin := hs.equations r (List.mem_of_getElem? hr)
    have hleft : equationAt (fun i => (s.monomialsAt (point xs) ++ ys).getD i 0) r =
        equationAt (fun i => (s.monomialsAt (point xs)).getD i 0) r :=
      equationAt_congr fun t ht => List.getD_append _ _ _ _ (hlength ▸ hwithin t ht)
    have hright : (s.monomialsAt (point xs) ++ ys).getD (j + s.monomials.length) 0 = ys[j] := by
      rw [List.getD_append_right _ _ _ _ (hlength ▸ Nat.le_add_left _ _), hlength, Nat.add_sub_cancel]
      exact List.getD_eq_getElem _ _ _
    rw [Option.map_some, Option.map_some, Option.map_some, List.getElem?_eq_getElem (hy ▸ hj),
      equationAt_append, hleft, equationAt_cons, equationAt_nil, hright]
    exact congrArg some (by ring)

end System

namespace Matrix

theorem monomials_identity (xs : List α) :
    (identity xs.length).rows.map (System.monomialAt (System.point xs)) = xs := by
  refine List.ext_getElem (by simp [identity]) fun i hi _ => ?_
  simp only [identity, List.getElem_map, List.getElem_range]
  rw [System.monomialAt_single, System.point_eq_getD]
  exact List.getD_eq_getElem _ _ _

theorem equations_identity (ms : List α) :
    (identity ms.length).rows.map (System.equationAt fun i => ms.getD i 0) = ms := by
  refine List.ext_getElem (by simp [identity]) fun i hi _ => ?_
  simp only [identity, List.getElem_map, List.getElem_range]
  rw [System.equationAt_cons, System.equationAt_nil, one_mul, add_zero]
  exact List.getD_eq_getElem _ _ _

end Matrix

namespace Equation

/-- Read at a point made of signals, entries at a place see the scalars of the signals there. -/
theorem map_entriesAt {β : Type} (f : α → α → β) {us : List (List α)} (scales : List α) {j length : Nat}
    (hj : j < length) (h : ∀ u ∈ us, u.length = 1 ∨ u.length = length) (before : List α) :
    (entriesAt j before.length ((us.map List.length).zip scales)).map
        (fun t => f (System.point (before ++ us.flatten) t.1) t.2) =
      List.zipWith (fun u a => f (spreadAt u j) a) us scales := by
  induction us generalizing scales before with
  | nil => rfl
  | cons u us ih =>
    cases scales with
    | nil => rfl
    | cons a scales =>
      obtain ⟨hu, hus⟩ := List.forall_mem_cons.mp h
      have hplace : (if u.length = 1 then 0 else j) < u.length := by
        split
        · omega
        · have := hu.resolve_left (by assumption)
          omega
      have hhead : System.point (before ++ (u ++ us.flatten))
          (before.length + if u.length = 1 then 0 else j) = spreadAt u j := by
        rw [System.point_eq_getD, List.getD_append_right _ _ _ _ (Nat.le_add_right _ _),
          Nat.add_sub_cancel_left, List.getD_append _ _ _ _ hplace, spreadAt]
        split <;> rfl
      have htail := ih scales hus (before ++ u)
      rw [List.length_append, List.append_assoc] at htail
      rw [List.map_cons, List.zip_cons_cons, entriesAt, List.map_cons, List.zipWith_cons_cons,
        List.flatten_cons, hhead, htail]

theorem map_zipIdx_replicate {β : Type} (f : α → α → β) (u : List α) (a : α) :
    (List.replicate u.length a).zipIdx.map (fun t => f (u.getD t.2 0) t.1) = u.map fun b => f b a := by
  refine List.ext_getElem (by simp) fun i hi _ => ?_
  have hlt : i < u.length := by simpa using hi
  rw [List.getElem_map, List.getElem_zipIdx, List.getElem_map, List.getElem_replicate, Nat.zero_add,
    List.getD_eq_getElem _ _ hlt]

theorem equationAt_constantRow (u : List α) (a : α) :
    System.equationAt (fun i => u.getD i 0) (constantRow u.length a) = a * u.sum := by
  have hterms := map_zipIdx_replicate (fun b a => a * b) u a
  rw [constantRow, Row.ofDense, System.equationAt_compact, System.equationAt_eq, List.map_map]
  refine (congrArg List.sum hterms).trans ?_
  rw [List.sum_map_mul_left, List.map_id']

theorem monomialAt_constantRow (u : List α) (e : α) :
    System.monomialAt (System.point u) (constantRow u.length e) =
      (u.map fun b => Scalar.pow b e).prod := by
  have hpoint : System.point u = fun i => u.getD i 0 := funext (System.point_eq_getD u)
  rw [constantRow, Row.ofDense, System.monomialAt_compact, System.monomialAt_eq, List.map_map, hpoint]
  exact congrArg List.prod (map_zipIdx_replicate Scalar.pow u e)

theorem equationAt_lone (m : Nat → α) (a : α) : System.equationAt m (Row.ofDense [a]) = a * m 0 := by
  rw [Row.ofDense, System.equationAt_compact, System.equationAt_eq]
  simp

/-- The rows of a column of scalars over a lone monomial. -/
theorem equations_column (m : Nat → α) (as : List α) :
    (column as).rows.map (System.equationAt m) = as.map fun a => a * m 0 := by
  rw [column, Matrix.ofDense, List.map_map, List.map_map]
  exact List.map_congr_left fun a _ => equationAt_lone m a

theorem map_eq_range {β : Type} (as : List α) (f : α → β) :
    as.map f = (List.range as.length).map fun j => f (as.getD j 0) := by
  refine List.ext_getElem (by simp) fun j hj _ => ?_
  have hlt : j < as.length := by simpa using hj
  rw [List.getElem_map, List.getElem_map, List.getElem_range, List.getD_eq_getElem _ _ hlt]

theorem equations_diagonalOf (m : Nat → α) (as : List α) :
    (diagonalOf as).map (System.equationAt m) =
      (List.range as.length).map fun j => as.getD j 0 * m j := by
  refine List.ext_getElem (by simp [diagonalOf]) fun j hj _ => ?_
  have hlt : j < as.length := by simpa [diagonalOf] using hj
  simp only [diagonalOf, List.getElem_map, List.getElem_zipIdx, List.getElem_range, Nat.zero_add]
  rw [System.equationAt_compact, System.equationAt_cons, System.equationAt_nil, add_zero,
    List.getD_eq_getElem _ _ hlt]

/-- The monomials of a bias: the scalars of its input, then the constant. -/
theorem monomials_bias (u : List α) :
    (Matrix.stack u.length [Matrix.identity u.length, Matrix.zero 1 u.length]).rows.map
      (System.monomialAt (System.point u)) = u ++ [1] := by
  have hstack : (Matrix.stack u.length [Matrix.identity u.length, Matrix.zero 1 u.length]).rows =
      (Matrix.identity u.length : Matrix α).rows ++ [[]] := rfl
  rw [hstack, List.map_append, Matrix.monomials_identity, List.map_cons, List.map_nil,
    System.monomialAt_nil]

theorem rows_bias (as : List α) : ((Matrix.identity as.length).beside (column as)).rows =
    as.zipIdx.map fun t => (t.2, 1) :: Row.shift as.length (Row.ofDense [t.1]) := by
  refine List.ext_getElem (by simp [Matrix.beside, Matrix.identity, column, Matrix.ofDense]) fun j _ _ => ?_
  simp [Matrix.beside, Matrix.identity, column, Matrix.ofDense]

theorem equations_bias {u as : List α} (h : as.length = u.length) :
    ((Matrix.identity as.length).beside (column as)).rows.map
        (System.equationAt fun i => (u ++ [1]).getD i 0) =
      (List.range as.length).map fun j => u.getD j 0 + as.getD j 0 := by
  rw [rows_bias, List.map_map]
  refine List.ext_getElem (by simp) fun j hj _ => ?_
  have hlt : j < as.length := by simpa using hj
  have hinput : (u ++ [1]).getD j 0 = u.getD j 0 := List.getD_append _ _ _ _ (h ▸ hlt)
  have hone : (u ++ [1]).getD as.length 0 = 1 := by
    rw [h, List.getD_append_right _ _ _ _ le_rfl, Nat.sub_self]
    rfl
  simp only [List.getElem_map, List.getElem_zipIdx, List.getElem_range, Nat.zero_add,
    Function.comp_apply]
  rw [System.equationAt_cons, System.equationAt_shift, equationAt_lone, one_mul, Nat.zero_add, hinput,
    hone, mul_one, List.getD_eq_getElem as _ hlt]

end Equation

end Transcription
