import Transcription.Proofs.Block.Values

namespace Transcription

inductive Operation (α : Type) where
  | sum (signs : List α)
  | product (exponents : List ℤ)
  | constant (values : List α)
  | gain (factors : List α)
  | bias (offsets : List α)
  | polynomial (exponents coefficients : Matrix α)

def widths {α : Type} (us : List (List α)) : List ℤ := us.map fun u => (u.length : ℤ)

namespace Operation

variable {α : Type} [LinearOrder α] [ExactScalar α]

def monomials (p : Matrix α) (u : List α) : List α :=
  p.rows.map fun r => (r.map fun t => Scalar.pow (u.getD t.1 0) t.2).prod

/-- The value at place `j` of an operation on the signals `us` that has `n` values. A lone signal with
a lone value is added up or multiplied out; where there are more, lone scalars stand at every place. -/
def value (op : Operation α) (us : List (List α)) (n j : Nat) : α :=
  match op with
  | sum signs =>
    if us.length = 1 ∧ n = 1 then signs.headD 1 * us.flatten.sum
    else (List.zipWith (fun u a => a * spreadAt u j) us signs).sum
  | product exponents =>
    if us.length = 1 ∧ n = 1 then (us.flatten.map fun a => a ^ exponents.headD 1).prod
    else (List.zipWith (fun u e => spreadAt u j ^ e) us exponents).prod
  | constant values => spreadAt values j
  | gain factors => spreadAt factors j * spreadAt us.flatten j
  | bias offsets => us.flatten.getD j 0 + spreadAt offsets j
  | polynomial p k => ((k.rows.getD j []).map fun t => t.2 * (monomials p us.flatten).getD t.1 0).sum

def Spread (us : List (List α)) (n : Nat) : Prop := ∀ u ∈ us, u.length = 1 ∨ u.length = n

def Fits (op : Operation α) (us : List (List α)) (n : Nat) : Prop :=
  match op with
  | sum signs => signs.length = us.length ∧ (us.length = 1 ∧ n = 1 ∨ Spread us n)
  | product exponents => exponents.length = us.length ∧ (us.length = 1 ∧ n = 1 ∨ Spread us n)
  | constant values => Spread [values] n
  | gain factors => us.length = 1 ∧ Spread us n ∧ Spread [factors] n
  | bias offsets => us.length = 1 ∧ us.flatten.length = n ∧ Spread [offsets] n
  | polynomial _ k => k.rows.length = n

def Defined (op : Operation α) (us : List (List α)) : Prop :=
  match op with
  | product exponents => ∀ p ∈ us.zip exponents, p.2 < 0 → ∀ a ∈ p.1, a ≠ 0
  | _ => True

end Operation

namespace Diagram

variable {α : Type} [LinearOrder α] [ExactScalar α]

open Equation

/-- What the parameters of a block spell if it is of the given type. -/
def operationOf (d : Diagram) (i : Nat) (type : String) : Option (Operation α) :=
  let values (name : String) (x : Float) : Option (List α) :=
    scalars <$> (d.param i name (.float x)).doubles.toOption
  match type with
  | "Sum" | "Add" =>
    .sum <$> (Operators.spelled '+' (d.param i "Inputs" (.text "++"))).mapM Operators.sign?
  | "Product" =>
    .product <$> (Operators.spelled '*' (d.param i "Inputs" (.text "2"))).mapM Operators.exponent?
  | "Constant" => .constant <$> values "Value" 1
  | "Gain" => .gain <$> values "Gain" 1
  | "Bias" => .bias <$> values "Bias" 0
  | "Polyblock" => do
    return .polynomial (← (d.param i "P" .none).entries?) (← (d.param i "K" .none).entries?)
  | _ => none

def operation (d : Diagram) (i : Nat) : Option (Operation α) :=
  d.operationOf i (if (d.block i).reference = some "Polyblock" then "Polyblock" else (d.block i).type)

/-- The rows of an expression are the values of an operation, on all signals of the widths of a
block. -/
def Computes (d : Diagram) (i : Nat) (op : Operation α) (s : System α) : Prop :=
  ∀ us : List (List α), d.inputWidths i = .ok (widths us) →
    op.Fits us s.equations.length ∧ (op.Defined us →
      s.residualAt (System.point us.flatten) =
        (List.range s.equations.length).map (op.value us s.equations.length))

end Diagram

variable {α : Type} [LinearOrder α] [ExactScalar α]

namespace Equation

omit [LinearOrder α] [ExactScalar α] in
theorem sumWidths_widths (us : List (List α)) :
    Diagram.sumWidths (widths us) = (us.flatten.length : ℤ) := by
  induction us with
  | nil => rfl
  | cons u us ih =>
    rw [List.flatten_cons, List.length_append, Nat.cast_add, ← ih]
    rfl

/-- Scalars spread over some places are the given ones at each place. -/
theorem getD_spread {t : Tensor} {n : Nat} {xs : List Float} (h : t.spread? n = some xs) {j : Nat}
    (hj : j < n) : (scalars xs : List α).getD j 0 = spreadAt (scalars t.data) j := by
  unfold Tensor.spread? at h
  split at h
  · rename_i x hdata
    cases h
    rw [hdata, List.getD_eq_getElem _ _ (by simpa [scalars] using hj)]
    simp [scalars, spreadAt]
  · rename_i hlone
    split at h
    · cases h
      have hne : (scalars t.data : List α).length ≠ 1 := by
        rw [scalars, List.length_map]
        intro hone
        obtain ⟨x, hx⟩ := List.length_eq_one_iff.mp hone
        exact hlone x hx
      rw [spreadAt, if_neg hne]
    · cases h

theorem spread_of_spread? {t : Tensor} {n : Nat} {xs : List Float} (h : t.spread? n = some xs) :
    Operation.Spread [(scalars t.data : List α)] n := by
  intro u hu
  obtain rfl := List.mem_singleton.mp hu
  rw [scalars, List.length_map]
  unfold Tensor.spread? at h
  split at h
  · rename_i x hdata
    exact .inl (hdata ▸ rfl)
  · split at h
    · cases h
      exact .inr (by assumption)
    · cases h

/-- What inputs side by side come to at the scalars of signals: one row per place, over coefficients
as well as exponents. -/
theorem broadcast_rows {us : List (List α)} {length : Nat} (h : Operation.Spread us length)
    (scales : List α) :
    (broadcast length ((us.map List.length).zip scales)).rows.map
        (System.equationAt fun i => us.flatten.getD i 0) =
      (List.range length).map
        (fun j => (List.zipWith (fun u a => a * spreadAt u j) us scales).sum) ∧
    (broadcast length ((us.map List.length).zip scales)).rows.map
        (System.monomialAt (System.point us.flatten)) =
      (List.range length).map
        (fun j => (List.zipWith (fun u a => Scalar.pow (spreadAt u j) a) us scales).prod) := by
  have hwidths : ∀ w ∈ (us.map List.length).zip scales, w.1 = 1 ∨ w.1 = length := by
    intro w hw
    obtain ⟨u, hu, hlength⟩ := List.mem_map.mp (List.of_mem_zip hw).1
    exact hlength ▸ h u hu
  have hpoint : System.point us.flatten = fun i => us.flatten.getD i 0 :=
    funext (System.point_eq_getD us.flatten)
  rw [rows_broadcast hwidths, List.map_map, List.map_map]
  refine ⟨List.map_congr_left fun j hj => ?_, List.map_congr_left fun j hj => ?_⟩
  · have hentries := map_entriesAt (fun b a => a * b) scales (List.mem_range.mp hj) h []
    rw [List.nil_append, hpoint] at hentries
    rw [Function.comp_apply, System.equationAt_compact, System.equationAt_eq]
    exact congrArg List.sum hentries
  · have hentries := map_entriesAt Scalar.pow scales (List.mem_range.mp hj) h []
    rw [List.nil_append] at hentries
    rw [Function.comp_apply, System.monomialAt_compact, System.monomialAt_eq]
    exact congrArg List.prod hentries

theorem length_broadcast {us : List (List α)} {length : Nat} (h : Operation.Spread us length)
    (scales : List α) :
    (broadcast length ((us.map List.length).zip scales)).rows.length = length := by
  have := congrArg List.length (broadcast_rows h scales).1
  rwa [List.length_map, List.length_map, List.length_range] at this

theorem spreadAt_mem {u : List α} {length j : Nat} (h : u.length = 1 ∨ u.length = length)
    (hj : j < length) : spreadAt u j ∈ u := by
  unfold spreadAt
  split
  · rename_i hone
    rw [List.getD_eq_getElem _ _ (hone ▸ Nat.one_pos)]
    exact List.getElem_mem _
  · rename_i hone
    rw [List.getD_eq_getElem _ _ ((h.resolve_left hone).symm ▸ hj)]
    exact List.getElem_mem _

theorem spreadAt_of_lt {as : List α} {j : Nat} (hj : j < as.length) : spreadAt as j = as.getD j 0 := by
  unfold spreadAt
  split
  · rw [show j = 0 by omega]
  · rfl

/-- A whole power is one of the field wherever nothing is divided by zero. -/
theorem pow_exponent {a : α} {e : ℤ} (h : e < 0 → a ≠ 0) : Scalar.pow a (e : α) = a ^ e := by
  refine Scalar.pow_int a e ?_
  rcases Int.lt_or_le e 0 with he | he
  · exact .inl (h he)
  · exact .inr he

/-- The factors of a product at a place, as powers of the field. -/
theorem factors_eq {us : List (List α)} {exponents : List ℤ}
    (hd : (Operation.product exponents : Operation α).Defined us) {length j : Nat} (hj : j < length)
    (h : Operation.Spread us length) :
    List.zipWith (fun u a => Scalar.pow (spreadAt u j) a) us (exponents.map Int.cast) =
      List.zipWith (fun u e => spreadAt u j ^ e) us exponents := by
  rw [List.zipWith_map_right, ← List.map_uncurry_zip_eq_zipWith, ← List.map_uncurry_zip_eq_zipWith]
  refine List.map_congr_left fun p hp => pow_exponent fun hneg => ?_
  exact hd p hp hneg _ (spreadAt_mem (h p.1 (List.of_mem_zip hp).1) hj)

theorem lone_factors_eq {us : List (List α)} {exponents : List ℤ}
    (hd : (Operation.product exponents : Operation α).Defined us) (hlone : us.length = 1) :
    us.flatten.map (fun a => Scalar.pow a ((exponents.map Int.cast).headD 1)) =
      us.flatten.map fun a => a ^ exponents.headD 1 := by
  obtain ⟨u, rfl⟩ := List.length_eq_one_iff.mp hlone
  refine List.map_congr_left fun a ha => ?_
  cases exponents with
  | nil => exact (System.pow_one_eq a).trans (zpow_one a).symm
  | cons e es =>
    exact pow_exponent fun hneg => hd (u, e) List.mem_cons_self hneg a (by simpa using ha)

end Equation

namespace Diagram

open Equation

variable {d : Diagram} {i : Nat} {s : System α}

omit [LinearOrder α] [ExactScalar α] in
theorem length_inputWidths {ws : List ℤ} (h : d.inputWidths i = .ok ws) :
    ws.length = (d.block i).inports := by
  have := (except_mapM_eq_ok.mp h).length_eq
  rw [← this, inports, List.length_map, List.length_range]

omit [LinearOrder α] [ExactScalar α] in
/-- The scalars of a block's inputs are those of its signals. -/
theorem nat_widths {us : List (List α)} {n : Nat} (hn : nat (sumWidths (widths us)) = .ok n) :
    us.flatten.length = n := by
  have := nat_eq_ok hn
  rw [sumWidths_widths] at this
  exact_mod_cast this

omit [LinearOrder α] [ExactScalar α] in
theorem lone_iff {us : List (List α)} {n : Nat} :
    (decide ((widths us).length = 1) && decide ((n : ℤ) = 1)) = true ↔ us.length = 1 ∧ n = 1 := by
  rw [widths, List.length_map, Bool.and_eq_true, decide_eq_true_eq, decide_eq_true_eq,
    Nat.cast_eq_one]

omit [LinearOrder α] [ExactScalar α] in
/-- The inputs of an elementwise block have a common length, unless they are scalars. -/
theorem elementwise_eq_ok {us : List (List α)} {f : Nat → List Nat → Except Fault (System α)}
    (h : (do
      let length ← nat (← vectorLength (widths us))
      if (widths us).isEmpty then throw Fault.indexOutside
      f length (← (widths us).mapM nat)) = .ok s) :
    ∃ length : Nat, Operation.Spread us length ∧ f length (us.map List.length) = .ok s := by
  obtain ⟨common, hcommon, h⟩ := except_bind_eq_ok.mp h
  obtain ⟨length, hlength, h⟩ := except_bind_eq_ok.mp h
  split at h
  · cases h
  obtain ⟨ks, hks, h⟩ := except_bind_eq_ok.mp h
  have hlengths : (widths us).mapM nat = .ok (us.map List.length) := by
    rw [← mapM_nat, List.map_map]
    rfl
  obtain rfl := Except.ok.inj (hlengths.symm.trans hks)
  refine ⟨length, fun u hu => ?_, h⟩
  have := width_of_vectorLength hcommon _ (List.mem_map_of_mem hu)
  rw [nat_eq_ok hlength] at this
  exact_mod_cast this

theorem computes_sum (h : d.sumExpression i = .ok s)
    (hout : d.outputWidth i = .ok s.equations.length) :
    ∃ ops, Operators.parse (d.param i "Inputs" (.text "++")) (d.block i).inports ['+', '-'] = .ok ops ∧
      d.Computes i (.sum (ops.map fun c => if c = '+' then 1 else -1)) s := by
  unfold sumExpression at h
  obtain ⟨ws, hws, h⟩ := except_bind_eq_ok.mp h
  obtain ⟨ops, hops, h⟩ := except_bind_eq_ok.mp h
  obtain ⟨n, hn, h⟩ := except_bind_eq_ok.mp h
  obtain ⟨out, hout', h⟩ := except_bind_eq_ok.mp h
  obtain rfl := Except.ok.inj (hout.symm.trans hout')
  refine ⟨ops, length_inputWidths hws ▸ hops, fun us hus => ?_⟩
  obtain rfl := Except.ok.inj (hws.symm.trans hus)
  obtain rfl := nat_widths hn
  have hinputs := Matrix.monomials_identity us.flatten
  have hsigns : (ops.map fun c => if c = '+' then (1 : α) else -1).length = us.length := by
    rw [List.length_map, Operators.length_parse hops, widths, List.length_map]
  split at h
  · rename_i hlone
    have hlone := lone_iff.mp hlone
    refine ⟨⟨hsigns, .inl hlone⟩, fun _ => ?_⟩
    rw [System.residualAt_ofMatrices h, hinputs, hlone.2, List.map_cons, List.map_nil,
      equationAt_constantRow, List.range_one, List.map_cons, List.map_nil, Operation.value,
      if_pos ⟨hlone.1, rfl⟩]
  · rename_i hlone
    obtain ⟨length, hwidths, h⟩ := elementwise_eq_ok h
    have hlength := (System.size_ofMatrices h).2.trans (length_broadcast hwidths _)
    refine ⟨⟨hsigns, .inr (hlength ▸ hwidths)⟩, fun _ => ?_⟩
    rw [System.residualAt_ofMatrices h, hinputs, (broadcast_rows hwidths _).1, hlength]
    refine List.map_congr_left fun j _ => ?_
    rw [Operation.value, if_neg fun hboth => hlone (lone_iff.mpr (hlength ▸ hboth))]

theorem computes_product (h : d.productExpression i = .ok s)
    (hout : d.outputWidth i = .ok s.equations.length) :
    ∃ ops, Operators.parse (d.param i "Inputs" (.text "2")) (d.block i).inports ['*', '/'] = .ok ops ∧
      d.Computes i (.product (ops.map fun c => if c = '*' then 1 else -1)) s := by
  unfold productExpression at h
  obtain ⟨isWord, _, h⟩ := except_bind_eq_ok.mp h
  split at h
  · cases h
  obtain ⟨ws, hws, h⟩ := except_bind_eq_ok.mp h
  obtain ⟨ops, hops, h⟩ := except_bind_eq_ok.mp h
  obtain ⟨n, hn, h⟩ := except_bind_eq_ok.mp h
  obtain ⟨out, hout', h⟩ := except_bind_eq_ok.mp h
  obtain rfl := Except.ok.inj (hout.symm.trans hout')
  refine ⟨ops, length_inputWidths hws ▸ hops, fun us hus => ?_⟩
  obtain rfl := Except.ok.inj (hws.symm.trans hus)
  obtain rfl := nat_widths hn
  have hlisted : (ops.map fun c => if c = '*' then (1 : ℤ) else -1).length = us.length := by
    rw [List.length_map, Operators.length_parse hops, widths, List.length_map]
  -- the exponents are whole numbers
  have hexponents : (ops.map fun c => if c = '*' then (1 : α) else -1) =
      (ops.map fun c => if c = '*' then (1 : ℤ) else -1).map Int.cast := by
    rw [List.map_map]
    refine List.map_congr_left fun c _ => ?_
    rw [Function.comp_apply]
    split <;> simp
  rw [hexponents] at h
  generalize (ops.map fun c => if c = '*' then (1 : ℤ) else -1) = exponents at h hlisted ⊢
  split at h
  · rename_i hlone
    have hlone := lone_iff.mp hlone
    refine ⟨⟨hlisted, .inl hlone⟩, fun hdefined => ?_⟩
    rw [System.residualAt_ofMatrices h, hlone.2, List.map_cons, List.map_nil, monomialAt_constantRow,
      lone_factors_eq hdefined hlone.1, List.range_one, List.map_cons, List.map_nil, Operation.value,
      if_pos ⟨hlone.1, rfl⟩]
    exact Matrix.equations_identity [_]
  · rename_i hlone
    obtain ⟨length, hwidths, h⟩ := elementwise_eq_ok h
    have hlength : s.equations.length = length := by
      rw [(System.size_ofMatrices h).2, Matrix.identity, List.length_map, List.length_range]
    refine ⟨⟨hlisted, .inr (hlength ▸ hwidths)⟩, fun hdefined => ?_⟩
    have hidentity := Matrix.equations_identity ((broadcast length ((us.map List.length).zip
      (exponents.map Int.cast))).rows.map (System.monomialAt (System.point us.flatten)))
    rw [List.length_map, length_broadcast hwidths, (broadcast_rows hwidths _).2] at hidentity
    rw [System.residualAt_ofMatrices h, (broadcast_rows hwidths _).2, hidentity, hlength]
    refine List.map_congr_left fun j hj => ?_
    rw [factors_eq hdefined (List.mem_range.mp hj) hwidths, Operation.value,
      if_neg fun hboth => hlone (lone_iff.mpr (hlength ▸ hboth))]

theorem computes_constant (h : d.constantExpression i = .ok s) :
    ∃ v, (d.param i "Value" (.float 1)).tensor? = .ok v ∧
      d.Computes i (.constant (scalars v.data)) s := by
  unfold constantExpression at h
  obtain ⟨v, hv, h⟩ := except_bind_eq_ok.mp h
  obtain ⟨width, _, h⟩ := except_bind_eq_ok.mp h
  have hcolumn {xs : List Float} (hx : v.spread? width.toNat = some xs)
      (h : System.ofMatrices (Matrix.zero 1 0) (column (scalars xs)) = .ok s) :
      d.Computes i (.constant (scalars v.data)) s := by
    intro us _
    have hlength : s.equations.length = (scalars xs : List α).length := by
      rw [(System.size_ofMatrices h).2, column, Matrix.ofDense, List.length_map, List.length_map]
    have hxs : (scalars xs : List α).length = width.toNat := by
      rw [scalars, List.length_map, Tensor.length_spread? hx]
    refine ⟨hlength ▸ hxs ▸ spread_of_spread? hx, fun _ => ?_⟩
    rw [System.residualAt_ofMatrices h, equations_column, hlength, map_eq_range]
    refine List.map_congr_left fun j hj => ?_
    have hj : j < width.toNat := hxs ▸ List.mem_range.mp hj
    have hone : ((Matrix.zero 1 0 : Matrix α).rows.map
        (System.monomialAt (System.point us.flatten))).getD 0 0 = 1 :=
      System.monomialAt_nil (System.point us.flatten)
    rw [hone, mul_one, getD_spread hx hj, Operation.value]
  refine ⟨v, hv, ?_⟩
  by_cases hone : v.size = 1
  · rw [if_pos hone] at h
    obtain ⟨_, _, h⟩ := except_bind_eq_ok.mp h
    split at h
    · exact hcolumn (by assumption) h
    · cases h
  · rw [if_neg hone] at h
    simp only at h
    split at h
    · exact hcolumn (by assumption) h
    · cases h

omit [LinearOrder α] [ExactScalar α] in
theorem onlyWidth_eq_ok {w : ℤ} (h : d.onlyWidth i = .ok w) : d.inputWidths i = .ok [w] := by
  unfold onlyWidth at h
  obtain ⟨ws, hws, h⟩ := except_bind_eq_ok.mp h
  split at h
  · cases h
    exact hws
  · cases h

omit [LinearOrder α] [ExactScalar α] in
/-- A block with one input has one signal, of the width of the input. -/
theorem lone_signal {w : ℤ} {n : Nat} (hw : d.onlyWidth i = .ok w) (hn : nat w = .ok n)
    {us : List (List α)} (hus : d.inputWidths i = .ok (widths us)) : ∃ u, us = [u] ∧ u.length = n := by
  have hwidths : widths us = [w] := Except.ok.inj (hus.symm.trans (onlyWidth_eq_ok hw))
  obtain ⟨u, rfl⟩ : ∃ u, us = [u] := by
    have := congrArg List.length hwidths
    rw [widths, List.length_map] at this
    exact List.length_eq_one_iff.mp this
  refine ⟨u, rfl, ?_⟩
  have hwidth : (u.length : ℤ) = w := (List.cons.inj hwidths).1
  rw [nat_eq_ok hn] at hwidth
  exact_mod_cast hwidth

theorem computes_gain (h : d.gainExpression i = .ok s) :
    ∃ v, (d.param i "Gain" (.float 1)).tensor? = .ok v ∧
      d.Computes i (.gain (scalars v.data)) s := by
  unfold gainExpression at h
  obtain ⟨isWord, _, h⟩ := except_bind_eq_ok.mp h
  split at h
  · cases h
  obtain ⟨v, hv, h⟩ := except_bind_eq_ok.mp h
  obtain ⟨w, hw, h⟩ := except_bind_eq_ok.mp h
  obtain ⟨n, hn, h⟩ := except_bind_eq_ok.mp h
  refine ⟨v, hv, fun us hus => ?_⟩
  obtain ⟨u, rfl, rfl⟩ := lone_signal hw hn hus
  rw [List.flatten_singleton]
  split at h
  · rename_i hone
    have hlength : s.equations.length = (scalars v.data : List α).length := by
      rw [(System.size_ofMatrices h).2, column, Matrix.ofDense, List.length_map, List.length_map]
    refine ⟨⟨rfl, List.forall_mem_singleton.mpr (.inl hone),
      List.forall_mem_singleton.mpr (.inr hlength.symm)⟩, fun _ => ?_⟩
    rw [System.residualAt_ofMatrices h, Matrix.monomials_identity, equations_column, hlength,
      map_eq_range]
    refine List.map_congr_left fun j hj => ?_
    rw [Operation.value, List.flatten_singleton, spreadAt_of_lt (List.mem_range.mp hj), spreadAt,
      if_pos hone]
  · rename_i hone
    split at h
    · rename_i xs hx
      have hlength : s.equations.length = u.length := by
        rw [(System.size_ofMatrices h).2, diagonalOf, List.length_map, List.length_zipIdx, scalars,
          List.length_map, Tensor.length_spread? hx]
      refine ⟨⟨rfl, List.forall_mem_singleton.mpr (.inr hlength.symm),
        hlength ▸ spread_of_spread? hx⟩, fun _ => ?_⟩
      rw [System.residualAt_ofMatrices h, Matrix.monomials_identity, equations_diagonalOf, hlength,
        scalars, List.length_map, Tensor.length_spread? hx]
      refine List.map_congr_left fun j hj => ?_
      have hj := List.mem_range.mp hj
      rw [Operation.value, List.flatten_singleton, ← getD_spread hx hj, spreadAt_of_lt hj, scalars]
    · cases h

theorem computes_bias (h : d.biasExpression i = .ok s) :
    ∃ v, (d.param i "Bias" (.float 0)).tensor? = .ok v ∧
      d.Computes i (.bias (scalars v.data)) s := by
  unfold biasExpression at h
  obtain ⟨v, hv, h⟩ := except_bind_eq_ok.mp h
  obtain ⟨w, hw, h⟩ := except_bind_eq_ok.mp h
  obtain ⟨n, hn, h⟩ := except_bind_eq_ok.mp h
  refine ⟨v, hv, fun us hus => ?_⟩
  obtain ⟨u, rfl, rfl⟩ := lone_signal hw hn hus
  rw [List.flatten_singleton]
  split at h
  · rename_i xs hx
    have hxs : (scalars xs : List α).length = u.length := by
      rw [scalars, List.length_map, Tensor.length_spread? hx]
    rw [← hxs] at h
    have hlength := (System.size_ofMatrices h).2
    rw [rows_bias, List.length_map, List.length_zipIdx] at hlength
    refine ⟨⟨rfl, by rw [List.flatten_singleton, hlength, hxs], hlength ▸ hxs ▸ spread_of_spread? hx⟩,
      fun _ => ?_⟩
    rw [System.residualAt_ofMatrices h, hxs, monomials_bias, ← hxs, equations_bias hxs, hlength]
    refine List.map_congr_left fun j hj => ?_
    have hj : j < u.length := hxs ▸ List.mem_range.mp hj
    rw [Operation.value, List.flatten_singleton, getD_spread hx hj]
  · cases h

theorem computes_polynomial (h : d.polyExpression i = .ok s) :
    ∃ p k : Matrix α, (d.param i "P" .none).entries? = some p ∧ (d.param i "K" .none).entries? = some k ∧
      d.Computes i (.polynomial p k) s := by
  unfold polyExpression at h
  obtain ⟨_, _, h⟩ := except_bind_eq_ok.mp h
  obtain ⟨_, _, h⟩ := except_bind_eq_ok.mp h
  obtain ⟨p, hp, h⟩ := except_bind_eq_ok.mp h
  obtain ⟨k, hk, h⟩ := except_bind_eq_ok.mp h
  refine ⟨p, k, (matrixParam_eq_ok.mp hp).1, (matrixParam_eq_ok.mp hk).1, fun us _ =>
    ⟨(System.size_ofMatrices h).2.symm, fun _ => ?_⟩⟩
  have hmonomials : p.rows.map (System.monomialAt (System.point us.flatten)) =
      Operation.monomials p us.flatten := by
    refine List.map_congr_left fun r _ => (System.monomialAt_eq _ r).trans ?_
    refine congrArg List.prod (List.map_congr_left fun t _ => ?_)
    rw [System.point_eq_getD]
  rw [System.residualAt_ofMatrices h, hmonomials, (System.size_ofMatrices h).2]
  refine List.ext_getElem (by simp) fun j hj _ => ?_
  have hlt : j < k.rows.length := by simpa using hj
  rw [List.getElem_map, List.getElem_map, List.getElem_range, Operation.value,
    List.getD_eq_getElem _ _ hlt, System.equationAt_eq]

/-- An expression computes the operation of its block. -/
theorem computes_expression (h : d.expression i = .ok s)
    (hout : d.outputWidth i = .ok s.equations.length) :
    ∃ op : Operation α, d.operation i = some op ∧ d.Computes i op s := by
  change ∃ op : Operation α, d.operationOf i (ruleName (d.block i)) = some op ∧ d.Computes i op s
  unfold expression at h
  split at h
  · rename_i hname
    obtain ⟨ops, hops, hs⟩ := computes_sum h hout
    exact ⟨_, by simp only [hname, operationOf, Operators.mapM_sign? hops]; rfl, hs⟩
  · rename_i hname
    obtain ⟨ops, hops, hs⟩ := computes_sum h hout
    exact ⟨_, by simp only [hname, operationOf, Operators.mapM_sign? hops]; rfl, hs⟩
  · rename_i hname
    obtain ⟨ops, hops, hs⟩ := computes_product h hout
    exact ⟨_, by simp only [hname, operationOf, Operators.mapM_exponent? hops]; rfl, hs⟩
  · rename_i hname
    obtain ⟨v, hv, hs⟩ := computes_constant h
    exact ⟨_, by simp only [hname, operationOf, (Value.tensor?_eq_ok.mp hv).2]; rfl, hs⟩
  · rename_i hname
    obtain ⟨v, hv, hs⟩ := computes_gain h
    exact ⟨_, by simp only [hname, operationOf, (Value.tensor?_eq_ok.mp hv).2]; rfl, hs⟩
  · rename_i hname
    obtain ⟨v, hv, hs⟩ := computes_bias h
    exact ⟨_, by simp only [hname, operationOf, (Value.tensor?_eq_ok.mp hv).2]; rfl, hs⟩
  · rename_i hname
    obtain ⟨p, k, hp, hk, hs⟩ := computes_polynomial h
    exact ⟨_, by rw [hname, operationOf, hp, hk]; rfl, hs⟩
  · cases h

/-- The equations of a block are the arithmetic of its operation: there is one for each scalar of its
outputs, and at any inputs that the operation is defined at it leaves the difference between the value
of the operation and the output. -/
theorem equations_arithmetic (h : d.equations i = .ok s) :
    ∃ (op : Operation α) (ws : List ℤ) (n : Nat),
      d.operation i = some op ∧ d.inputWidths i = .ok ws ∧ d.outputWidth i = .ok n ∧
      s.equations.length = n ∧
      ∀ us : List (List α), widths us = ws → op.Fits us n ∧
        ∀ ys : List α, ys.length = n → op.Defined us →
          s.residual (us.flatten ++ ys) = .ok ((List.range n).map fun j => op.value us n j - ys.getD j 0) := by
  obtain ⟨E, hE, rfl, ⟨ws, hws, hwidth⟩, hout⟩ := equations_eq_ok h
  obtain ⟨op, hop, hcomputes⟩ := computes_expression hE hout
  refine ⟨op, ws, E.equations.length, hop, hws, hout, E.length_closed, fun us hus => ?_⟩
  obtain ⟨hfits, hvalues⟩ := hcomputes us (hus ▸ hws)
  refine ⟨hfits, fun ys hys hdefined => ?_⟩
  have hinputs : us.flatten.length = E.width := by
    rw [← hus, sumWidths_widths] at hwidth
    exact_mod_cast hwidth
  have hlength : (us.flatten ++ ys).length = E.closed.width := by
    rw [List.length_append, hinputs, hys]
    rfl
  rw [System.residual_of_length hlength, System.residualAt_closed (proper_expression hE) hinputs hys,
    hvalues hdefined]
  refine congrArg Except.ok (List.ext_getElem (by simp [hys]) fun j hj _ => ?_)
  have hlt : j < ys.length := by
    rw [List.length_zipWith] at hj
    omega
  rw [List.getElem_zipWith, List.getElem_map, List.getElem_map, List.getElem_range,
    List.getD_eq_getElem _ _ hlt]

end Diagram

namespace Ratio

def diagram : Diagram where
  name := "ratio"
  workspace := []
  blocks := #[
    ⟨"u", "SubSystem", "ratio/u", some "InputFromWorkspace", none, [], 0, [none]⟩,
    ⟨"v", "SubSystem", "ratio/v", some "InputFromWorkspace", none, [], 0, [none]⟩,
    ⟨"over", "Product", "ratio/over", none, none, [("Inputs", .text "*/")], 2, [none]⟩,
    ⟨"minus", "Sum", "ratio/minus", none, none, [("Inputs", .text "|+-")], 2, [none]⟩]
  compiled := some [(⟨0, .outport, 1⟩, [1, 2]), (⟨1, .outport, 1⟩, [1, 1]), (⟨2, .outport, 1⟩, [1, 2]),
    (⟨3, .outport, 1⟩, [1, 2])]
  lines := [⟨⟨0, .outport, 1⟩, ⟨2, .inport, 1⟩⟩, ⟨⟨1, .outport, 1⟩, ⟨2, .inport, 2⟩⟩,
    ⟨⟨0, .outport, 1⟩, ⟨3, .inport, 1⟩⟩, ⟨⟨1, .outport, 1⟩, ⟨3, .inport, 2⟩⟩]

def ratio : System ℚ :=
  ⟨5, [[(0, 1), (2, -1)], [(1, 1), (2, -1)], [(3, 1)], [(4, 1)]], [[(0, 1), (2, -1)], [(1, 1), (3, -1)]]⟩

def difference : System ℚ :=
  ⟨5, [[(0, 1)], [(1, 1)], [(2, 1)], [(3, 1)], [(4, 1)]],
    [[(0, 1), (2, -1), (3, -1)], [(1, 1), (2, -1), (4, -1)]]⟩

theorem inputWidths_over : diagram.inputWidths 2 = .ok [2, 1] := by cbv

theorem inputWidths_minus : diagram.inputWidths 3 = .ok [2, 1] := by cbv

theorem outputWidth_over : diagram.outputWidth 2 = .ok 2 := by cbv

theorem outputWidth_minus : diagram.outputWidth 3 = .ok 2 := by cbv

theorem operators_over :
    Operators.parse (diagram.param 2 "Inputs" (.text "2")) 2 ['*', '/'] = .ok ['*', '/'] := by cbv

theorem operators_minus :
    Operators.parse (diagram.param 3 "Inputs" (.text "++")) 2 ['+', '-'] = .ok ['+', '-'] := by cbv

theorem expression_over : diagram.expression 2 =
    .ok (⟨3, [[(0, 1), (2, -1)], [(1, 1), (2, -1)]], [[(0, 1)], [(1, 1)]]⟩ : System ℚ) := by
  have hword : (diagram.param 2 "Multiplication" (.text "Element-wise(.*)")).isWord
      "Element-wise(.*)" = .ok true := by cbv
  change diagram.productExpression 2 = _
  simp only [Diagram.productExpression, hword, inputWidths_over, bind, Except.bind, List.length_cons,
    List.length_nil, Nat.reduceAdd, operators_over]
  rfl

theorem expression_minus : diagram.expression 3 =
    .ok (⟨3, [[(0, 1)], [(1, 1)], [(2, 1)]], [[(0, 1), (2, -1)], [(1, 1), (2, -1)]]⟩ : System ℚ) := by
  change diagram.sumExpression 3 = _
  simp only [Diagram.sumExpression, inputWidths_minus, bind, Except.bind, List.length_cons,
    List.length_nil, Nat.reduceAdd, operators_minus]
  rfl

theorem equations_over : diagram.equations 2 = .ok ratio := by
  simp only [Diagram.equations, expression_over, inputWidths_over, outputWidth_over, bind, Except.bind]
  rfl

theorem equations_minus : diagram.equations 3 = .ok difference := by
  simp only [Diagram.equations, expression_minus, inputWidths_minus, outputWidth_minus, bind, Except.bind]
  rfl

theorem operation_over : diagram.operation 2 = some (.product [1, -1] : Operation ℚ) := by cbv

theorem operation_minus : diagram.operation 3 = some (.sum [1, -1] : Operation ℚ) := by cbv

/-- A pair over a scalar and less a scalar, each against outputs of which the second is off. -/
theorem residual_ratio :
    (∃ s : System ℚ, diagram.equations 2 = .ok s ∧ s.equations.length = 2 ∧
      s.residual [6, 8, 2, 3, 5] = .ok [0, -1]) ∧
    ∃ s : System ℚ, diagram.equations 3 = .ok s ∧ s.equations.length = 2 ∧
      s.residual [6, 8, 2, 4, 5] = .ok [0, 1] := by
  constructor
  · obtain ⟨op, ws, n, hop, hws, hn, hlength, hvalues⟩ := Diagram.equations_arithmetic equations_over
    obtain rfl := Option.some.inj (operation_over.symm.trans hop)
    obtain rfl := Except.ok.inj (inputWidths_over.symm.trans hws)
    obtain rfl : 2 = n := by exact_mod_cast Except.ok.inj (outputWidth_over.symm.trans hn)
    have hdefined : (Operation.product [1, -1]).Defined [[6, 8], [(2 : ℚ)]] := by
      simp [Operation.Defined]
    have hresidual := (hvalues [[6, 8], [2]] rfl).2 [3, 5] rfl hdefined
    refine ⟨ratio, equations_over, hlength, hresidual.trans ?_⟩
    norm_num [Operation.value, spreadAt, List.range_succ]
  · obtain ⟨op, ws, n, hop, hws, hn, hlength, hvalues⟩ := Diagram.equations_arithmetic equations_minus
    obtain rfl := Option.some.inj (operation_minus.symm.trans hop)
    obtain rfl := Except.ok.inj (inputWidths_minus.symm.trans hws)
    obtain rfl : 2 = n := by exact_mod_cast Except.ok.inj (outputWidth_minus.symm.trans hn)
    have hresidual := (hvalues [[6, 8], [2]] rfl).2 [4, 5] rfl trivial
    refine ⟨difference, equations_minus, hlength, hresidual.trans ?_⟩
    norm_num [Operation.value, spreadAt, List.range_succ]

end Ratio

end Transcription
