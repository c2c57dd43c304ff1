import Transcription.Proofs.Block.Values

namespace Transcription

def Nonfatal {β : Type} (x : Except Fault β) : Prop :=
  ∀ e, x = .error e → ∃ operation, e = .unsupported operation

def Plain {β : Type} (x : Except Fault β) : Prop := ∀ operation, x ≠ .error (.unsupported operation)

section Nonfatal

variable {β γ : Type}

@[simp]
theorem nonfatal_ok (b : β) : Nonfatal (.ok b) := fun _ h => nomatch h

@[simp]
theorem nonfatal_pure (b : β) : Nonfatal (pure b) := nonfatal_ok b

@[simp]
theorem nonfatal_throw {e : Fault} :
    Nonfatal (throw e : Except Fault β) ↔ ∃ operation, e = .unsupported operation :=
  ⟨fun h => h e rfl, fun h _ he => Except.error.inj he ▸ h⟩

theorem nonfatal_bind {x : Except Fault β} {f : β → Except Fault γ} :
    Nonfatal (x >>= f) ↔ Nonfatal x ∧ ∀ b, x = .ok b → Nonfatal (f b) := by
  cases x with
  | ok b =>
    refine ⟨fun h => ⟨nonfatal_ok b, fun c hc => ?_⟩, fun h => h.2 b rfl⟩
    cases hc
    exact h
  | error e =>
    refine ⟨fun h => ⟨fun d hd => h d ?_, nofun⟩, fun h d hd => h.1 d ?_⟩ <;>
    · cases hd
      rfl

theorem nonfatal_bind_of_ok {x : Except Fault β} {b : β} (h : x = .ok b) {f : β → Except Fault γ} :
    Nonfatal (x >>= f) ↔ Nonfatal (f b) := by
  rw [h]
  rfl

theorem nonfatal_cases {x : Except Fault β} (h : Nonfatal x) :
    (∃ b, x = .ok b) ∨ ∃ operation, x = .error (.unsupported operation) := by
  cases x with
  | ok b => exact .inl ⟨b, rfl⟩
  | error e =>
    obtain ⟨operation, rfl⟩ := h e rfl
    exact .inr ⟨operation, rfl⟩

theorem Plain.nonfatal_iff {x : Except Fault β} (h : Plain x) : Nonfatal x ↔ ∃ b, x = .ok b := by
  constructor
  · intro hx
    exact (nonfatal_cases hx).resolve_right fun ⟨operation, he⟩ => h operation he
  · rintro ⟨b, rfl⟩
    exact nonfatal_ok b

theorem plain_pure (b : β) : Plain (pure b : Except Fault β) := fun _ => nofun

theorem plain_throw {e : Fault} (h : ∀ operation, e ≠ .unsupported operation) :
    Plain (throw e : Except Fault β) := fun operation he => h operation (Except.error.inj he)

theorem Plain.bind {x : Except Fault β} {f : β → Except Fault γ} (hx : Plain x)
    (hf : ∀ b, Plain (f b)) : Plain (x >>= f) := by
  cases x with
  | ok b => exact hf b
  | error e => exact fun operation he => hx operation (congrArg Except.error (Except.error.inj he))

/-- A condition for what follows a plain computation, the same at every result, is asked beside there
being a result. -/
theorem Plain.nonfatal_bind_iff {P : Prop} {x : Except Fault β} {f : β → Except Fault γ} (hx : Plain x)
    (hf : ∀ b, Nonfatal (f b) ↔ P) : Nonfatal (x >>= f) ↔ (∃ b, x = .ok b) ∧ P := by
  rw [nonfatal_bind, hx.nonfatal_iff]
  refine and_congr_right fun ⟨b, hb⟩ => ?_
  exact ⟨fun h => (hf b).mp (h b hb), fun hP c _ => (hf c).mpr hP⟩

end Nonfatal

namespace Value

theorem plain_double (v : Value) : Plain v.double := by
  unfold double
  repeat' split
  all_goals first
    | exact plain_pure _
    | exact plain_throw fun _ => nofun

mutual

theorem plain_shape : ∀ v : Value, Plain v.shape
  | list vs => by
    rw [shape]
    exact plain_shapeAll vs
  | tuple vs => by
    rw [shape]
    exact plain_shapeAll vs
  | tensor t => by
    rw [shape]
    exact plain_pure _
  | none | bool _ | int _ | float _ | complex _ _ | text _ | sparse _ | other _ => by
    simp only [shape]
    exact plain_pure _

theorem plain_shapeAll : ∀ vs : List Value, Plain (shapeAll vs)
  | [] => by
    rw [shapeAll]
    exact plain_pure _
  | [v] => by
    rw [shapeAll]
    exact (plain_shape v).bind fun _ => plain_pure _
  | v :: w :: vs => by
    rw [shapeAll]
    · refine (plain_shape v).bind fun s => (plain_shapeAll (w :: vs)).bind fun r => ?_
      repeat' split
      all_goals first
        | exact plain_pure _
        | exact plain_throw fun _ => nofun
    · exact nofun

end

mutual

theorem plain_doubles : ∀ v : Value, Plain v.doubles
  | list vs => by
    rw [doubles]
    exact plain_doublesAll vs
  | tuple vs => by
    rw [doubles]
    exact plain_doublesAll vs
  | tensor t => by
    rw [doubles]
    exact plain_pure _
  | none | bool _ | int _ | float _ | complex _ _ | text _ | sparse _ | other _ => by
    simp only [doubles]
    exact (plain_double _).bind fun _ => plain_pure _

theorem plain_doublesAll : ∀ vs : List Value, Plain (doublesAll vs)
  | [] => by
    rw [doublesAll]
    exact plain_pure _
  | v :: vs => by
    rw [doublesAll]
    exact (plain_doubles v).bind fun _ => (plain_doublesAll vs).bind fun _ => plain_pure _

end

theorem plain_tensor? (v : Value) : Plain v.tensor? :=
  v.plain_shape.bind fun _ => v.plain_doubles.bind fun _ => plain_pure _

theorem plain_isWord (t : String) (v : Value) : Plain (v.isWord t) := by
  cases v with
  | tensor a =>
    change Plain (tensorSame a (text t))
    unfold tensorSame
    split
    · exact plain_pure _
    · exact plain_throw fun _ => nofun
  | sparse m => exact plain_throw (e := .wrongKind) fun _ => nofun
  | _ => exact plain_pure _

def read : Value → Except Fault Unit
  | sparse _ => pure ()
  | v => do let _ ← v.tensor?

theorem plain_read (v : Value) : Plain v.read := by
  unfold read
  split
  · exact plain_pure _
  · exact (plain_tensor? _).bind fun _ => plain_pure _

def Numeric (v : Value) : Prop := ∃ t, v.tensor? = .ok t

end Value

namespace Operators

theorem plain_listed (k : Int) : Plain (listed k) := by
  unfold listed
  repeat' split
  all_goals first
    | exact plain_pure _
    | exact plain_throw fun _ => nofun

theorem plain_count? (spec : Value) : Plain (count? spec) := by
  have hlisted (k : Int) : Plain (some <$> listed k) := (plain_listed k).bind fun _ => plain_pure _
  unfold count?
  repeat' split
  all_goals first
    | exact plain_pure _
    | exact hlisted _
    | exact plain_throw fun _ => nofun

/-- Operators whose count can be read are listed for the inputs or do not fit them. -/
theorem nonfatal_parse {spec : Value} {n : Nat} {c : Char} {cs : List Char} :
    Nonfatal (parse spec n (c :: cs)) ↔ ∃ count, count? spec = .ok count := by
  rw [parse, nonfatal_bind, (plain_count? spec).nonfatal_iff]
  refine ⟨fun h => h.1, fun h => ⟨h, fun count _ => ?_⟩⟩
  cases count with
  | some k =>
    simp only [pure_bind]
    split <;> simp
  | none =>
    dsimp only
    repeat' split
    all_goals first
      | exact nonfatal_pure _
      | exact nonfatal_bind.mpr ⟨nonfatal_throw.mpr ⟨_, rfl⟩, fun _ h => by cases h⟩

end Operators

variable {α : Type} [Scalar α]

/-- Two matrices make a system if there is one coefficient per monomial, or no equation. -/
theorem System.nonfatal_ofMatrices {p k : Matrix α} :
    Nonfatal (ofMatrices p k) ↔ k.cols = p.rows.length ∨ k.rows = [] := by
  have hsizes : (decide (k.compact.cols = p.compact.rows.length) || k.compact.rows.isEmpty) = true ↔
      k.cols = p.rows.length ∨ k.rows = [] := by
    simp [Matrix.compact]
  unfold ofMatrices
  dsimp only
  split
  · rename_i h
    exact iff_of_true (nonfatal_pure _) (hsizes.mp h)
  · rename_i h
    refine iff_of_false (fun hn => ?_) (fun hn => h (hsizes.mpr hn))
    obtain ⟨_, he⟩ := nonfatal_throw.mp hn
    cases he

namespace Equation

theorem nonfatal_vectorLength (ws : List ℤ) : Nonfatal (vectorLength ws) := by
  unfold vectorLength
  split <;> simp

theorem vectorLength_eq_ok {ws : List ℤ} {l : ℤ} (h : vectorLength ws = .ok l) : l = 1 ∨ l ∈ ws := by
  unfold vectorLength at h
  split at h
  · cases h
    exact .inl rfl
  · rename_i n hlone
    cases h
    have hmem : l ∈ (ws.filter (· != 1)).eraseDups := hlone ▸ List.mem_singleton.mpr rfl
    exact .inr (List.mem_filter.mp (List.mem_eraseDups.mp hmem)).1
  · cases h

end Equation

namespace Diagram

open Equation

structure Sized (d : Diagram) (i : Nat) (ws : List Nat) (n : Nat) : Prop where
  inputs : d.inputWidths i = .ok (ws.map Nat.cast)
  outputs : d.outputWidth i = .ok n

/-- The operators of a sum or product can be counted, and some are spelled where there are no inports. -/
def Operates (d : Diagram) (i : Nat) (text : String) (first : Char) : Prop :=
  Operators.Countable (d.param i "Inputs" (.text text)) ∧
    ((d.block i).inports = 0 → Operators.spelled first (d.param i "Inputs" (.text text)) ≠ [])

def Multiplies (d : Diagram) (i : Nat) (text : String) (P : Prop) : Prop :=
  ∃ elementwise, (d.param i "Multiplication" (.text text)).isWord text = .ok elementwise ∧
    (elementwise = true → P)

/-- Matrices of exponents and of coefficients, with a column of coefficients for every monomial. -/
def Weighs (α : Type) [Scalar α] (d : Diagram) (i : Nat) : Prop :=
  ∃ p k : Matrix α, (d.param i "P" .none).entries? = some p ∧ (d.param i "K" .none).entries? = some k ∧
    p.Within ∧ k.Within ∧ (k.cols = p.rows.length ∨ k.rows = [])

/-- A primitive that is given what its operation takes. -/
def Formed (α : Type) [Scalar α] (d : Diagram) (i : Nat) : Prop :=
  match ruleName (d.block i) with
  | "Sum" | "Add" => d.Operates i "++" '+'
  | "Product" => d.Multiplies i "Element-wise(.*)" (d.Operates i "2" '*')
  | "Constant" => (d.param i "Value" (.float 1)).Numeric
  | "Gain" => d.Multiplies i "Element-wise(K.*u)"
      ((d.param i "Gain" (.float 1)).Numeric ∧ (d.block i).inports = 1)
  | "Bias" => (d.param i "Bias" (.float 0)).Numeric ∧ (d.block i).inports = 1
  | "Polyblock" => d.Weighs α i
  | _ => True

section Rules

variable {d : Diagram} {i : Nat} {ws : List Nat} {n : Nat}

theorem sumWidths_natCast (ws : List Nat) : sumWidths (ws.map Nat.cast) = (ws.sum : ℤ) := by
  induction ws with
  | nil => rfl
  | cons w ws ih =>
    rw [List.sum_cons, Nat.cast_add, ← ih]
    rfl

theorem Sized.length_eq (h : d.Sized i ws n) : ws.length = (d.block i).inports := by
  have := (except_mapM_eq_ok.mp h.inputs).length_eq
  rw [List.length_map] at this
  rw [← this, inports, List.length_map, List.length_range]

theorem Sized.nil_iff (h : d.Sized i ws n) : ws = [] ↔ (d.block i).inports = 0 := by
  rw [← h.length_eq, List.length_eq_zero_iff]

omit [Scalar α] in
/-- An elementwise block of some inputs, if its matrices fit one another. -/
theorem nonfatal_elementwise {f : Nat → List Nat → Except Fault (System α)}
    (hf : ∀ length, (∀ w ∈ ws, w = 1 ∨ w = length) → Nonfatal (f length ws)) :
    Nonfatal (do
      let length ← nat (← vectorLength (ws.map Nat.cast))
      if (ws.map (Nat.cast : Nat → ℤ)).isEmpty then throw Fault.indexOutside
      f length (← (ws.map Nat.cast).mapM nat)) ↔ ws ≠ [] := by
  constructor
  · rintro h rfl
    obtain ⟨_, he⟩ := h Fault.indexOutside rfl
    cases he
  · intro hne
    refine nonfatal_bind.mpr ⟨nonfatal_vectorLength _, fun l hl => ?_⟩
    have hwidths (w : Nat) (hw : w ∈ ws) : (w : ℤ) = 1 ∨ (w : ℤ) = l :=
      width_of_vectorLength hl _ (List.mem_map_of_mem hw)
    obtain ⟨length, rfl⟩ : ∃ length : Nat, (length : ℤ) = l := by
      rcases vectorLength_eq_ok hl with rfl | hmem
      · exact ⟨1, rfl⟩
      · obtain ⟨w, _, hw⟩ := List.mem_map.mp hmem
        exact ⟨w, hw⟩
    rw [nat_natCast, mapM_nat]
    simp only [List.isEmpty_iff, List.map_eq_nil_iff, hne, if_false]
    exact hf length fun w hw => by exact_mod_cast hwidths w hw

/-- A lone input is an input. -/
theorem Sized.ne_nil_of_lone (h : d.Sized i ws n) {q : Bool}
    (hlone : (decide ((d.block i).inports = 1) && q) = true) : ws ≠ [] := by
  have hone := of_decide_eq_true (Bool.and_eq_true _ _ |>.mp hlone).1
  rw [Ne, h.nil_iff, hone]
  exact Nat.one_ne_zero

omit [Scalar α] in
/-- Every input has its operator. -/
theorem map_fst_zip_parse (h : d.Sized i ws n) {spec : Value} {symbols ops : List Char}
    (hops : Operators.parse spec (d.block i).inports symbols = .ok ops) (f : Char → α) :
    (ws.zip (ops.map f)).map (·.1) = ws := by
  refine List.map_fst_zip ?_
  rw [List.length_map, Operators.length_parse hops, h.length_eq]

omit [Scalar α] in
/-- Whether a multiplication is elementwise is settled before the rest of it. -/
theorem nonfatal_multiplied {text : String} {operation : Unsupported}
    {x : Except Fault (System α)} {P : Prop} (hx : Nonfatal x ↔ P) :
    Nonfatal (do
      if !(← (d.param i "Multiplication" (.text text)).isWord text) then
        throw (Fault.unsupported operation)
      x) ↔ d.Multiplies i text P := by
  rw [nonfatal_bind, (Value.plain_isWord _ _).nonfatal_iff]
  constructor
  · rintro ⟨⟨elementwise, hword⟩, hrest⟩
    refine ⟨elementwise, hword, ?_⟩
    rintro rfl
    exact hx.mp (hrest true hword)
  · rintro ⟨elementwise, hword, hP⟩
    refine ⟨⟨elementwise, hword⟩, fun b hb => ?_⟩
    obtain rfl := Except.ok.inj (hword.symm.trans hb)
    cases elementwise with
    | true => exact hx.mpr (hP rfl)
    | false => exact nonfatal_bind.mpr ⟨nonfatal_throw.mpr ⟨_, rfl⟩, nofun⟩

theorem operates_iff (h : d.Sized i ws n) {text : String} {first : Char} {symbols : List Char} :
    d.Operates i text first ↔
      (∃ count, Operators.count? (d.param i "Inputs" (.text text)) = .ok count) ∧
        ∀ ops, Operators.parse (d.param i "Inputs" (.text text)) (d.block i).inports (first :: symbols) =
          .ok ops → ws ≠ [] := by
  rw [Operators.exists_count?]
  refine and_congr_right fun hcount => ⟨fun hnone ops hops hnil => ?_, fun hsome hzero hspelled => ?_⟩
  · have hzero := h.nil_iff.mp hnil
    rw [hzero] at hops
    exact hnone hzero ((Operators.exists_parse_zero hcount).mp ⟨ops, hops⟩)
  · obtain ⟨ops, hops⟩ := (Operators.exists_parse_zero hcount).mpr hspelled
    rw [hzero] at hsome
    exact hsome ops hops (h.nil_iff.mpr hzero)

theorem nonfatal_sumExpression (h : d.Sized i ws n) :
    Nonfatal (d.sumExpression i : Except Fault (System α)) ↔ d.Operates i "++" '+' := by
  unfold sumExpression
  rw [operates_iff h, nonfatal_bind_of_ok h.inputs, nonfatal_bind, Operators.nonfatal_parse,
    List.length_map, h.length_eq]
  refine and_congr_right fun _ => forall₂_congr fun ops hops => ?_
  have hrows : (Matrix.identity ws.sum : Matrix α).rows.length = ws.sum := by
    rw [Matrix.identity, List.length_map, List.length_range]
  rw [sumWidths_natCast, nonfatal_bind_of_ok (nat_natCast _), nonfatal_bind_of_ok h.outputs]
  split
  · rename_i hlone
    exact iff_of_true (System.nonfatal_ofMatrices.mpr (.inl hrows.symm)) (h.ne_nil_of_lone hlone)
  · refine nonfatal_elementwise fun length _ => System.nonfatal_ofMatrices.mpr (.inl ?_)
    rw [hrows, cols_broadcast, map_fst_zip_parse h hops]

theorem nonfatal_productExpression (h : d.Sized i ws n) :
    Nonfatal (d.productExpression i : Except Fault (System α)) ↔
      d.Multiplies i "Element-wise(.*)" (d.Operates i "2" '*') := by
  unfold productExpression
  refine nonfatal_multiplied ?_
  rw [operates_iff h, nonfatal_bind_of_ok h.inputs, nonfatal_bind, Operators.nonfatal_parse,
    List.length_map, h.length_eq]
  refine and_congr_right fun _ => forall₂_congr fun ops hops => ?_
  rw [sumWidths_natCast, nonfatal_bind_of_ok (nat_natCast _), nonfatal_bind_of_ok h.outputs]
  split
  · rename_i hlone
    exact iff_of_true (System.nonfatal_ofMatrices.mpr (.inl rfl)) (h.ne_nil_of_lone hlone)
  · refine nonfatal_elementwise fun length hwidths => System.nonfatal_ofMatrices.mpr (.inl ?_)
    rw [rows_broadcast fun w hw => hwidths w.1 (List.of_mem_zip hw).1, List.length_map,
      List.length_range]
    rfl

theorem nonfatal_constantExpression (h : d.Sized i ws n) :
    Nonfatal (d.constantExpression i : Except Fault (System α)) ↔
      (d.param i "Value" (.float 1)).Numeric := by
  unfold constantExpression
  rw [nonfatal_bind, (Value.plain_tensor? _).nonfatal_iff]
  refine and_iff_left_iff_imp.mpr fun _ v _ => ?_
  rw [nonfatal_bind_of_ok h.outputs, nat_natCast]
  have hcolumn (xs : List Float) : Nonfatal (System.ofMatrices (Matrix.zero 1 0) (column (scalars xs)) :
      Except Fault (System α)) := System.nonfatal_ofMatrices.mpr (.inl rfl)
  split
  · dsimp only
    split <;> exact hcolumn _
  · dsimp only
    split <;> exact nonfatal_throw.mpr ⟨_, rfl⟩

omit [Scalar α] in
/-- What takes the width of the only input fails where there is not one. -/
theorem nonfatal_onlyWidth (h : d.Sized i ws n) {f : ℤ → Except Fault (System α)}
    (hf : ∀ w : Nat, Nonfatal (f w)) :
    Nonfatal (d.onlyWidth i >>= f) ↔ (d.block i).inports = 1 := by
  unfold onlyWidth
  rw [bind_assoc, nonfatal_bind_of_ok h.inputs, ← h.length_eq]
  match ws with
  | [w] => exact iff_of_true (hf w) rfl
  | [] | _ :: _ :: _ =>
    refine iff_of_false (fun hn => ?_) (by simp)
    obtain ⟨_, he⟩ := hn Fault.inportCount rfl
    cases he

theorem nonfatal_gainExpression (h : d.Sized i ws n) :
    Nonfatal (d.gainExpression i : Except Fault (System α)) ↔
      d.Multiplies i "Element-wise(K.*u)"
        ((d.param i "Gain" (.float 1)).Numeric ∧ (d.block i).inports = 1) := by
  unfold gainExpression
  refine nonfatal_multiplied ((Value.plain_tensor? _).nonfatal_bind_iff fun v => ?_)
  refine nonfatal_onlyWidth h fun w => ?_
  rw [nonfatal_bind_of_ok (nat_natCast w)]
  have hrows : (Matrix.identity w : Matrix α).rows.length = w := by
    rw [Matrix.identity, List.length_map, List.length_range]
  dsimp only
  split
  · rename_i hone
    exact System.nonfatal_ofMatrices.mpr (.inl (hrows.trans hone).symm)
  · split
    · exact System.nonfatal_ofMatrices.mpr (.inl hrows.symm)
    · exact nonfatal_throw.mpr ⟨_, rfl⟩

theorem nonfatal_biasExpression (h : d.Sized i ws n) :
    Nonfatal (d.biasExpression i : Except Fault (System α)) ↔
      (d.param i "Bias" (.float 0)).Numeric ∧ (d.block i).inports = 1 := by
  unfold biasExpression
  refine (Value.plain_tensor? _).nonfatal_bind_iff fun v => nonfatal_onlyWidth h fun w => ?_
  rw [nonfatal_bind_of_ok (nat_natCast w)]
  split
  · refine System.nonfatal_ofMatrices.mpr (.inl ?_)
    simp [Matrix.beside, Matrix.stack, Matrix.identity, Matrix.zero, column, Matrix.ofDense]
  · exact nonfatal_throw.mpr ⟨_, rfl⟩

theorem polyExpression_eq : (d.polyExpression i : Except Fault (System α)) = (do
    (d.param i "P" .none).read
    (d.param i "K" .none).read
    System.ofMatrices (← d.matrixParam i "P") (← d.matrixParam i "K")) := rfl

theorem plain_matrixParam (name : String) : Plain (d.matrixParam i name : Except Fault (Matrix α)) := by
  have hchecked (outside : Bool) (m : Matrix α) : Plain (do
      if outside then throw .columnOutside
      return m) := by
    split
    · exact (plain_throw (e := .columnOutside) fun _ => nofun).bind fun _ => plain_pure _
    · exact plain_pure _
  unfold matrixParam
  dsimp only
  split
  · exact hchecked _ _
  · refine (Value.plain_tensor? _).bind fun t => ?_
    split
    · exact hchecked _ _
    · exact (plain_throw (e := .wrongKind) fun _ => nofun).bind fun _ => hchecked _ _

/-- What reads as a matrix reads as an array, unless it is one. -/
theorem read_of_matrixParam {name : String} {m : Matrix α} (h : d.matrixParam i name = .ok m) :
    (d.param i name .none).read = .ok () := by
  unfold matrixParam at h
  dsimp only at h
  split at h
  · rename_i hv
    rw [hv]
    rfl
  · obtain ⟨t, ht, _⟩ := except_bind_eq_ok.mp h
    unfold Value.read
    split
    · rfl
    · rw [ht]
      rfl

theorem nonfatal_polyExpression :
    Nonfatal (d.polyExpression i : Except Fault (System α)) ↔ d.Weighs α i := by
  rw [polyExpression_eq]
  constructor
  · intro h
    obtain ⟨hread, h⟩ := nonfatal_bind.mp h
    obtain ⟨_, hread⟩ := (Value.plain_read _).nonfatal_iff.mp hread
    obtain ⟨hread', h⟩ := nonfatal_bind.mp (h _ hread)
    obtain ⟨_, hread'⟩ := (Value.plain_read _).nonfatal_iff.mp hread'
    obtain ⟨hp, h⟩ := nonfatal_bind.mp (h _ hread')
    obtain ⟨p, hp⟩ := (plain_matrixParam _).nonfatal_iff.mp hp
    obtain ⟨hk, h⟩ := nonfatal_bind.mp (h p hp)
    obtain ⟨k, hk⟩ := (plain_matrixParam _).nonfatal_iff.mp hk
    obtain ⟨hentries, hwithin⟩ := matrixParam_eq_ok.mp hp
    obtain ⟨hentries', hwithin'⟩ := matrixParam_eq_ok.mp hk
    exact ⟨p, k, hentries, hentries', hwithin, hwithin', System.nonfatal_ofMatrices.mp (h k hk)⟩
  · rintro ⟨p, k, hentries, hentries', hwithin, hwithin', hsizes⟩
    have hp := matrixParam_eq_ok.mpr ⟨hentries, hwithin⟩
    have hk := matrixParam_eq_ok.mpr ⟨hentries', hwithin'⟩
    rw [nonfatal_bind_of_ok (read_of_matrixParam hp), nonfatal_bind_of_ok (read_of_matrixParam hk),
      nonfatal_bind_of_ok hp, nonfatal_bind_of_ok hk]
    exact System.nonfatal_ofMatrices.mpr hsizes

/-- The expression of a block fails for nothing but an operation without a polynomial form exactly if
the block is given what its operation takes. -/
theorem nonfatal_expression (h : d.Sized i ws n) :
    Nonfatal (d.expression i : Except Fault (System α)) ↔ d.Formed α i := by
  unfold expression Formed
  generalize ruleName (d.block i) = name
  split
  · exact nonfatal_sumExpression h
  · exact nonfatal_sumExpression h
  · exact nonfatal_productExpression h
  · exact nonfatal_constantExpression h
  · exact nonfatal_gainExpression h
  · exact nonfatal_biasExpression h
  · exact nonfatal_polyExpression
  · refine iff_of_true (nonfatal_throw.mpr ⟨_, rfl⟩) ?_
    simp_all

/-- So do the equations of the block. -/
theorem nonfatal_equations (h : d.Sized i ws n) :
    Nonfatal (d.equations i : Except Fault (System α)) ↔ d.Formed α i := by
  rw [← nonfatal_expression h]
  unfold equations
  rw [nonfatal_bind]
  refine and_iff_left fun E _ => ?_
  rw [nonfatal_bind_of_ok h.inputs, nonfatal_bind_of_ok h.outputs]
  by_cases hin : ((E.width : ℤ) != sumWidths (ws.map Nat.cast)) = true
  · rw [if_pos hin]
    exact nonfatal_bind.mpr ⟨nonfatal_throw.mpr ⟨_, rfl⟩, nofun⟩
  rw [if_neg hin]
  by_cases hrows : ((E.equations.length : ℤ) != n) = true
  · rw [if_pos hrows]
    exact nonfatal_bind.mpr ⟨nonfatal_throw.mpr ⟨_, rfl⟩, nofun⟩
  rw [if_neg hrows]
  have hlength : E.equations.length = n := by simpa using hrows
  rw [Int.toNat_natCast, ← hlength, System.appendOutputs_eq]
  exact nonfatal_ok _

end Rules

end Diagram

end Transcription
