import Transcription.Proofs.Network.Reach

namespace Transcription

/-- How the dimensions of an outport come out of those of inports. -/
inductive DimsRule where
  /-- Dimensions that depend on no inport. -/
  | fixed (ds : Dims)
  /-- Those of one inport. -/
  | copied (q : Port)
  /-- A vector as wide as all inports together. -/
  | joined (qs : List Port)
  /-- A vector that has an equal part of the width of an inport, if there is one. -/
  | shared (q : Option Port) (parts : Int)
  /-- Those of the widest inport, or a vector when a gain is wider. -/
  | elementwise (qs : List Port) (gain : Option Int)

namespace DimsRule

def reads : DimsRule → List Port
  | fixed _ => []
  | copied q => [q]
  | joined qs => qs
  | shared q _ => q.toList
  | elementwise qs _ => qs

def value (input : Port → Option Dims) (partly : Bool) : DimsRule → Option Dims
  | fixed ds => some ds
  | copied q => input q
  | joined qs => ((qs.map input).mapM id).map fun ds => Dims.vector (Diagram.sumWidths (ds.map Dims.width))
  | shared q parts => (q.bind input).map fun ds => Dims.vector (Int.fdiv ds.width parts)
  | elementwise qs gain => Diagram.elementwise (qs.map input) gain partly

def Fed : DimsRule → Prop
  | shared q _ => q.isSome = true
  | _ => True

end DimsRule

namespace Diagram

def firstInport (d : Diagram) : Option Nat → DimsRule
  | none => .fixed Dims.scalar
  | some i => match d.inports i with
    | [] => .fixed Dims.scalar
    | q :: _ => .copied q

def outerInport (d : Diagram) (i : Nat) : Except Fault DimsRule :=
  match (d.block i).parent with
  | none => pure (.fixed Dims.scalar)
  | some parent => do
    let n ← (← d.required i "Port").toInt
    if (d.block parent).inports < n then pure (.fixed Dims.scalar)
    else .copied <$> d.port .inport parent n

def rule (d : Diagram) (p : Port) : Except Fault DimsRule :=
  let b := d.block p.block
  if b.type = "Inport" then d.outerInport p.block
  else if b.type = "SubSystem" && b.reference.isNone then
    d.firstInport <$> d.innerPort? p.block "Outport" p.number
  else if b.type = "From" then d.firstInport <$> d.goto? p.block
  else if b.type = "Mux" then pure (.joined (d.inports p.block))
  else if b.type = "Demux" then pure (.shared (d.inports p.block).head? (max b.outportCount 1))
  else if b.reference = some polyReference then do
    return .fixed (Dims.vector (← coefficientRows (← d.required p.block "K")))
  else if b.type = "Constant" then do
    return .fixed (Dims.vector (← (d.param p.block "Value" (.float 1)).size))
  else if b.type = "Gain" then do
    return .elementwise (d.inports p.block) (some (← (d.param p.block "Gain" (.float 1)).size))
  else pure (.elementwise (d.inports p.block) none)

variable {d : Diagram} {p : Port} {r : DimsRule}

/-- A block passes on what comes in by the first inport of another one, or scalar dimensions. -/
theorem passes_firstInport {x : Except Fault (Option Nat)} (h : d.firstInport <$> x = .ok r)
    (known : Known) (partly : Bool) :
    (do match ← x with
        | none => return some Dims.scalar
        | some i => match d.inports i with
          | [] => return some Dims.scalar
          | q :: _ => return d.inputDims known q) =
      (.ok (r.value (d.inputDims known) partly) : Except Fault (Option Dims)) := by
  cases x with
  | error e => cases h
  | ok o =>
    cases h
    cases o with
    | none => rfl
    | some i =>
      simp only [bind, Except.bind, firstInport]
      cases d.inports i <;> rfl

/-- An elementwise block without partial dimensions needs all its inputs. -/
theorem elementwise_eq (inputs : List (Option Dims)) (gain : Option Int) (partly : Bool) :
    (if !partly && inputs.any Option.isNone then none else elementwise inputs gain partly) =
      elementwise inputs gain partly := by
  split
  · rename_i h
    obtain ⟨hpartly, hany⟩ := (Bool.and_eq_true _ _).mp h
    have hopen : none ∈ inputs := by simpa using hany
    rw [elementwise, if_pos]
    simpa [hpartly] using hopen
  · rfl

/-- An inner `Inport` block passes on what comes in by an inport around it, or scalar dimensions. -/
theorem passes_outerInport {i : Nat} (h : d.outerInport i = .ok r) (known : Known) (partly : Bool) :
    (match (d.block i).parent with
      | none => return some Dims.scalar
      | some parent => do
        let n ← (← d.required i "Port").toInt
        if (d.block parent).inports < n then return some Dims.scalar
        return d.inputDims known (← d.port .inport parent n)) =
      (.ok (r.value (d.inputDims known) partly) : Except Fault (Option Dims)) := by
  unfold outerInport at h
  cases hparent : (d.block i).parent with
  | none =>
    rw [hparent] at h
    cases h
    rfl
  | some parent =>
    rw [hparent] at h
    obtain ⟨v, hv, h⟩ := except_bind_eq_ok.mp h
    obtain ⟨n, hn, h⟩ := except_bind_eq_ok.mp h
    simp only [hv, hn, bind, Except.bind]
    by_cases hlt : (d.block parent).inports < n
    · rw [if_pos hlt] at h ⊢
      cases h
      rfl
    · rw [if_neg hlt] at h ⊢
      cases hq : d.port .inport parent n with
      | error e =>
        rw [hq] at h
        cases h
      | ok q =>
        rw [hq] at h
        cases h
        rfl

/-- Inference is the rule at what is known. -/
theorem infer_eq (h : d.rule p = .ok r) (known : Known) (partly : Bool) :
    d.infer known partly p = .ok (r.value (d.inputDims known) partly) := by
  unfold rule at h
  unfold infer
  simp only at h ⊢
  by_cases hinport : (d.block p.block).type = "Inport"
  · rw [if_pos hinport] at h ⊢
    exact passes_outerInport h known partly
  rw [if_neg hinport] at h ⊢
  by_cases hsubsystem : ((d.block p.block).type = "SubSystem" &&
      (d.block p.block).reference.isNone) = true
  · rw [if_pos hsubsystem] at h ⊢
    exact passes_firstInport h known partly
  rw [if_neg hsubsystem] at h ⊢
  by_cases hfrom : (d.block p.block).type = "From"
  · rw [if_pos hfrom] at h ⊢
    exact passes_firstInport h known partly
  rw [if_neg hfrom] at h ⊢
  by_cases hmux : (d.block p.block).type = "Mux"
  · rw [if_pos hmux] at h ⊢
    cases h
    rfl
  rw [if_neg hmux] at h ⊢
  by_cases hdemux : (d.block p.block).type = "Demux"
  · rw [if_pos hdemux] at h ⊢
    cases h
    rw [List.head?_map]
    cases (d.inports p.block).head? <;> rfl
  rw [if_neg hdemux] at h ⊢
  by_cases hpoly : (d.block p.block).reference = some polyReference
  · rw [if_pos hpoly] at h ⊢
    obtain ⟨v, hv, h⟩ := except_bind_eq_ok.mp h
    obtain ⟨n, hn, h⟩ := except_bind_eq_ok.mp h
    cases h
    simp only [hv, hn, bind, Except.bind]
    rfl
  rw [if_neg hpoly] at h ⊢
  by_cases hconstant : (d.block p.block).type = "Constant"
  · rw [if_pos hconstant] at h ⊢
    obtain ⟨n, hn, h⟩ := except_bind_eq_ok.mp h
    cases h
    simp only [hn, bind, Except.bind]
    rfl
  rw [if_neg hconstant] at h ⊢
  by_cases hgain : (d.block p.block).type = "Gain"
  · rw [if_pos hgain] at h
    obtain ⟨n, hn, h⟩ := except_bind_eq_ok.mp h
    cases h
    rw [DimsRule.value, ← elementwise_eq]
    simp only [if_pos hgain, hn]
    split <;> rfl
  · rw [if_neg hgain] at h
    cases h
    rw [DimsRule.value, ← elementwise_eq]
    simp only [if_neg hgain]
    split <;> rfl

/-- Where inference finds dimensions, all that the rule says has been read on the way to them. -/
theorem exists_rule_of_infer {known : Known} {partly : Bool} {ds : Dims}
    (h : d.infer known partly p = .ok (some ds)) : ∃ r, d.rule p = .ok r := by
  unfold rule
  unfold infer at h
  dsimp only at h ⊢
  split_ifs at h ⊢ with _ _ _ _ _ _ _ hgain
  · unfold outerInport
    cases hparent : (d.block p.block).parent with
    | none => exact ⟨_, rfl⟩
    | some parent =>
      rw [hparent] at h
      obtain ⟨v, hv, h⟩ := except_bind_eq_ok.mp h
      obtain ⟨n, hn, h⟩ := except_bind_eq_ok.mp h
      simp only [hv, hn, bind, Except.bind]
      split_ifs at h ⊢ with hlt
      · exact ⟨_, rfl⟩
      · obtain ⟨q, hq, _⟩ := except_bind_eq_ok.mp h
        exact ⟨_, by rw [hq]; rfl⟩
  · obtain ⟨o, ho, _⟩ := except_bind_eq_ok.mp h
    exact ⟨_, by rw [ho]; rfl⟩
  · obtain ⟨o, ho, _⟩ := except_bind_eq_ok.mp h
    exact ⟨_, by rw [ho]; rfl⟩
  · exact ⟨_, rfl⟩
  · exact ⟨_, rfl⟩
  · obtain ⟨K, hK, h⟩ := except_bind_eq_ok.mp h
    obtain ⟨n, hn, _⟩ := except_bind_eq_ok.mp h
    exact ⟨_, by rw [hK]; simp only [bind, Except.bind, hn]; rfl⟩
  · obtain ⟨n, hn, _⟩ := except_bind_eq_ok.mp h
    exact ⟨_, by rw [hn]; rfl⟩
  · cases h
  · obtain ⟨gain, hgain, _⟩ := except_bind_eq_ok.mp h
    obtain ⟨n, hn, _⟩ := except_map_eq_ok.mp hgain
    exact ⟨_, by rw [hn]; rfl⟩
  · exact ⟨_, rfl⟩
  · exact ⟨_, rfl⟩

end Diagram

namespace DimsRule

variable {r : DimsRule} {f g : Port → Option Dims} {partly : Bool} {ds : Dims}

/-- A rule asks for nothing but the dimensions of the inports that it reads. -/
theorem value_congr (h : ∀ q ∈ r.reads, f q = g q) : r.value f partly = r.value g partly := by
  cases r with
  | fixed => rfl
  | copied q => exact h q (List.mem_singleton_self q)
  | joined qs =>
    have hmap : qs.map f = qs.map g := List.map_congr_left h
    rw [value, value, hmap]
  | shared q parts =>
    cases q with
    | none => rfl
    | some q =>
      have hq : f q = g q := h q (by simp [reads])
      simp only [value, Option.bind_some, hq]
  | elementwise qs gain =>
    have hmap : qs.map f = qs.map g := List.map_congr_left h
    rw [value, value, hmap]

/-- Dimensions that come from all inputs come from inputs that are all known. -/
theorem known_of_value (h : r.value f false = some ds) : ∀ q ∈ r.reads, (f q).isSome = true := by
  intro q hq
  cases r with
  | fixed => cases hq
  | copied q' =>
    obtain rfl := List.mem_singleton.mp hq
    rw [show f q = some ds from h]
    rfl
  | joined qs =>
    obtain ⟨es, hes, _⟩ := Option.map_eq_some_iff.mp h
    obtain ⟨e, _, he⟩ := forall₂_exists_right (option_mapM_eq_some.mp hes) (List.mem_map_of_mem hq)
    rw [show f q = some e from he]
    rfl
  | shared q' parts =>
    cases q' with
    | none => cases hq
    | some q' =>
      obtain rfl : q = q' := by simpa [reads] using hq
      obtain ⟨e, he, _⟩ := Option.map_eq_some_iff.mp h
      rw [show f q = some e from he]
      rfl
  | elementwise qs gain =>
    rw [value, ← Diagram.elementwise_eq] at h
    by_contra hnone
    rw [if_pos] at h
    · cases h
    · have hopen : none ∈ qs.map f := List.mem_map.mpr ⟨q, hq, by simpa using hnone⟩
      simpa using hopen

/-- When an elementwise block without partial dimensions gives any, partial ones are the same. -/
theorem elementwise_known {inputs : List (Option Dims)} (gain : Option Int)
    (h : ∀ o ∈ inputs, o.isSome = true) (partly : Bool) :
    Diagram.elementwise inputs gain partly = Diagram.elementwise inputs gain true := by
  have hlength : (inputs.filterMap id).length = inputs.length := by
    rw [List.length_filterMap_eq_countP, List.countP_eq_length]
    exact h
  have hnone (b : Bool) : (!b && decide ((inputs.filterMap id).length < inputs.length)) = false := by
    rw [hlength, decide_eq_false (Nat.lt_irrefl _), Bool.and_false]
  simp only [Diagram.elementwise, hnone]

/-- An elementwise block has partial dimensions if it has no inports, a gain or an input that is
known. -/
theorem elementwise_partly {inputs : List (Option Dims)} {gain : Option Int} :
    (Diagram.elementwise inputs gain true).isSome = true ↔
      inputs = [] ∨ gain.isSome = true ∨ ∃ o ∈ inputs, o.isSome = true := by
  by_cases hinputs : inputs = []
  · simp [Diagram.elementwise, hinputs]
  · have hwidths : (gain.isSome = true ∨ ∃ o ∈ inputs, o.isSome = true) ↔
        ¬ ((∀ o ∈ inputs, o = none) ∧ gain = none) := by
      simp [Option.isSome_iff_ne_none, or_iff_not_imp_right]
    simp [Diagram.elementwise, hinputs, hwidths]

/-- A rule gives dimensions once all inputs are known. -/
theorem exists_value (hfed : r.Fed) (h : ∀ q ∈ r.reads, (f q).isSome = true) :
    ∃ ds, r.value f false = some ds := by
  cases r with
  | fixed ds => exact ⟨ds, rfl⟩
  | copied q => exact Option.isSome_iff_exists.mp (h q (List.mem_singleton_self q))
  | joined qs =>
    have hknown : ∀ o ∈ qs.map f, (id o).isSome = true := List.forall_mem_map.mpr h
    obtain ⟨es, hes⟩ := option_mapM_isSome hknown
    exact ⟨_, congrArg (Option.map _) hes⟩
  | shared q parts =>
    obtain ⟨q, rfl⟩ := Option.isSome_iff_exists.mp hfed
    obtain ⟨e, he⟩ := Option.isSome_iff_exists.mp (h q (by simp [reads]))
    exact ⟨_, congrArg (Option.map _) he⟩
  | elementwise qs gain =>
    have hknown : ∀ o ∈ qs.map f, o.isSome = true := List.forall_mem_map.mpr h
    rw [value, elementwise_known gain hknown]
    refine Option.isSome_iff_exists.mp (elementwise_partly.mpr ?_)
    cases qs with
    | nil => exact .inl rfl
    | cons q qs => exact .inr (.inr ⟨f q, List.mem_cons_self, h q List.mem_cons_self⟩)

/-- Dimensions that come from all inputs are also those from the inputs that are known. -/
theorem value_partly (h : r.value f false = some ds) : r.value f true = some ds := by
  cases r with
  | fixed | copied | joined | shared => exact h
  | elementwise qs gain =>
    have hknown : ∀ o ∈ qs.map f, o.isSome = true := List.forall_mem_map.mpr (known_of_value h)
    rw [value, ← elementwise_known gain hknown false]
    exact h

theorem fed_of_value (h : r.value f partly = some ds) : r.Fed := by
  cases r with
  | shared q parts =>
    cases q with
    | none => cases h
    | some q => rfl
  | fixed | copied | joined | elementwise => trivial

/-- A rule that gives dimensions gives some when more is known. -/
theorem value_grows (h : ∀ q, (f q).isSome = true → (g q).isSome = true)
    (hf : r.value f partly = some ds) : (r.value g true).isSome = true := by
  cases hr : r with
  | fixed | copied | joined | shared =>
    -- these rules ask for all that they read in either way
    have hstrict : r.value f false = some ds := by
      rw [hr] at hf ⊢
      exact hf
    have hknown := known_of_value hstrict
    obtain ⟨es, hes⟩ := exists_value (fed_of_value hstrict) fun q hq => h q (hknown q hq)
    rw [← hr, value_partly hes]
    rfl
  | elementwise qs gain =>
    have hpartly : (Diagram.elementwise (qs.map f) gain true).isSome = true := by
      rw [hr] at hf
      cases partly with
      | false => exact Option.isSome_iff_exists.mpr ⟨ds, value_partly hf⟩
      | true => exact Option.isSome_iff_exists.mpr ⟨ds, hf⟩
    rw [value, elementwise_partly]
    rcases elementwise_partly.mp hpartly with hnil | hgain | hknown
    · exact .inl (by simpa using hnil)
    · exact .inr (.inl hgain)
    · obtain ⟨o, ho, hsome⟩ := hknown
      obtain ⟨q, hq, rfl⟩ := List.mem_map.mp ho
      exact .inr (.inr ⟨g q, List.mem_map_of_mem hq, h q hsome⟩)

end DimsRule

namespace Diagram

/-- A diagram in which everything that inference evaluates has a value: the port numbers of inner port
blocks, tags and whether two of them are equal, coefficients, constants and gains. -/
structure Evaluable (d : Diagram) : Prop where
  numbered : ∀ i < d.blocks.size, (d.block i).type ∈ ["Inport", "Outport"] →
    (d.block i).parent.isSome = true → ∃ n, d.Numbered i n
  tagged : ∀ i < d.blocks.size, (d.block i).type ∈ ["From", "Goto"] →
    ∃ tag, d.required i "GotoTag" = .ok tag
  comparable : d.Comparable
  coefficients : ∀ i < d.blocks.size, (d.block i).reference = some polyReference →
    ∃ K rows, d.required i "K" = .ok K ∧ coefficientRows K = .ok rows
  constants : ∀ i < d.blocks.size, (d.block i).type = "Constant" →
    ∃ n, (d.param i "Value" (.float 1)).size = .ok n
  gains : ∀ i < d.blocks.size, (d.block i).type = "Gain" →
    ∃ n, (d.param i "Gain" (.float 1)).size = .ok n

/-- Without coefficients, constants and gains, only port numbers and tags are evaluated. Tags can be
compared if they can be looked up. -/
theorem Evaluable.of_scopes {d : Diagram} (hplain : ∀ i < d.blocks.size,
      (d.block i).reference ≠ some polyReference ∧ (d.block i).type ∉ ["Constant", "Gain"])
    (hnumbered : ∀ i < d.blocks.size, (d.block i).type ∈ ["Inport", "Outport"] →
      (d.block i).parent.isSome = true → ∃ n, d.Numbered i n)
    (htagged : ∀ i < d.blocks.size, (d.block i).type ∈ ["From", "Goto"] →
      ∃ tag, d.required i "GotoTag" = .ok tag ∧ tag.isKey = true) : d.Evaluable where
  numbered := hnumbered
  tagged i hi htype := (htagged i hi htype).imp fun _ h => h.1
  comparable := comparable_of_keys htagged
  coefficients i hi hpoly := absurd hpoly (hplain i hi).1
  constants i hi htype := absurd htype fun h => (hplain i hi).2 (by simp [h])
  gains i hi htype := absurd htype fun h => (hplain i hi).2 (by simp [h])

/-- The number of an inner `Inport` block stands for an inport around it, counted from either end, or
is beyond the last one. -/
def Placed (d : Diagram) : Prop :=
  ∀ i < d.blocks.size, (d.block i).type = "Inport" → ∀ parent n,
    (d.block i).parent = some parent → d.Numbered i n → 0 < n + (d.block parent).inports

variable {d : Diagram} {p q : Port} {r : DimsRule}

/-- Counting from either end leads to one of the inports of a block. -/
theorem port_mem_inports {i : Nat} {n : Int} (h : d.port .inport i n = .ok q) : q ∈ d.inports i := by
  obtain ⟨k, hk, h⟩ := except_bind_eq_ok.mp h
  cases h
  exact List.mem_map_of_mem (List.mem_range.mpr (position_lt hk))

theorem exists_port_inport {i : Nat} {n : Int} (hlow : 0 < n + (d.block i).inports)
    (hhigh : n ≤ (d.block i).inports) : ∃ q, d.port .inport i n = .ok q := by
  obtain ⟨k, hk⟩ : ∃ k, position (d.count i .inport) (n - 1) = .ok k := by
    unfold position
    simp only [count]
    split <;> rw [if_pos (by simp; omega)] <;> exact ⟨_, rfl⟩
  exact ⟨⟨i, .inport, k + 1⟩, by rw [port, hk]; rfl⟩

theorem exists_outerInport (h : d.Evaluable) (hplaced : d.Placed) {i : Nat} (hi : i < d.blocks.size)
    (htype : (d.block i).type = "Inport") : ∃ r, d.outerInport i = .ok r := by
  unfold outerInport
  cases hparent : (d.block i).parent with
  | none => exact ⟨_, rfl⟩
  | some parent =>
    obtain ⟨n, v, hv, hn⟩ := h.numbered i hi (by simp [htype]) (by simp [hparent])
    have hlow := hplaced i hi htype parent n hparent ⟨v, hv, hn⟩
    simp only [hv, hn, bind, Except.bind]
    by_cases hlt : (d.block parent).inports < n
    · exact ⟨_, if_pos hlt⟩
    · obtain ⟨q, hq⟩ := exists_port_inport hlow (Int.not_lt.mp hlt)
      exact ⟨.copied q, by rw [if_neg hlt, hq]; rfl⟩

/-- Every outport has a rule if all parameters evaluate. -/
theorem exists_rule (h : d.Evaluable) (hplaced : d.Placed) (hp : p ∈ d.allOutports) :
    ∃ r, d.rule p = .ok r := by
  have hi := (mem_allOutports.mp hp).1
  unfold rule
  dsimp only
  split_ifs with hinport hsubsystem hfrom _ _ hpoly hconstant hgain
  · exact exists_outerInport h hplaced hi hinport
  · have hnumbered : ∀ i < d.blocks.size, (d.block i).type = "Outport" →
        (d.block i).parent.isSome = true → ∃ n, d.Numbered i n :=
      fun i hi htype => h.numbered i hi (by simp [htype])
    obtain ⟨o, ho, _⟩ := innerPort?_ok hnumbered p.block p.number
    exact ⟨d.firstInport o, by rw [ho]; rfl⟩
  · obtain ⟨tag, htag⟩ := h.tagged p.block hi (by simp [hfrom])
    obtain ⟨o, ho, _⟩ := goto?_ok h.comparable hi hfrom htag
    exact ⟨d.firstInport o, by rw [ho]; rfl⟩
  · exact ⟨_, rfl⟩
  · exact ⟨_, rfl⟩
  · obtain ⟨K, rows, hK, hrows⟩ := h.coefficients p.block hi hpoly
    exact ⟨_, by rw [hK]; simp only [bind, Except.bind, hrows]; rfl⟩
  · obtain ⟨n, hn⟩ := h.constants p.block hi hconstant
    exact ⟨_, by rw [hn]; rfl⟩
  · obtain ⟨n, hn⟩ := h.gains p.block hi hgain
    exact ⟨_, by rw [hn]; rfl⟩
  · exact ⟨_, rfl⟩

theorem block_eq_default {i : Nat} (h : ¬ i < d.blocks.size) : d.block i = default := by
  rw [block, Array.getD, dif_neg h]

/-- A place beyond the blocks has no inports. -/
theorem lt_size_of_mem {i : Nat} (hq : q ∈ d.inports i) : i < d.blocks.size := by
  by_contra hlt
  rw [inports, block_eq_default hlt] at hq
  cases hq

def Passes (d : Diagram) (r : DimsRule) : Prop :=
  (∃ ds, r = .fixed ds) ∨ ∃ i, ∃ q ∈ d.inports i, r = .copied q

theorem passes_first (o : Option Nat) : d.Passes (d.firstInport o) := by
  cases o with
  | none => exact .inl ⟨_, rfl⟩
  | some i =>
    rw [firstInport]
    cases hinports : d.inports i with
    | nil => exact .inl ⟨_, rfl⟩
    | cons q qs => exact .inr ⟨i, q, by simp [hinports], rfl⟩

theorem passes_outer {i : Nat} (h : d.outerInport i = .ok r) : d.Passes r := by
  unfold outerInport at h
  cases hparent : (d.block i).parent with
  | none =>
    rw [hparent] at h
    cases h
    exact .inl ⟨_, rfl⟩
  | some parent =>
    rw [hparent] at h
    obtain ⟨v, _, h⟩ := except_bind_eq_ok.mp h
    obtain ⟨n, _, h⟩ := except_bind_eq_ok.mp h
    split at h
    · cases h
      exact .inl ⟨_, rfl⟩
    · obtain ⟨q, hq, rfl⟩ := except_map_eq_ok.mp h
      exact .inr ⟨parent, q, port_mem_inports hq, rfl⟩

/-- What the rule of an outport can be. -/
theorem rule_cases (h : d.rule p = .ok r) :
    d.Passes r ∨ r = .joined (d.inports p.block) ∨
      ((d.block p.block).type = "Demux" ∧ ∃ parts, r = .shared (d.inports p.block).head? parts) ∨
      ∃ gain, r = .elementwise (d.inports p.block) gain := by
  unfold rule at h
  dsimp only at h
  split_ifs at h with _ _ _ _ hdemux
  · exact .inl (passes_outer h)
  · obtain ⟨o, _, rfl⟩ := except_map_eq_ok.mp h
    exact .inl (passes_first o)
  · obtain ⟨o, _, rfl⟩ := except_map_eq_ok.mp h
    exact .inl (passes_first o)
  · cases h
    exact .inr (.inl rfl)
  · cases h
    exact .inr (.inr (.inl ⟨hdemux, _, rfl⟩))
  · obtain ⟨K, _, h⟩ := except_bind_eq_ok.mp h
    obtain ⟨rows, _, h⟩ := except_bind_eq_ok.mp h
    cases h
    exact .inl (.inl ⟨_, rfl⟩)
  · obtain ⟨n, _, h⟩ := except_bind_eq_ok.mp h
    cases h
    exact .inl (.inl ⟨_, rfl⟩)
  · obtain ⟨n, _, h⟩ := except_bind_eq_ok.mp h
    cases h
    exact .inr (.inr (.inr ⟨_, rfl⟩))
  · cases h
    exact .inr (.inr (.inr ⟨_, rfl⟩))

/-- A rule reads inports of blocks of the diagram. -/
theorem reads_inports (h : d.rule p = .ok r) (hq : q ∈ r.reads) :
    ∃ i < d.blocks.size, q ∈ d.inports i := by
  have hown (hq : q ∈ d.inports p.block) : ∃ i < d.blocks.size, q ∈ d.inports i :=
    ⟨p.block, lt_size_of_mem hq, hq⟩
  rcases rule_cases h with (⟨ds, rfl⟩ | ⟨i, q', hmem, rfl⟩) | rfl | ⟨_, parts, rfl⟩ | ⟨gain, rfl⟩
  · cases hq
  · obtain rfl := List.mem_singleton.mp hq
    exact ⟨i, lt_size_of_mem hmem, hmem⟩
  · exact hown hq
  · exact hown (List.mem_of_mem_head? (by simpa [DimsRule.reads] using hq))
  · exact hown hq

def FedAt (d : Diagram) (i : Nat) : Prop := (d.block i).type = "Demux" → 0 < (d.block i).inports

/-- Only the rule of a `Demux` block without inports misses an inport. -/
theorem rule_fed (h : d.rule p = .ok r) (hfed : d.FedAt p.block) : r.Fed := by
  rcases rule_cases h with (⟨ds, rfl⟩ | ⟨i, q, _, rfl⟩) | rfl | ⟨hdemux, parts, rfl⟩ | ⟨gain, rfl⟩
  · trivial
  · trivial
  · trivial
  · have hpos := hfed hdemux
    simp [DimsRule.Fed, inports, List.head?_range, hpos.ne']
  · trivial

end Diagram

end Transcription
