import Transcription.Proofs.Network.Closure
import Transcription.Proofs.Network.Wiring
import Transcription.Proofs.Poly.Vanishing

namespace Transcription

@[ext] structure Assignment (live : List PhaseSet) (steps : Nat) (α : Type) where
  value : Nat → Nat → Option α
  domain : ∀ t net, (value t net).isSome = true ↔ LiveAt live steps t net

namespace Network

variable {α : Type}

section Dynamics

variable [Scalar α]

def inputsAt (n : Network α) (b : TracedBlock α) (v : Nat → Option α) : Option (List α) :=
  b.inputs.mapM fun i => v (n.wires.netOf i)

/-- Output `j` of a block has the value of its expression at the values of its inputs. -/
def EquationAt (n : Network α) (b : TracedBlock α) (j : Nat) (v : Nat → Option α) : Prop :=
  ∃ (E : System α) (xs ys : List α) (y : α), n.diagram.expression b.source = .ok E ∧
    n.inputsAt b v = some xs ∧ E.residual xs = .ok ys ∧ ys[j]? = some y ∧
      ((b.outputs[j]?).bind fun o => v (n.wires.netOf o)) = some y

structure Computes (n : Network α) (alive : Nat → Prop) (k : Nat) (b : TracedBlock α) (j o : Nat) :
    Prop where
  block : n.block? k = some b
  kind : b.kind = .primitive
  output : b.outputs[j]? = some o
  isAlive : alive (n.wires.netOf o)

def Solved (n : Network α) (alive : Nat → Prop) (v : Nat → Option α) : Prop :=
  ∀ k b j o, n.Computes alive k b j o → n.EquationAt b j v

/-- Delays carry values from step to step, and inputs that are blocked keep theirs in a window. -/
structure Continues (n : Network α) (v : Nat → Nat → Option α) : Prop where
  delay : ∀ k b, n.block? k = some b → b.kind = .delay → ∀ o i, (o, i) ∈ b.outputs.zip b.inputs →
    ∀ t, 2 ≤ t → (v t (n.wires.netOf o)).isSome = true →
      v t (n.wires.netOf o) = v (t - 1) (n.wires.netOf i)
  window : ∀ k b, n.block? k = some b → b.isMoveBlocked = true → ∀ o ∈ b.outputs, ∀ t u : Nat,
    (v t (n.wires.netOf o)).isSome = true → (v u (n.wires.netOf o)).isSome = true →
      b.period.window b.offset t = b.period.window b.offset u →
        v t (n.wires.netOf o) = v u (n.wires.netOf o)

end Dynamics

section Exponents

variable [LinearOrder α] [ExactScalar α]

/-- The expression of output `j` has whole exponents only, and negative ones only on inputs that are
not zero. -/
def RegularAt (n : Network α) (b : TracedBlock α) (j : Nat) (v : Nat → Option α) : Prop :=
  ∀ (E : System α) (xs : List α) (p : Poly α), n.diagram.expression b.source = .ok E →
    n.inputsAt b v = some xs → E.polynomials[j]? = some p → p.Regular (System.point xs)

def RegularOn (n : Network α) (alive : Nat → Prop) (v : Nat → Option α) : Prop :=
  ∀ k b j o, n.Computes alive k b j o → n.RegularAt b j v

end Exponents

section Closed

variable [Scalar α] {n : Network α} {minor : Bool} {live : List PhaseSet} {steps t k : Nat}
  {b : TracedBlock α}

/-- With an output of a primitive all its inputs are live. -/
theorem Closed.liveAt_inputs (h : n.Closed minor fun net => (live[net]?).getD {})
    (hb : n.block? k = some b) (hk : b.kind = .primitive) {o : Nat} (ho : o ∈ b.outputs)
    (hl : LiveAt live steps t (n.wires.netOf o)) {i : Nat} (hi : i ∈ b.inputs) :
    LiveAt live steps t (n.wires.netOf i) := by
  obtain ⟨h₁, h₂, p, hp, hs⟩ := hl
  exact ⟨h₁, h₂, p, h.primitive k b hb hk o ho i hi p hp, hs⟩

theorem stepPhases_later {p : Phase} (h₂ : 2 ≤ t) (ht : t ≤ steps)
    (hp : (stepPhases t steps).has p = true) : Liveness.later.has p = true := by
  unfold stepPhases at hp
  rw [if_neg (by omega), if_neg (by omega)] at hp
  split at hp <;> rcases p with (_ | _ | _) | _ <;> first | rfl | cases hp

theorem stepPhases_earlier (h₂ : 2 ≤ t) (ht : t ≤ steps) :
    ∃ p, Liveness.earlier.has p = true ∧ (stepPhases (t - 1 : Nat) steps).has p = true := by
  unfold stepPhases
  rw [if_neg (by omega)]
  by_cases h : t = 2
  · rw [if_pos (by omega)]
    exact ⟨.major .initial, rfl, rfl⟩
  · rw [if_neg (by omega), if_neg (by omega)]
    exact ⟨.major .intermediate, rfl, rfl⟩

/-- One step before an output of a delay all its inputs are live. -/
theorem Closed.liveAt_before (h : n.Closed minor fun net => (live[net]?).getD {})
    (hb : n.block? k = some b) (hk : b.kind = .delay) (h₂ : 2 ≤ t) {o : Nat} (ho : o ∈ b.outputs)
    (hl : LiveAt live steps t (n.wires.netOf o)) {i : Nat} (hi : i ∈ b.inputs) :
    LiveAt live steps (t - 1) (n.wires.netOf i) := by
  obtain ⟨_, ht, p, hp, hs⟩ := hl
  have hlater := (PhaseSet.meets_iff _ _).mpr ⟨p, hp, stepPhases_later h₂ ht hs⟩
  obtain ⟨q, hq, hqs⟩ := stepPhases_earlier h₂ ht
  exact ⟨by omega, by omega, q, h.before k b hb hk o ho hlater i hi q hq, hqs⟩

end Closed

section Outlets

variable [Scalar α] {n : Network α}

structure Outlet (α : Type) where
  block : TracedBlock α
  place : Nat
  wire : Nat

def outletsOf (b : TracedBlock α) : List (Outlet α) := b.outputs.zipIdx.map fun e => ⟨b, e.2, e.1⟩

def outlets (n : Network α) : List (Outlet α) :=
  n.blocks.blocks.flatMap fun b => if b.kind = .primitive then outletsOf b else []

omit [Scalar α] in
theorem getElem?_outletsOf {b : TracedBlock α} {j : Nat} :
    (outletsOf b)[j]? = (b.outputs[j]?).map fun o => ⟨b, j, o⟩ := by
  rw [outletsOf, List.getElem?_map, List.getElem?_zipIdx, Option.map_map, Nat.zero_add]
  rfl

theorem mem_outlets {o : Outlet α} : o ∈ n.outlets ↔
    (∃ k, n.block? k = some o.block) ∧ o.block.kind = .primitive ∧
      o.block.outputs[o.place]? = some o.wire := by
  simp only [outlets, List.mem_flatMap, List.mem_ite_nil_right]
  constructor
  · rintro ⟨b, hb, hk, ho⟩
    obtain ⟨j, hj⟩ := List.mem_iff_getElem?.mp ho
    rw [getElem?_outletsOf] at hj
    obtain ⟨i, hi, rfl⟩ := Option.map_eq_some_iff.mp hj
    exact ⟨List.mem_iff_getElem?.mp hb, hk, hi⟩
  · rintro ⟨⟨k, hb⟩, hk, ho⟩
    refine ⟨o.block, List.mem_of_getElem? hb, hk, List.mem_of_getElem? (i := o.place) ?_⟩
    rw [getElem?_outletsOf, ho]
    rfl

def KeepsInputs (n : Network α) (keep : List Bool) : Prop :=
  ∀ k b, n.block? k = some b → b.kind = .primitive → ∀ o ∈ b.outputs,
    System.Kept keep (n.wires.netOf o) → ∀ i ∈ b.inputs, System.Kept keep (n.wires.netOf i)

end Outlets

section StepSystem

variable [LinearOrder α] [ExactScalar α]

def blockNets (n : Network α) (b : TracedBlock α) : List Nat :=
  (b.inputs ++ b.outputs).map n.wires.netOf

def outputPoly (n : Network α) (b : TracedBlock α) (E : System α) (j : Nat) (q : Poly α) : Poly α :=
  Poly.relabel (fun c => (n.blockNets b).getD c 0) (q ++ [(-1, [(j + E.width, 1)])])

variable {n : Network α}

theorem length_blockNets (n : Network α) (b : TracedBlock α) :
    (n.blockNets b).length = b.inputs.length + b.outputs.length := by simp [blockNets]

def PolyOf (n : Network α) (o : Outlet α) (p : Poly α) : Prop :=
  ∃ (E : System α) (q : Poly α), n.diagram.expression o.block.source = .ok E ∧
    E.polynomials[o.place]? = some q ∧ n.outputPoly o.block E o.place q = p

theorem PolyOf.unique {o : Outlet α} {p q : Poly α} (hp : n.PolyOf o p) (hq : n.PolyOf o q) : p = q := by
  obtain ⟨E, r, hE, hr, rfl⟩ := hp
  obtain ⟨E', r', hE', hr', rfl⟩ := hq
  obtain rfl := Except.ok.inj (hE.symm.trans hE')
  obtain rfl := Option.some.inj (hr.symm.trans hr')
  rfl

/-- The polynomials of the closed expression of a block, moved to its nets, are those of its outputs. -/
theorem forall₂_outletsOf {b : TracedBlock α} {E : System α}
    (hE : n.diagram.expression b.source = .ok E) (hp : E.Proper)
    (hout : b.outputs.length = E.equations.length) (count : Nat) :
    List.Forall₂ n.PolyOf (outletsOf b) (E.closed.moved (n.blockNets b) count).polynomials := by
  rw [System.polynomials_moved]
  refine forall₂_of_getElem? ?_ fun j o p ho hj => ?_
  · rw [List.length_map, System.polynomials, List.length_map, System.length_closed, outletsOf,
      List.length_map, List.length_zipIdx, hout]
  · rw [getElem?_outletsOf] at ho
    obtain ⟨i, _, rfl⟩ := Option.map_eq_some_iff.mp ho
    rw [List.getElem?_map, System.polynomials_closed hp] at hj
    obtain ⟨r, hr, rfl⟩ := Option.map_eq_some_iff.mp hj
    obtain ⟨q, hq, rfl⟩ := Option.map_eq_some_iff.mp hr
    exact ⟨E, q, hE, hq, rfl⟩

theorem netSystem?_eq (h : n.Wired) {b : TracedBlock α} (hmem : b ∈ n.blocks.blocks) :
    ∃ s, n.netSystem? b = .ok s ∧ (∀ u, s = some u → u.Proper ∧ u.width = n.wires.netCount) ∧
      List.Forall₂ n.PolyOf (if b.kind = .primitive then outletsOf b else [])
        ((s.map System.polynomials).getD []) := by
  obtain ⟨k, hb⟩ : ∃ k, n.block? k = some b := List.mem_iff_getElem?.mp hmem
  by_cases hk : b.kind = .primitive
  · obtain ⟨E, hE, hproper, hclosed, hin, hout⟩ := h.expression k b hb hk
    have hwidth : (n.blockNets b).length = E.closed.width := by
      rw [length_blockNets, hin, hout]
      rfl
    have hnets : ∀ c ∈ n.blockNets b, c < n.wires.netCount := by
      intro c hc
      obtain ⟨i, hi, rfl⟩ := List.mem_map.mp hc
      exact h.netOf_lt hb hi
    rw [if_pos hk]
    by_cases hempty : b.system.isEmpty = true
    · refine ⟨none, by simp [netSystem?, hempty, pure, Except.pure], fun u hu => (nomatch hu), ?_⟩
      have hnone : b.outputs = [] := by
        rw [hclosed, System.isEmpty, List.isEmpty_iff] at hempty
        apply List.eq_nil_of_length_eq_zero
        rw [hout, ← System.length_closed E, hempty, List.length_nil]
      rw [outletsOf, hnone]
      exact .nil
    · have hrelabel := System.relabel_eq hwidth hnets
      refine ⟨some (E.closed.moved (n.blockNets b) n.wires.netCount), ?_, ?_,
        forall₂_outletsOf hE hproper hout _⟩
      · unfold netSystem?
        have hfits : ((b.inputs ++ b.outputs).map n.wires.netOf).length = b.system.width := by
          rw [hclosed]
          exact hwidth
        rw [if_pos (by simpa [hk, hempty] using hfits), hclosed]
        change (do return some (← E.closed.relabel (n.blockNets b) n.wires.netCount)) = _
        rw [hrelabel]
        rfl
      · rintro u ⟨⟩
        exact ⟨hproper.closed.moved hwidth hnets, rfl⟩
  · refine ⟨none, by simp [netSystem?, hk, pure, Except.pure], fun u hu => (nomatch hu), ?_⟩
    rw [if_neg hk]
    exact .nil

/-- The equations of all blocks exist, and their polynomials are those of the outputs of primitives in
order. -/
theorem polynomials_stepSystem (h : n.Wired) : ∃ step, n.stepSystem = .ok step ∧ step.Proper ∧
    step.width = n.wires.netCount ∧ List.Forall₂ n.PolyOf n.outlets step.polynomials := by
  have hblock := fun b (hb : b ∈ n.blocks.blocks) => netSystem?_eq h hb
  obtain ⟨os, hos⟩ := except_mapM_ok fun b hb => (hblock b hb).imp fun s hs => hs.1
  have hproper (u : System α) (hu : u ∈ os.filterMap id) :
      u.Proper ∧ u.width = n.wires.netCount := by
    obtain ⟨_, hs, rfl⟩ := List.mem_filterMap.mp hu
    obtain ⟨b, hb, hs⟩ := except_mapM_mem hos hs
    obtain ⟨s, hs', hw, _⟩ := hblock b hb
    exact hw u (Except.ok.inj (hs'.symm.trans hs))
  refine ⟨System.stacked n.wires.netCount (os.filterMap id), ?_, ?_, rfl, ?_⟩
  · rw [stepSystem, hos]
    exact System.combine_eq fun u hu => (hproper u hu).2.le
  · exact System.Proper.stacked fun u hu => ⟨(hproper u hu).1, (hproper u hu).2.le⟩
  · rw [System.polynomials_stacked fun u hu => (hproper u hu).1, outlets]
    clear hproper
    generalize n.blocks.blocks = blocks at hblock hos
    induction except_mapM_eq_ok.mp hos with
    | nil => exact .nil
    | @cons b s bs os hs hrest ih =>
      obtain ⟨hb, hbs⟩ := List.forall_mem_cons.mp hblock
      obtain ⟨s', hs', _, hpoly⟩ := hb
      obtain rfl := Except.ok.inj (hs'.symm.trans hs)
      have htail := ih hbs (except_mapM_eq_ok.mpr hrest)
      rw [List.flatMap_cons]
      cases s' with
      | none => exact List.rel_append hpoly htail
      | some u => exact List.rel_append hpoly htail

/-- The equations of all blocks exist, and they are one polynomial for every output of a primitive. -/
theorem stepSystem_eq (h : n.Wired) : ∃ step, n.stepSystem = .ok step ∧ step.Proper ∧
    step.width = n.wires.netCount ∧ ∀ p, p ∈ step.polynomials ↔
      ∃ k b, n.block? k = some b ∧ b.kind = .primitive ∧ ∃ E : System α,
        n.diagram.expression b.source = .ok E ∧
          ∃ j q, E.polynomials[j]? = some q ∧ n.outputPoly b E j q = p := by
  obtain ⟨step, hstep, hproper, hwidth, hlisted⟩ := polynomials_stepSystem h
  refine ⟨step, hstep, hproper, hwidth, fun p => ⟨fun hp => ?_, ?_⟩⟩
  · obtain ⟨o, ho, E, q, hE, hq, hpoly⟩ := forall₂_exists_left hlisted hp
    obtain ⟨⟨k, hb⟩, hk, _⟩ := mem_outlets.mp ho
    exact ⟨k, o.block, hb, hk, E, hE, o.place, q, hq, hpoly⟩
  · rintro ⟨k, b, hb, hk, E, hE, j, q, hq, hpoly⟩
    obtain ⟨_, _, hout⟩ := h.fits hb hk hE
    have hj : j < b.outputs.length := by
      have := (List.getElem?_eq_some_iff.mp hq).1
      rwa [System.polynomials, List.length_map, ← hout] at this
    have ho : (⟨b, j, b.outputs[j]⟩ : Outlet α) ∈ n.outlets :=
      mem_outlets.mpr ⟨⟨k, hb⟩, hk, List.getElem?_eq_getElem hj⟩
    obtain ⟨p', hp', hpoly'⟩ := forall₂_exists_right hlisted ho
    obtain rfl : p' = p := hpoly'.unique ⟨E, q, hE, hq, hpoly⟩
    exact hp'

variable {b : TracedBlock α} {v : Nat → Option α} {xs : List α}

theorem inputsAt_eq_some : n.inputsAt b v = some xs ↔
    List.Forall₂ (fun i x => v (n.wires.netOf i) = some x) b.inputs xs := option_mapM_eq_some

theorem exists_inputsAt (h : ∀ i ∈ b.inputs, (v (n.wires.netOf i)).isSome = true) :
    ∃ xs, n.inputsAt b v = some xs := option_mapM_isSome h

/-- The inputs of a block have their values at its first nets. -/
theorem value_input (hxs : n.inputsAt b v = some xs) {c : Nat} (hc : c < b.inputs.length) :
    (v ((n.blockNets b).getD c 0)).getD 0 = System.point xs c := by
  have hxs' := inputsAt_eq_some.mp hxs
  have hc' : c < xs.length := hxs'.length_eq ▸ hc
  have hnet : (n.blockNets b).getD c 0 = n.wires.netOf b.inputs[c] := by
    rw [List.getD_eq_getElem?_getD, blockNets, List.getElem?_map, List.getElem?_append_left hc,
      List.getElem?_eq_getElem hc]
    rfl
  have hget : v (n.wires.netOf b.inputs[c]) = some xs[c] := hxs'.get hc hc'
  rw [hnet, hget]
  simp [System.point, hc']

theorem net_output {j o : Nat} (ho : b.outputs[j]? = some o) :
    (n.blockNets b).getD (j + b.inputs.length) 0 = n.wires.netOf o := by
  rw [List.getD_eq_getElem?_getD, blockNets, List.getElem?_map,
    List.getElem?_append_right (Nat.le_add_left _ _), Nat.add_sub_cancel, ho]
  rfl

variable {E : System α} {j o : Nat} {q : Poly α}

/-- The polynomial of an output takes the output away from the value of its expression. -/
theorem valueAt_outputPoly (hE : E.Proper) (hin : b.inputs.length = E.width)
    (hq : E.polynomials[j]? = some q) (hxs : n.inputsAt b v = some xs)
    (ho : b.outputs[j]? = some o) (hr : q.Regular (System.point xs)) :
    (n.outputPoly b E j q).Regular (fun net => (v net).getD 0) ∧
      (n.outputPoly b E j q).valueAt (fun net => (v net).getD 0) =
        q.valueAt (System.point xs) - (v (n.wires.netOf o)).getD 0 := by
  have hpoint : ∀ t ∈ q, ∀ e ∈ t.2,
      (v ((n.blockNets b).getD e.1 0)).getD 0 = System.point xs e.1 := by
    intro t ht e he
    refine value_input hxs ?_
    rw [hin]
    exact hE.within_polynomials (List.mem_of_getElem? hq) ht e he
  have hreg : Poly.Regular (fun c => (v ((n.blockNets b).getD c 0)).getD 0)
      (q ++ [(-1, [(j + E.width, 1)])]) := by
    intro t ht
    rcases List.mem_append.mp ht with ht | ht
    · intro e he
      obtain ⟨k, hk, hx⟩ := hr t ht e he
      exact ⟨k, hk, hx.imp_left ((hpoint t ht e he).trans_ne ·)⟩
    · obtain rfl := List.mem_singleton.mp ht
      intro e he
      obtain rfl := List.mem_singleton.mp he
      exact ⟨1, by simp, .inr (by decide)⟩
  refine ⟨Poly.Regular.relabel hreg, ?_⟩
  have hout := net_output (n := n) ho
  rw [hin] at hout
  rw [outputPoly, Poly.valueAt_relabel hreg, Poly.valueAt_append, Poly.valueAt_congr hpoint,
    Poly.valueAt_cons, Poly.valueAt_nil, System.monomialAt_cons, System.monomialAt_nil,
    System.pow_one_eq, hout]
  ring

def OutputRow (n : Network α) (b : TracedBlock α) (j : Nat) (v : Nat → Option α) (a : α) : Prop :=
  ∃ (E : System α) (xs ys : List α) (y w : α), n.diagram.expression b.source = .ok E ∧
    n.inputsAt b v = some xs ∧ E.residual xs = .ok ys ∧ ys[j]? = some y ∧
      ((b.outputs[j]?).bind fun o => v (n.wires.netOf o)) = some w ∧ a = y - w

/-- An output has the value of its expression where its row is zero. -/
theorem OutputRow.equationAt_iff {a : α} (h : n.OutputRow b j v a) : n.EquationAt b j v ↔ a = 0 := by
  obtain ⟨E, xs, ys, y, w, hE, hxs, hys, hy, hw, rfl⟩ := h
  rw [sub_eq_zero]
  constructor
  · rintro ⟨E', xs', ys', y', hE', hxs', hys', hy', hw'⟩
    obtain rfl := Except.ok.inj (hE.symm.trans hE')
    obtain rfl := Option.some.inj (hxs.symm.trans hxs')
    obtain rfl := Except.ok.inj (hys.symm.trans hys')
    obtain rfl := Option.some.inj (hy.symm.trans hy')
    exact Option.some.inj (hw'.symm.trans hw)
  · rintro rfl
    exact ⟨E, xs, ys, y, hE, hxs, hys, hy, hw⟩

/-- The polynomial of an output is its row. -/
theorem outputRow_outputPoly (hexp : n.diagram.expression b.source = .ok E) (hE : E.Proper)
    (hin : b.inputs.length = E.width) (hq : E.polynomials[j]? = some q)
    (hxs : n.inputsAt b v = some xs) (ho : b.outputs[j]? = some o)
    (hv : (v (n.wires.netOf o)).isSome = true) (hr : q.Regular (System.point xs)) :
    n.OutputRow b j v ((n.outputPoly b E j q).valueAt fun net => (v net).getD 0) := by
  obtain ⟨w, hw⟩ := Option.isSome_iff_exists.mp hv
  have hlen : xs.length = E.width := by rw [← (inputsAt_eq_some.mp hxs).length_eq, hin]
  have hres : E.residual xs = .ok (E.polynomials.map (Poly.valueAt (System.point xs))) := by
    rw [System.residual, System.checkPoint, if_pos hlen, System.residualAt_polynomials]
    rfl
  refine ⟨E, xs, _, q.valueAt (System.point xs), w, hexp, hxs, hres, ?_, ?_, ?_⟩
  · rw [List.getElem?_map, hq, Option.map_some]
  · rw [ho, Option.bind_some, hw]
  · rw [(valueAt_outputPoly hE hin hq hxs ho hr).2, hw, Option.getD_some]

/-- It has the output by itself. -/
theorem mem_outputPoly (hin : b.inputs.length = E.width) (ho : b.outputs[j]? = some o) :
    (-1, [(n.wires.netOf o, 1)]) ∈ n.outputPoly b E j q := by
  have hout := net_output (n := n) ho
  rw [hin] at hout
  refine List.mem_map.mpr ⟨(-1, [(j + E.width, 1)]), by simp, ?_⟩
  exact congrArg (Prod.mk _) ((Row.relabel_single _ _).trans (by rw [hout]))

/-- The polynomial of an output keeps to nets that have all inputs of the block with the output if
they have the output. -/
theorem over_outputPoly {keep : Nat → Prop} (hE : E.Proper) (hin : b.inputs.length = E.width)
    (hq : E.polynomials[j]? = some q) (ho : b.outputs[j]? = some o)
    (hclosed : keep (n.wires.netOf o) → ∀ i ∈ b.inputs, keep (n.wires.netOf i)) :
    (n.outputPoly b E j q).Over keep ↔ keep (n.wires.netOf o) := by
  have hout := net_output (n := n) ho
  rw [hin] at hout
  constructor
  · intro h
    have hmem := mem_outputPoly (n := n) (q := q) hin ho
    exact h _ hmem (by simp) (n.wires.netOf o, 1) (List.mem_singleton_self _) one_ne_zero
  · intro hk t ht _ e he _
    obtain ⟨u, hu, rfl⟩ := List.mem_map.mp ht
    have he' : e ∈ Row.relabel (fun c => (n.blockNets b).getD c 0) u.2 := he
    obtain ⟨f, hf, hfe⟩ := Row.mem_relabel he'
    rw [← hfe]
    rcases List.mem_append.mp hu with hu | hu
    · have hlt : f.1 < b.inputs.length := by
        rw [hin]
        exact hE.within_polynomials (List.mem_of_getElem? hq) hu f hf
      rw [List.getD_eq_getElem?_getD, blockNets, List.getElem?_map, List.getElem?_append_left hlt,
        List.getElem?_eq_getElem hlt]
      exact hclosed hk _ (List.getElem_mem hlt)
    · obtain rfl := List.mem_singleton.mp hu
      obtain rfl := List.mem_singleton.mp hf
      rw [hout]
      exact hk

/-- Where a block has all its values and the expression of an output is regular, the polynomial of the
output is its row. -/
theorem outputRow_of_regular (h : n.Wired) {k : Nat} (hb : n.block? k = some b)
    (hk : b.kind = .primitive) (hexp : n.diagram.expression b.source = .ok E)
    (hq : E.polynomials[j]? = some q) (ho : b.outputs[j]? = some o)
    (hinputs : ∀ i ∈ b.inputs, (v (n.wires.netOf i)).isSome = true)
    (hv : (v (n.wires.netOf o)).isSome = true) (hr : n.RegularAt b j v) :
    (n.outputPoly b E j q).Regular (fun net => (v net).getD 0) ∧
      n.OutputRow b j v ((n.outputPoly b E j q).valueAt fun net => (v net).getD 0) := by
  obtain ⟨hp, hin, _⟩ := h.fits hb hk hexp
  obtain ⟨xs, hxs⟩ := exists_inputsAt hinputs
  have hreg := hr E xs q hexp hxs hq
  exact ⟨(valueAt_outputPoly hp hin hq hxs ho hreg).1,
    outputRow_outputPoly hexp hp hin hq hxs ho hv hreg⟩

/-- Every polynomial of the equations of all blocks is that of an output. It keeps to some nets if the
output is on one of them, and then it is the row of the output. -/
theorem output_of_polynomial (h : n.Wired) {keep : Nat → Prop} {k : Nat} (hb : n.block? k = some b)
    (hk : b.kind = .primitive) (hexp : n.diagram.expression b.source = .ok E)
    (hq : E.polynomials[j]? = some q)
    (hclosed : ∀ o ∈ b.outputs, keep (n.wires.netOf o) → ∀ i ∈ b.inputs, keep (n.wires.netOf i))
    (hv : ∀ net, keep net → (v net).isSome = true) (hr : n.RegularOn keep v) :
    ∃ o, b.outputs[j]? = some o ∧ ((n.outputPoly b E j q).Over keep ↔ keep (n.wires.netOf o)) ∧
      (keep (n.wires.netOf o) → (n.outputPoly b E j q).Regular (fun net => (v net).getD 0) ∧
        n.OutputRow b j v ((n.outputPoly b E j q).valueAt fun net => (v net).getD 0)) := by
  obtain ⟨hp, hin, hout⟩ := h.fits hb hk hexp
  have hj : j < b.outputs.length := by
    have := (List.getElem?_eq_some_iff.mp hq).1
    rw [System.polynomials, List.length_map] at this
    rwa [hout]
  have ho := List.getElem?_eq_getElem hj
  have hinputs := hclosed _ (List.getElem_mem hj)
  refine ⟨_, ho, over_outputPoly hp hin hq ho hinputs, fun hkeep => ?_⟩
  exact outputRow_of_regular h hb hk hexp hq ho (fun i hi => hv _ (hinputs hkeep i hi)) (hv _ hkeep)
    (hr k b j _ ⟨hb, hk, ho, hkeep⟩)

/-- Over nets that have all inputs of a primitive with any of its outputs, the polynomials that keep to
them vanish where the outputs on them have the values of their expressions. -/
theorem solved_iff_polynomials (h : n.Wired) {step : System α} (hstep : n.stepSystem = .ok step)
    {keep : Nat → Prop}
    (hclosed : ∀ k b, n.block? k = some b → b.kind = .primitive → ∀ o ∈ b.outputs,
      keep (n.wires.netOf o) → ∀ i ∈ b.inputs, keep (n.wires.netOf i))
    (hv : ∀ net, keep net → (v net).isSome = true) (hr : n.RegularOn keep v) :
    (∀ p ∈ step.polynomials, p.Over keep → p.Regular fun net => (v net).getD 0) ∧
      (n.Solved keep v ↔ ∀ p ∈ step.polynomials, p.Over keep →
        p.valueAt (fun net => (v net).getD 0) = 0) := by
  obtain ⟨step', hstep', _, _, hpoly⟩ := stepSystem_eq h
  obtain rfl := Except.ok.inj (hstep'.symm.trans hstep)
  refine ⟨fun p hp hover => ?_, ?_⟩
  · obtain ⟨k, b, hb, hk, E, hE, j, q, hq, rfl⟩ := (hpoly p).mp hp
    obtain ⟨o, _, hover', hval⟩ := output_of_polynomial h hb hk hE hq (hclosed k b hb hk) hv hr
    exact (hval (hover'.mp hover)).1
  · constructor
    · intro hsolved p hp hover
      obtain ⟨k, b, hb, hk, E, hE, j, q, hq, rfl⟩ := (hpoly p).mp hp
      obtain ⟨o, ho, hover', hval⟩ := output_of_polynomial h hb hk hE hq (hclosed k b hb hk) hv hr
      have hkeep := hover'.mp hover
      exact (hval hkeep).2.equationAt_iff.mp (hsolved k b j o ⟨hb, hk, ho, hkeep⟩)
    · intro hvan k b j o hcomp
      obtain ⟨hb, hk, ho, hkeep⟩ := hcomp
      obtain ⟨E, hE, _, _, _, hout⟩ := h.expression k b hb hk
      have hj : j < E.polynomials.length := by
        rw [System.polynomials, List.length_map, ← hout]
        exact (List.getElem?_eq_some_iff.mp ho).1
      have hq := List.getElem?_eq_getElem hj
      obtain ⟨o', ho', hover, hval⟩ := output_of_polynomial h hb hk hE hq (hclosed k b hb hk) hv hr
      obtain rfl := Option.some.inj (ho'.symm.trans ho)
      apply (hval hkeep).2.equationAt_iff.mpr
      exact hvan _ ((hpoly _).mpr ⟨k, b, hb, hk, E, hE, j, _, hq, rfl⟩) (hover.mpr hkeep)

/-- A point over the columns that are kept has the values of their nets. With an output of a primitive
all its inputs are kept, and its expression is regular. -/
structure Reads (n : Network α) (keep : List Bool) (v : Nat → Option α) (y : Nat → α) : Prop where
  closed : n.KeepsInputs keep
  value : ∀ net, System.Kept keep net → (v net).isSome = true
  point : ∀ net, System.Kept keep net → y ((keep.take net).count true) = (v net).getD 0
  regular : n.RegularOn (System.Kept keep) v

/-- What is kept of the equations of all blocks vanishes where the outputs that are kept have the
values of their expressions. -/
theorem vanishes_stepSystem (h : n.Wired) {step : System α} (hstep : n.stepSystem = .ok step)
    {keep : List Bool} {y : Nat → α} (hr : n.Reads keep v y) :
    (step.trimmed keep).Regular y ∧
      ((step.trimmed keep).Vanishes y ↔ n.Solved (System.Kept keep) v) := by
  obtain ⟨step', hstep', hproper, _⟩ := stepSystem_eq h
  obtain rfl := Except.ok.inj (hstep'.symm.trans hstep)
  obtain ⟨hreg, hsolved⟩ := solved_iff_polynomials h hstep hr.closed hr.value hr.regular
  exact ⟨System.regular_trimmed hr.point hreg,
    (System.vanishes_trimmed hproper hr.point).trans hsolved.symm⟩

end StepSystem

end Network

end Transcription
