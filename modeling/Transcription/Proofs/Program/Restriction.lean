import Transcription.Proofs.Program.Discrete

namespace Transcription

/-- What depends on smaller arguments only has a fixed point. -/
theorem exists_fixed {ι β : Type} [Inhabited β] {R : ι → ι → Prop} (hwf : WellFounded R)
    (F : (ι → β) → ι → β) (hF : ∀ c f g, (∀ a, R a c → f a = g a) → F f c = F g c) :
    ∃ f, ∀ c, F f c = f c := by
  classical
  let G (c : ι) (ih : ∀ a, R a c → β) : β := F (fun a => if h : R a c then ih a h else default) c
  refine ⟨hwf.fix G, fun c => ?_⟩
  rw [hwf.fix_eq]
  apply hF
  intro a ha
  rw [dif_pos ha]

namespace Network

variable {α : Type}

section Graph

variable [Scalar α]

def Feeds (n : Network α) (j k : Nat) : Prop :=
  ∃ b c, n.block? j = some b ∧ b.kind = .primitive ∧ n.block? k = some c ∧ c.kind = .primitive ∧
    ∃ o ∈ b.outputs, ∃ i ∈ c.inputs, n.wires.netOf o = n.wires.netOf i

/-- The value of one net is computed from that of another one. -/
def Needs (n : Network α) (a c : Nat) : Prop :=
  ∃ k b, n.block? k = some b ∧ b.kind = .primitive ∧ (∃ i ∈ b.inputs, n.wires.netOf i = a) ∧
    ∃ o ∈ b.outputs, n.wires.netOf o = c

variable {n : Network α}

/-- Nets need one another along primitives that feed one another. -/
theorem feeds_of_needs {a c : Nat} (h : Relation.TransGen n.Needs a c) :
    ∃ j k b d, n.block? j = some b ∧ b.kind = .primitive ∧ (∃ i ∈ b.inputs, n.wires.netOf i = a) ∧
      n.block? k = some d ∧ d.kind = .primitive ∧ (∃ o ∈ d.outputs, n.wires.netOf o = c) ∧
        Relation.ReflTransGen n.Feeds j k := by
  induction h with
  | single h =>
    obtain ⟨k, b, hb, hk, hi, ho⟩ := h
    exact ⟨k, k, b, b, hb, hk, hi, hb, hk, ho, .refl⟩
  | tail _ h ih =>
    obtain ⟨j, k, b, d, hb, hbk, hi, hd, hdk, ⟨o, ho, hnet⟩, hpath⟩ := ih
    obtain ⟨l, e, he, hek, ⟨i, hmem, hin⟩, hout⟩ := h
    have hfeeds : n.Feeds k l := ⟨d, e, hd, hdk, he, hek, o, ho, i, hmem, hnet.trans hin.symm⟩
    exact ⟨j, l, b, e, hb, hbk, hi, he, hek, hout, hpath.tail hfeeds⟩

theorem not_needs_self (h : ∀ k, ¬ Relation.TransGen n.Feeds k k) (net : Nat) :
    ¬ Relation.TransGen n.Needs net net := by
  intro hneeds
  obtain ⟨j, k, b, d, hb, hbk, ⟨i, hi, hin⟩, hd, hdk, ⟨o, ho, hout⟩, hpath⟩ := feeds_of_needs hneeds
  have hfeeds : n.Feeds k j := ⟨d, b, hd, hdk, hb, hbk, o, ho, i, hi, hout.trans hin.symm⟩
  exact h j (Relation.TransGen.tail' hpath hfeeds)

theorem Needs.lt_netCount {a c : Nat} (hw : n.Wired) (h : n.Needs a c) : a < n.wires.netCount := by
  obtain ⟨k, b, hb, _, ⟨i, hi, rfl⟩, _⟩ := h
  exact hw.netOf_lt hb (List.mem_append_left _ hi)

/-- Without circles of primitives, values can be computed one after the other. -/
theorem wellFounded_needs (hw : n.Wired) (h : ∀ k, ¬ Relation.TransGen n.Feeds k k) :
    WellFounded n.Needs := by
  let closure (a c : Fin n.wires.netCount) : Prop := Relation.TransGen n.Needs a c
  have : IsTrans _ closure := ⟨fun _ _ _ => Relation.TransGen.trans⟩
  have : Std.Irrefl closure := ⟨fun c => not_needs_self h c⟩
  have hwf : WellFounded closure := Finite.wellFounded_of_trans_of_irrefl closure
  have hinside : ∀ c : Fin n.wires.netCount, Acc n.Needs c := by
    intro c
    induction c using hwf.induction with
    | _ c ih => exact Acc.intro _ fun a ha => ih ⟨a, ha.lt_netCount hw⟩ (.single ha)
  exact ⟨fun c => Acc.intro _ fun a ha => hinside ⟨a, ha.lt_netCount hw⟩⟩

end Graph

section Sources

variable [Scalar α]

def sources (n : Network α) : List (TracedBlock α × Nat × Nat) :=
  (n.blocks.blocks.filter fun b => !b.kind.isReroute).flatMap fun b =>
    b.outputs.zipIdx.map fun (o, j) => (b, j, o)

def source? (n : Network α) (net : Nat) : Option (TracedBlock α × Nat) :=
  (n.sources.find? fun s => n.wires.netOf s.2.2 = net).map fun s => (s.1, s.2.1)

variable {n : Network α} {b : TracedBlock α} {j o : Nat}

theorem mem_sources : (b, j, o) ∈ n.sources ↔
    ∃ k, n.block? k = some b ∧ b.kind.isReroute = false ∧ b.outputs[j]? = some o := by
  simp only [sources, List.mem_flatMap, List.mem_filter, Bool.not_eq_true', List.mem_map, Prod.mk.injEq,
    Prod.exists, List.mem_zipIdx_iff_getElem?]
  constructor
  · intro ⟨c, ⟨hc, hr⟩, i, l, ho, hcb, hl, hi⟩
    subst hcb hl hi
    obtain ⟨k, hk⟩ := List.mem_iff_getElem?.mp hc
    exact ⟨k, hk, hr, ho⟩
  · intro ⟨k, hk, hr, ho⟩
    exact ⟨b, ⟨List.mem_of_getElem? hk, hr⟩, o, j, ho, rfl, rfl, rfl⟩

theorem of_source? {net : Nat} (h : n.source? net = some (b, j)) : ∃ k o, n.block? k = some b ∧
    b.kind.isReroute = false ∧ b.outputs[j]? = some o ∧ n.wires.netOf o = net := by
  obtain ⟨⟨c, i, o⟩, hs, he⟩ := Option.map_eq_some_iff.mp h
  cases he
  obtain ⟨k, hk, hr, ho⟩ := mem_sources.mp (List.mem_of_find?_eq_some hs)
  exact ⟨k, o, hk, hr, ho, by simpa using List.find?_some hs⟩

/-- A net comes from the one output that is on it. -/
theorem source?_eq (hw : n.Wired) (hs : n.SingleSourced) {k : Nat} (hb : n.block? k = some b)
    (hr : b.kind.isReroute = false) (ho : b.outputs[j]? = some o) :
    n.source? (n.wires.netOf o) = some (b, j) := by
  have hsome : (n.sources.find? fun s => n.wires.netOf s.2.2 = n.wires.netOf o).isSome = true :=
    List.find?_isSome.mpr ⟨(b, j, o), mem_sources.mpr ⟨k, hb, hr, ho⟩, by simp⟩
  obtain ⟨⟨c, i, p⟩, hfind⟩ := Option.isSome_iff_exists.mp hsome
  have hsource : n.source? (n.wires.netOf o) = some (c, i) := by rw [source?, hfind]; rfl
  obtain ⟨l, q, hc, hcr, hq, hnet⟩ := of_source? hsource
  obtain ⟨hqo, hlk⟩ := hw.output_unique hs hc hb hcr hr (List.mem_of_getElem? hq)
    (List.mem_of_getElem? ho) hnet
  subst hqo hlk
  obtain rfl := Option.some.inj (hc.symm.trans hb)
  have hij := (List.getElem?_inj (List.getElem?_eq_some_iff.mp hq).1 (hw.nodup _ _ hb)).mp
    (hq.trans ho.symm)
  rw [hsource, hij]

end Sources

section Everywhere

variable [LinearOrder α] [ExactScalar α]

def everywhere (n : Network α) (w : Nat → α) (net : Nat) : Option α :=
  if net < n.wires.netCount then some (w net) else none

def outputValue (n : Network α) (b : TracedBlock α) (j : Nat) (w : Nat → α) : α :=
  match n.diagram.expression b.source with
  | .ok E => (E.residualAt (System.point (b.inputs.map fun i => w (n.wires.netOf i)))).getD j 0
  | .error _ => 0

variable {n : Network α} {k : Nat} {b : TracedBlock α} {j o : Nat}

theorem inputsAt_congr {v w : Nat → Option α}
    (h : ∀ i ∈ b.inputs, v (n.wires.netOf i) = w (n.wires.netOf i)) :
    n.inputsAt b v = n.inputsAt b w := by
  unfold inputsAt
  revert h
  generalize b.inputs = is
  intro h
  induction is with
  | nil => rfl
  | cons i is ih =>
    obtain ⟨hi, his⟩ := List.forall_mem_cons.mp h
    rw [List.mapM_cons, List.mapM_cons, hi, ih his]

theorem equationAt_congr {v w : Nat → Option α}
    (hi : ∀ i ∈ b.inputs, v (n.wires.netOf i) = w (n.wires.netOf i)) (ho : b.outputs[j]? = some o)
    (hout : v (n.wires.netOf o) = w (n.wires.netOf o)) : n.EquationAt b j v ↔ n.EquationAt b j w := by
  simp only [EquationAt, inputsAt_congr hi, ho, Option.bind_some, hout]

theorem outputValue_congr {w y : Nat → α}
    (h : ∀ i ∈ b.inputs, w (n.wires.netOf i) = y (n.wires.netOf i)) :
    n.outputValue b j w = n.outputValue b j y := by
  rw [outputValue, List.map_congr_left h]
  rfl

theorem equationAt_everywhere (hw : n.Wired) (hb : n.block? k = some b) (hk : b.kind = .primitive)
    (ho : b.outputs[j]? = some o) (w : Nat → α) :
    n.EquationAt b j (n.everywhere w) ↔ w (n.wires.netOf o) = n.outputValue b j w := by
  obtain ⟨E, hE, _, _, hin, hout⟩ := hw.expression k b hb hk
  have hnet {i : Nat} (hi : i ∈ b.inputs ++ b.outputs) :
      n.everywhere w (n.wires.netOf i) = some (w (n.wires.netOf i)) := if_pos (hw.netOf_lt hb hi)
  have hxs : n.inputsAt b (n.everywhere w) = some (b.inputs.map fun i => w (n.wires.netOf i)) := by
    rw [inputsAt_eq_some, List.forall₂_map_right_iff]
    exact List.forall₂_same.mpr fun i hi => hnet (List.mem_append_left _ hi)
  have hres := residual_of_proper (s := E) (z := b.inputs.map fun i => w (n.wires.netOf i))
    (by rw [List.length_map, hin])
  have hj : j < (E.residualAt (System.point (b.inputs.map fun i => w (n.wires.netOf i)))).length := by
    rw [System.residualAt, List.length_map, ← hout]
    exact (List.getElem?_eq_some_iff.mp ho).1
  have hval : n.outputValue b j w =
      (E.residualAt (System.point (b.inputs.map fun i => w (n.wires.netOf i))))[j] := by
    rw [outputValue, hE]
    exact List.getD_eq_getElem _ _ hj
  have houtput := hnet (List.mem_append_right _ (List.mem_of_getElem? ho))
  constructor
  · intro h
    obtain ⟨E', xs, ys, y, hE', hxs', hys, hy, hv⟩ := h
    obtain rfl := Except.ok.inj (hE.symm.trans hE')
    obtain rfl := Option.some.inj (hxs.symm.trans hxs')
    obtain rfl := Except.ok.inj (hres.symm.trans hys)
    rw [ho, Option.bind_some, houtput] at hv
    rw [List.getElem?_eq_getElem hj] at hy
    rw [hval, Option.some.inj hv, Option.some.inj hy]
  · intro h
    refine ⟨E, _, _, w (n.wires.netOf o), hE, hxs, hres, ?_, by rw [ho, Option.bind_some, houtput]⟩
    rw [List.getElem?_eq_getElem hj, h, hval]

def windowValue (steps : Nat) (b : TracedBlock α) (v : Nat → Option α) (t : Nat) : Option α :=
  (stepsFrom 1 steps).findSome? fun u : Nat =>
    if b.period.window b.offset u = b.period.window b.offset t then v u else none

def madeUp (n : Network α) (steps : Nat) (v : Nat → Nat → Option α) (u : Nat → Nat → α)
    (t net : Nat) : α :=
  match n.source? net with
  | none => 0
  | some (b, j) =>
    if b.kind = .primitive then n.outputValue b j (u t)
    else if b.kind = .delay then
      if 2 ≤ t then ((b.inputs[j]?).map fun i => u (t - 1) (n.wires.netOf i)).getD 0 else 0
    else if b.isMoveBlocked then (windowValue steps b (fun s => v s net) t).getD 0
    else 0

/-- Values for all nets at all steps that agree with those given, and are made up elsewhere. -/
structure Extends (n : Network α) (steps : Nat) (v : Nat → Nat → Option α) (u : Nat → Nat → α) :
    Prop where
  agrees : ∀ t net a, v t net = some a → u t net = a
  madeUp : ∀ t net, v t net = none → u t net = n.madeUp steps v u t net

/-- Values extend to all nets at all steps: what is made up depends on earlier steps, and at one step
on nets that are needed for it. -/
theorem exists_extends (hw : n.Wired) (h : ∀ k, ¬ Relation.TransGen n.Feeds k k) (steps : Nat)
    (v : Nat → Nat → Option α) : ∃ u, n.Extends steps v u := by
  have hwf : WellFounded (Prod.Lex (fun t u : Nat => t < u) n.Needs) :=
    WellFounded.prod_lex Nat.lt_wfRel.wf (wellFounded_needs hw h)
  have : Inhabited α := ⟨0⟩
  obtain ⟨f, hf⟩ := exists_fixed hwf
    (fun f s => (v s.1 s.2).getD (n.madeUp steps v (fun t net => f (t, net)) s.1 s.2)) (by
      intro ⟨t, net⟩ f g hfg
      refine congrArg _ ?_
      unfold Network.madeUp
      cases hs : n.source? net with
      | none => rfl
      | some p =>
        obtain ⟨b, j⟩ := p
        obtain ⟨k, o, hb, _, ho, hnet⟩ := of_source? hs
        dsimp only
        split
        · rename_i hk
          refine outputValue_congr fun i hi => hfg _ (Prod.Lex.right _ ?_)
          exact ⟨k, b, hb, hk, ⟨i, hi, rfl⟩, o, List.mem_of_getElem? ho, hnet⟩
        · split
          · split
            · have hlt : t - 1 < t := by omega
              congr 2
              funext i
              exact hfg _ (Prod.Lex.left _ _ hlt)
            · rfl
          · rfl)
  refine ⟨fun t net => f (t, net), ?_, ?_⟩
  · intro t net a ha
    have := hf (t, net)
    rw [← this, ha, Option.getD_some]
  · intro t net hn
    have := hf (t, net)
    dsimp only at this
    rw [← this, hn, Option.getD_none]

variable {live : List PhaseSet} {steps : Nat} {v : Assignment live steps α} {u : Nat → Nat → α}

/-- In an extension of a solution all outputs have the values of their expressions. -/
theorem Extends.solved (h : n.Extends steps v.value u) (hw : n.Wired) (hs : n.SingleSourced)
    {minor : Bool} (hc : n.Closed minor fun net => (live[net]?).getD {})
    (hv : ∀ t, n.Solved (LiveAt live steps t) (v.value t)) (t : Nat) :
    n.Solved (· < n.wires.netCount) (n.everywhere (u t)) := by
  intro k b j o hcomp
  obtain ⟨hb, hk, ho, _⟩ := hcomp
  have hmem := List.mem_of_getElem? ho
  cases hval : v.value t (n.wires.netOf o) with
  | none =>
    apply (equationAt_everywhere hw hb hk ho (u t)).mpr
    rw [h.madeUp t _ hval, Network.madeUp, source?_eq hw hs hb (by rw [hk]; rfl) ho]
    dsimp only
    rw [if_pos hk]
  | some a =>
    have hl := (v.domain t _).mp (Option.isSome_iff_exists.mpr ⟨a, hval⟩)
    have hagree {i : Nat} (hi : i ∈ b.inputs ++ b.outputs) {c : α}
        (hic : v.value t (n.wires.netOf i) = some c) :
        v.value t (n.wires.netOf i) = n.everywhere (u t) (n.wires.netOf i) := by
      rw [everywhere, if_pos (hw.netOf_lt hb hi), h.agrees t _ c hic, hic]
    refine (equationAt_congr (fun i hi => ?_) ho (hagree (List.mem_append_right _ hmem) hval)).mp
      (hv t k b j o ⟨hb, hk, ho, hl⟩)
    obtain ⟨c, hc'⟩ := Option.isSome_iff_exists.mp
      ((v.domain t _).mpr (hc.liveAt_inputs hb hk hmem hl hi))
    exact hagree (List.mem_append_left _ hi) hc'

/-- In an extension delays carry values at all steps. -/
theorem Extends.delay (h : n.Extends steps v.value u) (hw : n.Wired) (hs : n.SingleSourced)
    (hv : n.Continues v.value) {k : Nat} {b : TracedBlock α} (hb : n.block? k = some b)
    (hk : b.kind = .delay) {o i : Nat} (hz : (o, i) ∈ b.outputs.zip b.inputs) {t : Nat}
    (ht : 2 ≤ t) : u t (n.wires.netOf o) = u (t - 1) (n.wires.netOf i) := by
  cases hval : v.value t (n.wires.netOf o) with
  | some a =>
    have hcarry := hv.delay k b hb hk o i hz t ht (by rw [hval]; rfl)
    rw [h.agrees t _ a hval, h.agrees (t - 1) _ a (hcarry.symm.trans hval)]
  | none =>
    obtain ⟨j, hj⟩ := List.mem_iff_getElem?.mp hz
    obtain ⟨ho, hi⟩ := List.getElem?_zip_eq_some.mp hj
    rw [h.madeUp t _ hval, Network.madeUp, source?_eq hw hs hb (by rw [hk]; rfl) ho]
    dsimp only
    rw [if_neg (by rw [hk]; decide), if_pos hk, if_pos ht, hi]
    rfl

/-- In an extension an input keeps its value through a window. -/
theorem Extends.eq_windowValue (h : n.Extends steps v.value u) (hw : n.Wired) (hs : n.SingleSourced)
    (hv : n.Continues v.value) {k : Nat} {b : TracedBlock α} (hb : n.block? k = some b)
    (hm : b.isMoveBlocked = true) {o : Nat} (ho : o ∈ b.outputs) (t : Nat) :
    u t (n.wires.netOf o) =
      (windowValue steps b (fun s => v.value s (n.wires.netOf o)) t).getD 0 := by
  have hkind := TracedBlock.isBoundary_of_isMoveBlocked hm
  cases hval : v.value t (n.wires.netOf o) with
  | some a =>
    have hsome : (windowValue steps b (fun s => v.value s (n.wires.netOf o)) t).isSome = true := by
      have hl := (v.domain t _).mp (Option.isSome_iff_exists.mpr ⟨a, hval⟩)
      refine List.findSome?_isSome_iff.mpr ⟨t, mem_stepsFrom.mpr ⟨hl.1, hl.2.1⟩, ?_⟩
      rw [if_pos rfl]
      exact Option.isSome_iff_exists.mpr ⟨a, hval⟩
    obtain ⟨c, hc⟩ := Option.isSome_iff_exists.mp hsome
    obtain ⟨s, _, hsc⟩ := List.exists_of_findSome?_eq_some hc
    obtain ⟨hwin, hsc⟩ := Option.ite_none_right_eq_some.mp hsc
    have hsc : v.value s (n.wires.netOf o) = some c := hsc
    have hsame := hv.window k b hb hm o ho s t (by rw [hsc]; rfl) (by rw [hval]; rfl) hwin
    rw [h.agrees t _ a hval, hc, Option.getD_some]
    exact Option.some.inj (hval.symm.trans (hsame.symm.trans hsc))
  | none =>
    obtain ⟨j, hj⟩ := List.mem_iff_getElem?.mp ho
    have hr := BlockKind.isReroute_of_isBoundary hkind
    have hprimitive : ¬ b.kind = .primitive := by
      intro hk
      rw [hk] at hkind
      cases hkind
    have hdelay : ¬ b.kind = .delay := by
      intro hk
      rw [hk] at hkind
      cases hkind
    rw [h.madeUp t _ hval, Network.madeUp, source?_eq hw hs hb hr hj]
    dsimp only
    rw [if_neg hprimitive, if_neg hdelay, if_pos hm]

def NaturalExponents (n : Network α) : Prop :=
  ∀ (k : Nat) (b : TracedBlock α) (E : System α), n.block? k = some b → b.kind = .primitive →
    n.diagram.expression b.source = .ok E → ∀ r ∈ E.monomials, ∀ e ∈ r, ∃ m : ℕ, e.2 = m

/-- Values of all nets at all steps for which all equations hold at each step, delays carry values from
each step to the next, and windows keep them. -/
structure Unrestricted (n : Network α) (steps : Nat) (step : System α) (u : Nat → Nat → α) : Prop where
  step : ∀ t, 1 ≤ t → t ≤ steps → ∃ rs,
    step.residual ((List.range n.wires.netCount).map (u t)) = .ok rs ∧ ∀ r ∈ rs, r = 0
  delay : ∀ k b, n.block? k = some b → b.kind = .delay → ∀ o i, (o, i) ∈ b.outputs.zip b.inputs →
    ∀ t, 2 ≤ t → t ≤ steps → u t (n.wires.netOf o) = u (t - 1) (n.wires.netOf i)
  window : ∀ k b, n.block? k = some b → b.isMoveBlocked = true → ∀ o ∈ b.outputs, ∀ s t : Nat,
    1 ≤ s → s ≤ steps → 1 ≤ t → t ≤ steps →
      b.period.window b.offset s = b.period.window b.offset t →
        u s (n.wires.netOf o) = u t (n.wires.netOf o)

theorem NaturalExponents.regularOn (h : n.NaturalExponents) (alive : Nat → Prop)
    (v : Nat → Option α) : n.RegularOn alive v := by
  intro k b j o hcomp E xs p hE _ hp t ht e he
  obtain ⟨r, _, rfl⟩ := System.mem_polynomials.mp (List.mem_of_getElem? hp)
  obtain ⟨i, _, hm⟩ := System.mem_terms.mp ht
  obtain ⟨m, hm⟩ := h k b E hcomp.block hcomp.kind hE t.2 (List.mem_of_getElem? hm) e he
  exact ⟨m, by simpa using hm, .inr (Int.natCast_nonneg m)⟩

theorem residual_step_iff (hw : n.Wired) (hexp : n.NaturalExponents) {step : System α}
    (hstep : n.stepSystem = .ok step) (w : Nat → α) :
    (∃ rs, step.residual ((List.range n.wires.netCount).map w) = .ok rs ∧ ∀ r ∈ rs, r = 0) ↔
      n.Solved (· < n.wires.netCount) (n.everywhere w) := by
  obtain ⟨step', hstep', hproper, hwidth, _⟩ := stepSystem_eq hw
  obtain rfl := Except.ok.inj (hstep'.symm.trans hstep)
  have hres := residual_of_proper (s := step') (z := (List.range n.wires.netCount).map w)
    (by rw [List.length_map, List.length_range, hwidth])
  have hpoint : ∀ c < step'.width,
      System.point ((List.range n.wires.netCount).map w) c = (n.everywhere w c).getD 0 := by
    intro c hc
    rw [hwidth] at hc
    simp [System.point, everywhere, hc]
  have hover : ∀ p ∈ step'.polynomials, p.Over (· < n.wires.netCount) := by
    intro p hp t ht _ e he _
    have := hproper.within_polynomials hp ht e he
    rwa [hwidth] at this
  have hsolved : n.Solved (· < n.wires.netCount) (n.everywhere w) ↔ ∀ p ∈ step'.polynomials,
      p.Over (· < n.wires.netCount) → p.valueAt (fun net => (n.everywhere w net).getD 0) = 0 := by
    apply (solved_iff_polynomials hw hstep ?_ ?_ (hexp.regularOn _ _)).2
    · intro k b hb _ _ _ _ i hi
      exact hw.netOf_lt hb (List.mem_append_left _ hi)
    · intro net hnet
      rw [everywhere, if_pos hnet]
      rfl
  have hvanish : (∀ r ∈ step'.residualAt (System.point ((List.range n.wires.netCount).map w)), r = 0) ↔
      n.Solved (· < n.wires.netCount) (n.everywhere w) := by
    refine (System.vanishes_congr hproper hpoint).trans (System.vanishes_iff.trans ?_)
    rw [hsolved]
    exact forall₂_congr fun p hp => ⟨fun hz _ => hz, fun hz => hz (hover p hp)⟩
  rw [← hvanish]
  constructor
  · intro h
    obtain ⟨rs, hrs, hz⟩ := h
    obtain rfl := Except.ok.inj (hres.symm.trans hrs)
    exact hz
  · intro hz
    exact ⟨_, hres, hz⟩

/-- An extension of a solution solves all equations at all steps. -/
theorem Extends.unrestricted (h : n.Extends steps v.value u) (hw : n.Wired) (hs : n.SingleSourced)
    {minor : Bool} (hc : n.Closed minor fun net => (live[net]?).getD {})
    (hexp : n.NaturalExponents) {step : System α} (hstep : n.stepSystem = .ok step)
    (hv : n.Continues v.value) (hsolved : ∀ t, n.Solved (LiveAt live steps t) (v.value t)) :
    n.Unrestricted steps step u where
  step t _ _ := (residual_step_iff hw hexp hstep (u t)).mpr (h.solved hw hs hc hsolved t)
  delay k b hb hk o i hz t ht _ := h.delay hw hs hv hb hk hz ht
  window k b hb hm o ho s t _ _ _ _ hwin := by
    rw [h.eq_windowValue hw hs hv hb hm ho s, h.eq_windowValue hw hs hv hb hm ho t, windowValue, hwin]
    rfl

/-- What solves all equations at all steps solves them at the live nets. -/
theorem Unrestricted.restricts {step : System α} (h : n.Unrestricted steps step u) (hw : n.Wired)
    {minor : Bool} (hc : n.Closed minor fun net => (live[net]?).getD {})
    (hexp : n.NaturalExponents) (hstep : n.stepSystem = .ok step)
    (hv : ∀ t net, LiveAt live steps t net → v.value t net = some (u t net)) :
    n.Continues v.value ∧ ∀ t, n.Solved (LiveAt live steps t) (v.value t) := by
  have hlive {t net : Nat} (hsome : (v.value t net).isSome = true) :=
    (v.domain t net).mp hsome
  refine ⟨⟨?_, ?_⟩, ?_⟩
  · intro k b hb hk o i hz t ht hsome
    obtain ⟨ho, hi⟩ := List.of_mem_zip hz
    have hl := hlive hsome
    rw [hv t _ hl, hv (t - 1) _ (hc.liveAt_before hb hk ht ho hl hi), h.delay k b hb hk o i hz t ht hl.2.1]
  · intro k b hb hm o ho s t hsome htsome hwin
    have hl := hlive hsome
    have hl' := hlive htsome
    rw [hv s _ hl, hv t _ hl', h.window k b hb hm o ho s t hl.1 hl.2.1 hl'.1 hl'.2.1 hwin]
  · intro t k b j o hcomp
    obtain ⟨hb, hk, ho, hl⟩ := hcomp
    have hmem := List.mem_of_getElem? ho
    have hall := (residual_step_iff hw hexp hstep (u t)).mp (h.step t hl.1 hl.2.1)
    have hagree {i : Nat} (hi : i ∈ b.inputs ++ b.outputs)
        (hli : LiveAt live steps t (n.wires.netOf i)) :
        n.everywhere (u t) (n.wires.netOf i) = v.value t (n.wires.netOf i) := by
      rw [everywhere, if_pos (hw.netOf_lt hb hi), hv t _ hli]
    have hout : b.outputs[j]? = some o := ho
    refine (equationAt_congr (fun i hi => ?_) hout (hagree (List.mem_append_right _ hmem) hl)).mp
      (hall k b j o ⟨hb, hk, ho, hw.netOf_lt hb (List.mem_append_right _ hmem)⟩)
    exact hagree (List.mem_append_left _ hi) (hc.liveAt_inputs hb hk hmem hl hi)

end Everywhere

end Network

/-- Without a tableau, when no primitives feed one another in a circle and all exponents are natural
numbers, the solutions of the equalities are the restrictions to the live nets of what solves all
equations at all steps. -/
theorem Run.solutions_eq_restrictions {α : Type} [LinearOrder α] [ExactScalar α] {d : Diagram}
    {hold : Hold} {steps count : Nat} {dt : α} {n : Network α}
    (hnotes : (d.trace hold : Noted α (Network α)).notes = [])
    (hmerged : (Run.ofDiagram (.full steps dt hold none) d).merged = some (count, n))
    (hsingle : n.SingleSourced) (hsteps : 1 ≤ steps)
    (hacyclic : ∀ k, ¬ Relation.TransGen n.Feeds k k) (hexponents : n.NaturalExponents) :
    ∃ (live : List PhaseSet) (g : Grid α) (e : Equalities α),
      (Run.ofDiagram (.full steps dt hold none) d).live = some live ∧
      (Run.ofDiagram (.full steps dt hold none) d).grid = some g ∧
      (Run.ofDiagram (.full steps dt hold none) d).equalities = some e ∧
      n.stepSystem = .ok e.step ∧
      ∀ v : Assignment live steps α,
        (∃ z rs, e.system.residual z = .ok rs ∧ (∀ r ∈ rs, r = 0) ∧
          ∀ t net, v.value t net = (g.index? net t).bind fun i => z[i]?) ↔
        ∃ u, n.Unrestricted steps e.step u ∧
          ∀ t net, LiveAt live steps t net → v.value t net = some (u t net) := by
  obtain ⟨g, hg, hrun⟩ := Run.exists_onGrid hnotes hmerged hsingle hsteps
  obtain ⟨e, step, he, hstep, hestep, hsystem⟩ := hg.exists_equalities none dt
  obtain ⟨hlive, hgrid, hequalities⟩ := hrun e he
  subst hestep
  refine ⟨_, g, e, hlive, hgrid, hequalities, hstep, fun v => ?_⟩
  have hwidth : e.system.width = g.majorCount := by rw [hsystem]; rfl
  constructor
  · intro h
    obtain ⟨z, rs, hrs, hzero, hread⟩ := h
    have hlen : z.length = g.majorCount := by
      by_contra hne
      rw [System.residual, System.checkPoint, hwidth, if_neg hne] at hrs
      cases hrs
    have hvalue : v.value = g.reading z := funext₂ hread
    have hsolved : ∀ t, n.Solved (LiveAt (n.liveness false) steps t) (v.value t) := by
      rw [hvalue]
      apply (hg.vanishes_majorSystem hstep hlen.ge fun t => hexponents.regularOn _ _).mp
      obtain rfl := Except.ok.inj ((Network.residual_of_proper (hlen.trans hwidth.symm)).symm.trans hrs)
      rwa [← hsystem]
    have hcontinues : n.Continues v.value := hvalue ▸ hg.expands.continues_reading hg.closed hlen.ge
    obtain ⟨u, hu⟩ := Network.exists_extends hg.wired hacyclic steps v.value
    refine ⟨u, hu.unrestricted hg.wired hsingle hg.closed hexponents hstep hcontinues hsolved, ?_⟩
    intro t net hl
    obtain ⟨a, ha⟩ := Option.isSome_iff_exists.mp ((v.domain t net).mpr hl)
    rw [hu.agrees t net a ha, ha]
  · intro h
    obtain ⟨u, hu, hrestrict⟩ := h
    obtain ⟨hcontinues, hsolved⟩ := hu.restricts hg.wired hg.closed hexponents hstep hrestrict
    obtain ⟨z, hlen, hread⟩ := hg.expands.exists_point hg.closed v hcontinues
    refine ⟨z, _, Network.residual_of_proper (hlen.trans hwidth.symm), ?_, fun t net => ?_⟩
    · rw [hsystem]
      apply (hg.vanishes_majorSystem hstep hlen.ge fun t => hexponents.regularOn _ _).mpr
      rwa [hread]
    · rw [← hread]
      rfl

/-- The sum does not feed itself, and it is linear. -/
theorem RunningTotal.not_feeds (j k : Nat) : ¬ RunningTotal.network.Feeds j k := by
  intro ⟨b, c, hb, hbk, hc, hck, o, ho, i, hi, hnet⟩
  rw [primitive_network hb hbk, List.mem_singleton] at ho
  rw [primitive_network hc hck, List.mem_cons, List.mem_singleton] at hi
  subst ho
  cases hi with
  | inl hi => subst hi; cases hnet
  | inr hi => subst hi; cases hnet

theorem RunningTotal.naturalExponents : RunningTotal.network.NaturalExponents := by
  intro k b E hb hk hE r hr e he
  rw [primitive_network hb hk] at hE
  obtain rfl := Except.ok.inj (expression_sum.symm.trans hE)
  simp only [List.mem_cons, List.not_mem_nil, or_false] at hr
  refine ⟨1, ?_⟩
  cases hr with
  | inl hr =>
    rw [hr, List.mem_singleton] at he
    rw [he, Nat.cast_one]
  | inr hr =>
    rw [hr, List.mem_singleton] at he
    rw [he, Nat.cast_one]

/-- The running total over three steps, in which the input is not live. -/
theorem Run.solutions_eq_restrictions_total :
    (RunningTotal.diagram.trace .firstOrder : Noted ℚ _).notes = [] ∧
      (Run.ofDiagram (.full 3 (1 / 2 : ℚ) .firstOrder none) RunningTotal.diagram).merged =
        some (4, RunningTotal.network) ∧ RunningTotal.network.SingleSourced ∧ 1 ≤ 3 ∧
      (∀ k, ¬ Relation.TransGen RunningTotal.network.Feeds k k) ∧
      RunningTotal.network.NaturalExponents ∧
      ∃ (live : List PhaseSet) (g : Grid ℚ) (e : Equalities ℚ),
        (Run.ofDiagram (.full 3 (1 / 2 : ℚ) .firstOrder none) RunningTotal.diagram).live = some live ∧
        (Run.ofDiagram (.full 3 (1 / 2 : ℚ) .firstOrder none) RunningTotal.diagram).grid = some g ∧
        (Run.ofDiagram (.full 3 (1 / 2 : ℚ) .firstOrder none) RunningTotal.diagram).equalities =
          some e ∧ RunningTotal.network.stepSystem = .ok e.step ∧
        ∀ v : Assignment live 3 ℚ,
          (∃ z rs, e.system.residual z = .ok rs ∧ (∀ r ∈ rs, r = 0) ∧
            ∀ t net, v.value t net = (g.index? net t).bind fun i => z[i]?) ↔
          ∃ u, RunningTotal.network.Unrestricted 3 e.step u ∧
            ∀ t net, LiveAt live 3 t net → v.value t net = some (u t net) := by
  have hnotes := congrArg Noted.notes RunningTotal.trace_diagram
  have hmerged := RunningTotal.merged_diagram 3 (1 / 2) none
  have hacyclic : ∀ k, ¬ Relation.TransGen RunningTotal.network.Feeds k k := by
    intro k h
    obtain ⟨j, hj, _⟩ := Relation.TransGen.head'_iff.mp h
    exact RunningTotal.not_feeds k j hj
  exact ⟨hnotes, hmerged, RunningTotal.singleSourced_network, by decide, hacyclic,
    RunningTotal.naturalExponents, Run.solutions_eq_restrictions hnotes hmerged
      RunningTotal.singleSourced_network (by decide) hacyclic RunningTotal.naturalExponents⟩

end Transcription
