import Transcription.Proofs.Network.Wiring
import Transcription.Proofs.Wire.Limits

namespace Transcription

/-- Members that go to one of several places, added up place by place. -/
theorem sum_places {ι κ α : Type} [DecidableEq κ] [AddCommMonoid α] (place : ι → κ) (f : ι → α)
    (es : List ι) {ks : List κ} (h : ks.Nodup) :
    (ks.map fun k => ((es.filter fun e => place e = k).map f).sum).sum =
      ((es.filter fun e => place e ∈ ks).map f).sum := by
  induction ks with
  | nil => simp
  | cons k ks ih =>
    obtain ⟨hk, hks⟩ := List.nodup_cons.mp h
    have hsplit : ((es.filter fun e => place e = k).map f).sum +
        ((es.filter fun e => place e ∈ ks).map f).sum =
          ((es.filter fun e => place e ∈ k :: ks).map f).sum := by
      clear ih
      induction es with
      | nil => simp
      | cons e es ihe =>
        simp only [List.mem_cons, Bool.decide_or] at ihe
        by_cases hek : place e = k
        · simp [hek, hk, ← ihe, add_assoc]
        · by_cases hm : place e ∈ ks <;> simp [hek, hm, ← ihe, add_left_comm]
    rw [List.map_cons, List.sum_cons, ih hks, hsplit]

theorem sum_places_of_mem {ι κ α : Type} [DecidableEq κ] [AddCommMonoid α] (place : ι → κ) (f : ι → α)
    {es : List ι} {ks : List κ} (h : ks.Nodup) (hmem : ∀ e ∈ es, place e ∈ ks) :
    (ks.map fun k => ((es.filter fun e => place e = k).map f).sum).sum = (es.map f).sum := by
  rw [sum_places place f es h, List.filter_eq_self.mpr fun e he => decide_eq_true (hmem e he)]

/-- Members counted place by place. -/
theorem countP_places {ι κ : Type} [DecidableEq κ] (place : ι → κ) (q : ι → Bool) (es : List ι)
    {ks : List κ} (h : ks.Nodup) : (ks.map fun k => es.countP fun e => place e = k && q e).sum =
      es.countP fun e => decide (place e ∈ ks) && q e := by
  simpa [List.countP_eq_length_filter, List.filter_filter] using
    sum_places place (fun _ => (1 : Nat)) (es.filter q) h

theorem WireTable.getElem?_foldl_modify {α ι : Type} [Scalar α] (place : ι → Nat)
    (f : ι → Wire α → Wire α) (es : List ι) (t : WireTable α) (i : Nat) :
    (es.foldl (fun t e => t.modify (place e) (f e)) t).wires[i]? =
      (t.wires[i]?).map fun w => (es.filter fun e => place e = i).foldl (fun w e => f e w) w := by
  induction es generalizing t with
  | nil => simp
  | cons e es ih =>
    rw [List.foldl_cons, ih, getElem?_modify, Option.map_map]
    congr 1
    funext w
    by_cases he : place e = i
    · simp [he]
    · simp [he]

/-- The limits that a bound puts on a wire in some phases. -/
structure Restraint (α : Type) where
  wire : Nat
  phases : PhaseSet
  lower : Limit α
  upper : Limit α

namespace Restraint

def Open {α : Type} (r : Restraint α) : Prop := r.lower ≠ .posInf ∧ r.upper ≠ .negInf

def Admits {α : Type} [LinearOrder α] [ExactScalar α] (r : Restraint α) (x : α) : Prop :=
  r.lower.Below x ∧ r.upper.Above x

end Restraint

namespace Wire

def Open {α : Type} [Scalar α] (w : Wire α) : Prop :=
  ∀ p, w.lower.get p ≠ .posInf ∧ w.upper.get p ≠ .negInf

def Admits {α : Type} [LinearOrder α] [ExactScalar α] (w : Wire α) (p : MajorPhase) (x : α) : Prop :=
  (w.lower.get p).Below x ∧ (w.upper.get p).Above x

end Wire

structure Charge where
  wire : Nat
  phases : PhaseSet

namespace Network

section Phases

variable {α : Type} [Scalar α]

theorem lower_tightenIn (phases : PhaseSet) (l u : Limit α) (w : Wire α) (p : MajorPhase) :
    (tightenIn phases l u w).lower.get p =
      if phases.hasMajor p then (w.lower.get p).max l else w.lower.get p := by
  obtain ⟨initial, intermediate, final, _⟩ := phases
  cases initial <;> cases intermediate <;> cases final <;> cases p <;> rfl

theorem upper_tightenIn (phases : PhaseSet) (l u : Limit α) (w : Wire α) (p : MajorPhase) :
    (tightenIn phases l u w).upper.get p =
      if phases.hasMajor p then (w.upper.get p).min u else w.upper.get p := by
  obtain ⟨initial, intermediate, final, _⟩ := phases
  cases initial <;> cases intermediate <;> cases final <;> cases p <;> rfl

theorem rawCost_addUnitCost (phases : PhaseSet) (w : Wire α) (p : MajorPhase) :
    (addUnitCost phases w).rawCost.get p =
      if phases.hasMajor p then w.rawCost.get p + 1 else w.rawCost.get p := by
  obtain ⟨initial, intermediate, final, _⟩ := phases
  cases initial <;> cases intermediate <;> cases final <;> cases p <;> rfl

/-- The values of a bound, one for every wire that leads into its block; a lone value counts for all of
them. A parameter with another number of values gives none. -/
def declared? (n : Network α) (b : TracedBlock α) (name : String) (free : Float) :
    Option (List Float) :=
  match (n.diagram.param b.source name (.float free)).tensor? with
  | .ok t => t.spread? b.inputs.length
  | .error _ => none

def restraintsOf (n : Network α) (b : TracedBlock α) : List (Restraint α) :=
  match n.declared? b "lb" (-Numeral.infinity), n.declared? b "ub" Numeral.infinity with
  | some lower, some upper => (b.inputs.zip (lower.zip upper)).map fun (i, lb, ub) =>
      ⟨i, b.sinkPhases, .ofFloat .negInf lb, .ofFloat .posInf ub⟩
  | _, _ => []

def restraints (n : Network α) : List (Restraint α) :=
  ((n.blocks.ofKinds [.bound]).map (·.2)).flatMap n.restraintsOf

def charges (n : Network α) : List Charge :=
  ((n.blocks.ofKinds [.cost]).map (·.2)).flatMap fun b => b.inputs.map fun i => ⟨i, b.sinkPhases⟩

variable {n m : Network α}

theorem result_boundValues {b : TracedBlock α} {name : String} {free : Float}
    {values : Option (List Float)} (h : (n.boundValues b name free).result = .ok values) :
    values = n.declared? b name free := by
  unfold boundValues at h
  obtain ⟨t, ht, h⟩ := Noted.result_bind.mp h
  unfold declared?
  rw [show (n.diagram.param b.source name (.float free)).tensor? = .ok t from ht]
  dsimp only
  cases hs : t.spread? b.inputs.length with
  | some xs =>
    rw [hs] at h
    cases h
    rfl
  | none =>
    rw [hs] at h
    obtain ⟨_, _, h⟩ := Noted.result_bind.mp h
    cases h
    rfl

def restrain (t : WireTable α) (rs : List (Restraint α)) : WireTable α :=
  rs.foldl (fun t r => t.modify r.wire (tightenIn r.phases r.lower r.upper)) t

theorem restrain_append (t : WireTable α) (rs ss : List (Restraint α)) :
    restrain t (rs ++ ss) = restrain (restrain t rs) ss := List.foldl_append

theorem result_collectBound {b : TracedBlock α} {t u : WireTable α}
    (h : (n.collectBound t b).result = .ok u) : u = restrain t (n.restraintsOf b) := by
  unfold collectBound at h
  obtain ⟨lower, hl, h⟩ := Noted.result_bind.mp h
  obtain ⟨upper, hu, h⟩ := Noted.result_bind.mp h
  unfold restraintsOf
  rw [← result_boundValues hl, ← result_boundValues hu]
  cases lower with
  | none =>
    cases h
    rfl
  | some lower =>
    cases upper with
    | none =>
      cases h
      rfl
    | some upper =>
      cases h
      simp only [restrain, List.foldl_map, bindWires]

theorem wires_collectBounds (h : n.collectBounds.result = .ok m) :
    m.wires = restrain n.wires n.restraints := by
  unfold collectBounds at h
  obtain ⟨wires, hw, h⟩ := Noted.result_bind.mp h
  cases h
  have hfold (bs : List (TracedBlock α)) (t : WireTable α)
      (hq : (bs.foldlM n.collectBound t).result = .ok wires) :
      wires = restrain t (bs.flatMap n.restraintsOf) := by
    induction bs generalizing t with
    | nil =>
      cases hq
      rfl
    | cons b bs ih =>
      rw [List.foldlM_cons] at hq
      obtain ⟨u, hu, hq⟩ := Noted.result_bind.mp hq
      rw [List.flatMap_cons, restrain_append, ← result_collectBound hu]
      exact ih u hq
  exact hfold _ _ hw

theorem wires_collectCosts (n : Network α) : n.collectCosts.wires =
    n.charges.foldl (fun t c => t.modify c.wire (addUnitCost c.phases)) n.wires := by
  simp only [collectCosts, charges, List.foldl_flatMap, List.foldl_map, WireTable.modifyAll]

theorem restraints_congr (hd : m.diagram = n.diagram) (hb : m.blocks = n.blocks) :
    m.restraints = n.restraints := by
  obtain ⟨diagram, blocks, wires⟩ := m
  cases hd
  cases hb
  rfl

theorem mem_restraints {r : Restraint α} : r ∈ n.restraints ↔
    ∃ k b, n.block? k = some b ∧ b.kind = .bound ∧ r ∈ n.restraintsOf b := mem_flatMap_ofKind

theorem mem_charges {c : Charge} : c ∈ n.charges ↔
    ∃ k b, n.block? k = some b ∧ b.kind = .cost ∧ ∃ i ∈ b.inputs, ⟨i, b.sinkPhases⟩ = c := by
  simp only [charges, mem_flatMap_ofKind, List.mem_map]

theorem wire_of_mem_restraintsOf {b : TracedBlock α} {r : Restraint α} (h : r ∈ n.restraintsOf b) :
    r.wire ∈ b.inputs ∧ r.phases = b.sinkPhases := by
  unfold restraintsOf at h
  split at h
  · obtain ⟨⟨i, _⟩, hi, rfl⟩ := List.mem_map.mp h
    exact ⟨(List.of_mem_zip hi).1, rfl⟩
  · cases h

end Phases

section Wires

variable {α : Type} [Scalar α]

theorem open_tightenIn {r : Restraint α} (hr : r.Open) {w : Wire α} (h : w.Open) :
    (tightenIn r.phases r.lower r.upper w).Open := by
  intro p
  obtain ⟨hlower, hupper⟩ := h p
  rw [lower_tightenIn, upper_tightenIn]
  split
  · obtain hl | hl := Limit.max_eq_or (w.lower.get p) r.lower <;>
      obtain hu | hu := Limit.min_eq_or (w.upper.get p) r.upper <;> rw [hl, hu]
    · exact ⟨hlower, hupper⟩
    · exact ⟨hlower, hr.2⟩
    · exact ⟨hr.1, hupper⟩
    · exact hr
  · exact ⟨hlower, hupper⟩

theorem open_foldl {rs : List (Restraint α)} (hrs : ∀ r ∈ rs, r.Open) {w : Wire α} (h : w.Open) :
    (rs.foldl (fun w r => tightenIn r.phases r.lower r.upper w) w).Open := by
  induction rs generalizing w with
  | nil => exact h
  | cons r rs ih =>
    obtain ⟨hr, hrs⟩ := List.forall_mem_cons.mp hrs
    exact ih hrs (open_tightenIn hr h)

theorem lower_share (ws : List (Wire α)) (w : Wire α) (p : MajorPhase) :
    (WireTable.share ws w).lower.get p =
      (ws.map fun v => v.lower.get p).foldl Limit.max .negInf := by cases p <;> rfl

theorem upper_share (ws : List (Wire α)) (w : Wire α) (p : MajorPhase) :
    (WireTable.share ws w).upper.get p =
      (ws.map fun v => v.upper.get p).foldl Limit.min .posInf := by cases p <;> rfl

theorem open_share {ws : List (Wire α)} (h : ∀ v ∈ ws, v.Open) (w : Wire α) :
    (WireTable.share ws w).Open := by
  intro p
  rw [lower_share, upper_share]
  constructor
  · exact Limit.foldl_max_ne_posInf (List.forall_mem_map.mpr fun v hv => (h v hv p).1)
  · exact Limit.foldl_min_ne_negInf (List.forall_mem_map.mpr fun v hv => (h v hv p).2)

/-- The first wire of a merged net shares what is on all of its wires. -/
theorem exists_share_of_head? {t : WireTable α} {net : Nat} {w : Wire α}
    (hw : (t.merge.group net).head? = some w) : ∃ v, w = WireTable.share (t.group net) v := by
  obtain ⟨hmem, he⟩ := List.mem_filter.mp (List.mem_of_mem_head? hw)
  obtain ⟨v, _, rfl⟩ := List.mem_map.mp hmem
  exact ⟨v, congrArg (fun c => WireTable.share (t.group c) v) (of_decide_eq_true he)⟩

end Wires

section Exact

variable {α : Type} [LinearOrder α] [ExactScalar α] {p : MajorPhase} {x : α}

theorem admits_tightenIn {r : Restraint α} {w : Wire α} :
    (tightenIn r.phases r.lower r.upper w).Admits p x ↔
      w.Admits p x ∧ (r.phases.hasMajor p = true → r.Admits x) := by
  rw [Wire.Admits, lower_tightenIn, upper_tightenIn]
  cases r.phases.hasMajor p with
  | false => simp [Wire.Admits]
  | true =>
    simp only [if_true, Limit.below_max, Limit.above_min, forall_const]
    exact and_and_and_comm

/-- A wire lets through what all limits on it do. -/
theorem admits_foldl {rs : List (Restraint α)} {w : Wire α} :
    (rs.foldl (fun w r => tightenIn r.phases r.lower r.upper w) w).Admits p x ↔
      w.Admits p x ∧ ∀ r ∈ rs, r.phases.hasMajor p = true → r.Admits x := by
  induction rs generalizing w with
  | nil => simp
  | cons r rs ih => rw [List.foldl_cons, ih, admits_tightenIn, List.forall_mem_cons, and_assoc]

/-- A net lets through what all of its wires do. -/
theorem admits_share {ws : List (Wire α)} {w : Wire α} :
    (WireTable.share ws w).Admits p x ↔ ∀ v ∈ ws, v.Admits p x := by
  rw [Wire.Admits, lower_share, upper_share, Limit.below_foldl, Limit.above_foldl]
  simp only [List.forall_mem_map, Limit.Below, Limit.Above, true_and, ← forall_and]
  rfl

/-- A wire has a unit of cost for each that is put on it. -/
theorem rawCost_foldl (cs : List Charge) (w : Wire α) :
    (cs.foldl (fun w c => addUnitCost c.phases w) w).rawCost.get p =
      w.rawCost.get p + ((cs.countP fun c => c.phases.hasMajor p : Nat) : α) := by
  induction cs generalizing w with
  | nil => simp
  | cons c cs ih =>
    rw [List.foldl_cons, ih, rawCost_addUnitCost, List.countP_cons]
    cases c.phases.hasMajor p with
    | false => simp
    | true => simp [add_assoc, add_comm, add_left_comm]

def Bare {α : Type} [Scalar α] (t : WireTable α) : Prop :=
  ∀ w ∈ t.wires, ∀ p, w.lower.get p = .negInf ∧ w.upper.get p = .posInf ∧ w.rawCost.get p = 0

section Restrained

variable {t : WireTable α} {rs : List (Restraint α)} {i : Nat} {w : Wire α}

theorem getElem?_restrain (hw : (restrain t rs).wires[i]? = some w) : ∃ v, t.wires[i]? = some v ∧
    (rs.filter fun r => r.wire = i).foldl (fun w r => tightenIn r.phases r.lower r.upper w) v = w := by
  rw [restrain, WireTable.getElem?_foldl_modify] at hw
  exact Option.map_eq_some_iff.mp hw

theorem Bare.admits_restrain (h : Bare t) (hw : (restrain t rs).wires[i]? = some w) :
    w.Admits p x ↔ ∀ r ∈ rs, r.wire = i → r.phases.hasMajor p = true → r.Admits x := by
  obtain ⟨v, hv, rfl⟩ := getElem?_restrain hw
  obtain ⟨hlower, hupper, _⟩ := h v (List.mem_of_getElem? hv) p
  have hv : v.Admits p x := by
    rw [Wire.Admits, hlower, hupper]
    exact ⟨trivial, trivial⟩
  rw [admits_foldl, and_iff_right hv]
  simp only [List.mem_filter, decide_eq_true_eq, and_imp]

theorem Bare.open_restrain (h : Bare t) (hrs : ∀ r ∈ rs, r.Open)
    (hw : (restrain t rs).wires[i]? = some w) : w.Open := by
  obtain ⟨v, hv, rfl⟩ := getElem?_restrain hw
  apply open_foldl fun r hr => hrs r (List.mem_of_mem_filter hr)
  intro p
  obtain ⟨hlower, hupper, _⟩ := h v (List.mem_of_getElem? hv) p
  rw [hlower, hupper]
  exact ⟨nofun, nofun⟩

end Restrained

theorem rawCost_collectCosts {n : Network α} (h : ∀ w ∈ n.wires.wires, ∀ p, w.rawCost.get p = 0)
    {i : Nat} {w : Wire α} (hw : n.collectCosts.wires.wires[i]? = some w) : w.rawCost.get p =
      ((n.charges.countP fun c => c.wire = i && c.phases.hasMajor p : Nat) : α) := by
  rw [wires_collectCosts, WireTable.getElem?_foldl_modify] at hw
  obtain ⟨v, hv, rfl⟩ := Option.map_eq_some_iff.mp hw
  rw [rawCost_foldl, h v (List.mem_of_getElem? hv), zero_add, List.countP_filter]
  simp only [Bool.and_comm]

/-- Nothing is on the wires that a search has found. -/
theorem bare_setFlags {d : Diagram} {s : Search α} {n : Network α} (hs : s.Sound d)
    (h : ofSearch d s = .ok n) : Bare n.setFlags.wires := by
  obtain ⟨_, ht, _⟩ := ofSearch_eq_ok h
  let view (w : Wire α) := (w.lower, w.upper, w.rawCost)
  have hlinks : s.wires.Agree view n.wires := agree_linkAliases (fun _ _ => rfl) ht
  have hagree := hlinks.trans (agree_setFlags (fun _ _ => rfl) n)
  intro w hw p
  obtain ⟨i, hi⟩ := List.mem_iff_getElem?.mp hw
  obtain ⟨v, hv, hview⟩ := hagree.exists_getElem? hi
  have hplain := hs.plain v (List.mem_of_getElem? hv)
  have hlower : v.lower = w.lower := congrArg (·.1) hview
  have hupper : v.upper = w.upper := congrArg (·.2.1) hview
  have hcost : v.rawCost = w.rawCost := congrArg (·.2.2) hview
  rw [← hlower, ← hupper, ← hcost, hplain.lower_eq, hplain.upper_eq, hplain.cost_eq]
  cases p <;> exact ⟨rfl, rfl, rfl⟩

structure WiresBurdened (n : Network α) : Prop where
  admits : ∀ (i : Nat) w, n.wires.wires[i]? = some w → ∀ p x, w.Admits p x ↔
    ∀ r ∈ n.restraints, r.wire = i → r.phases.hasMajor p = true → r.Admits x
  isOpen : (∀ r ∈ n.restraints, r.Open) → ∀ w ∈ n.wires.wires, w.Open
  rawCost_eq : ∀ (i : Nat) w, n.wires.wires[i]? = some w → ∀ p, w.rawCost.get p =
    ((n.charges.countP fun c => c.wire = i && c.phases.hasMajor p : Nat) : α)

theorem wiresBurdened_traceMeasured {d : Diagram} {hold : Hold} {n : Network α}
    (h : (traceMeasured d hold).result = .ok n) : n.WiresBurdened := by
  unfold traceMeasured at h
  obtain ⟨search, hsearch, h⟩ := Noted.result_bind.mp h
  obtain ⟨wired, hwired, h⟩ := Noted.result_bind.mp h
  obtain ⟨bounded, hbounded, h⟩ := Noted.result_bind.mp h
  obtain ⟨_, _, h⟩ := Noted.result_bind.mp h
  cases h
  have hbare := bare_setFlags (Search.sound_ofDiagram hsearch) hwired
  have hview (w : Wire α) p l u : (w.tighten p l u).rawCost = w.rawCost := rfl
  obtain ⟨hdiagram, hblocks, hkept⟩ := agree_collectBounds hview hbounded
  have hcosts : bounded.wires.Agree (fun w : Wire α => (w.lower, w.upper)) bounded.collectCosts.wires :=
    agree_collectCosts (fun _ _ _ => rfl) bounded
  have hrestraints : bounded.collectCosts.restraints = wired.setFlags.restraints :=
    restraints_congr hdiagram hblocks
  have hwires := wires_collectBounds hbounded
  -- units leave the limits alone
  have hlimits {i : Nat} {w : Wire α} (hw : bounded.collectCosts.wires.wires[i]? = some w) :
      ∃ v, (restrain wired.setFlags.wires wired.setFlags.restraints).wires[i]? = some v ∧
        w.lower = v.lower ∧ w.upper = v.upper := by
    obtain ⟨v, hv, hview⟩ := hcosts.exists_getElem? hw
    exact ⟨v, hwires ▸ hv, (congrArg (·.1) hview).symm, (congrArg (·.2) hview).symm⟩
  refine ⟨fun i w hw p x => ?_, fun hopen w hw => ?_, fun i w hw p => ?_⟩
  · obtain ⟨v, hv, hlower, hupper⟩ := hlimits hw
    rw [hrestraints, ← hbare.admits_restrain hv, Wire.Admits, hlower, hupper, Wire.Admits]
  · obtain ⟨i, hi⟩ := List.mem_iff_getElem?.mp hw
    obtain ⟨v, hv, hlower, hupper⟩ := hlimits hi
    rw [hrestraints] at hopen
    intro p
    rw [hlower, hupper]
    exact hbare.open_restrain hopen hv p
  · refine rawCost_collectCosts (n := bounded) (fun v hv p => ?_) hw
    obtain ⟨j, hj⟩ := List.mem_iff_getElem?.mp hv
    obtain ⟨u, hu, hview⟩ := hkept.exists_getElem? hj
    rw [← hview]
    exact (hbare u (List.mem_of_getElem? hu) p).2.2

structure NetsBurdened (n : Network α) : Prop where
  admits : ∀ net w, (n.wires.group net).head? = some w → ∀ p x, w.Admits p x ↔
    ∀ r ∈ n.restraints, n.wires.netOf r.wire = net → r.phases.hasMajor p = true → r.Admits x
  isOpen : (∀ r ∈ n.restraints, r.Open) → ∀ net w, (n.wires.group net).head? = some w → w.Open
  cost_eq : ∀ net w, (n.wires.group net).head? = some w → ∀ p, w.cost.get p =
    ((n.charges.countP fun c => n.wires.netOf c.wire = net && c.phases.hasMajor p : Nat) : α)

theorem map_rawCost_group {t : WireTable α} {labels : List Nat} (h : labels.length = t.size)
    {units : Nat → Nat} (hunits : ∀ (j : Nat) w, t.wires[j]? = some w → w.rawCost.get p = units j)
    (net : Nat) : ((t.renumber labels).group net).map (fun w => w.rawCost.get p) =
      ((List.range t.size).filter fun j => (labels[j]?).getD 0 = net).map fun j => (units j : α) := by
  have hpairs : (t.renumber labels).wires.map (fun w => (w.net, w.rawCost.get p)) =
      (List.range t.size).map fun j => ((labels[j]?).getD 0, (units j : α)) := by
    apply List.ext_getElem?
    intro j
    rw [List.getElem?_map, List.getElem?_map, WireTable.getElem?_renumber h, Option.map_map]
    by_cases hj : j < t.size
    · have hw := List.getElem?_eq_getElem hj
      rw [List.getElem?_range hj, hw, Option.map_some, Option.map_some, ← hunits j _ hw]
      rfl
    · have hw : t.wires[j]? = none := List.getElem?_eq_none (Nat.le_of_not_lt hj)
      have hrange : (List.range t.size)[j]? = none := List.getElem?_eq_none (by simpa using hj)
      rw [hw, hrange]
      rfl
  have hgroup := congrArg (fun l => (l.filter fun e => decide (e.1 = net)).map Prod.snd) hpairs
  simpa only [List.filter_map, List.map_map, Function.comp_def, WireTable.group] using hgroup

/-- The units on the wires of a net are those on the net. -/
theorem cost_share {t : WireTable α} {labels : List Nat} (h : labels.length = t.size)
    {cs : List Charge} (hcs : ∀ c ∈ cs, c.wire < t.size)
    (hunits : ∀ (j : Nat) w, t.wires[j]? = some w → w.rawCost.get p =
      ((cs.countP fun c => c.wire = j && c.phases.hasMajor p : Nat) : α)) (net : Nat) (w : Wire α) :
    (WireTable.share ((t.renumber labels).group net) w).cost.get p =
      ((cs.countP fun c => (labels[c.wire]?).getD 0 = net && c.phases.hasMajor p : Nat) : α) := by
  have hcost : (WireTable.share ((t.renumber labels).group net) w).cost.get p =
      Scalar.sum (((t.renumber labels).group net).map fun v => v.rawCost.get p) := by cases p <;> rfl
  have hnodup : ((List.range t.size).filter fun j => (labels[j]?).getD 0 = net).Nodup :=
    List.nodup_range.filter _
  have hcast (js : List Nat) (f : Nat → Nat) :
      (js.map fun j => (f j : α)).sum = ((js.map f).sum : Nat) := by
    rw [Nat.cast_list_sum, List.map_map]
    rfl
  rw [hcost, Scalar.sum_eq, map_rawCost_group h hunits, hcast,
    countP_places Charge.wire (fun c => c.phases.hasMajor p) cs hnodup]
  congr 1
  refine List.countP_congr fun c hc => ?_
  simp [hcs c hc]

/-- Merging wires into nets keeps all that is put on them. -/
theorem netsBurdened_mergeWires {d : Diagram} {hold : Hold} {n m : Network α} {count : Nat}
    (hn : (traceMeasured d hold).result = .ok n) (hm : (Run.mergeWires n).result = .ok (count, m)) :
    m.NetsBurdened := by
  obtain ⟨_, htraced⟩ := traced_traceMeasured hn
  have hwires := wiresBurdened_traceMeasured hn
  have hr {r : Restraint α} (hr : r ∈ n.restraints) : r.wire < n.wires.size := by
    obtain ⟨k, b, hb, _, hr⟩ := mem_restraints.mp hr
    exact htraced.inputs k b hb _ (wire_of_mem_restraintsOf hr).1
  have hc {c : Charge} (hc : c ∈ n.charges) : c.wire < n.wires.size := by
    obtain ⟨k, b, hb, _, i, hi, rfl⟩ := mem_charges.mp hc
    exact htraced.inputs k b hb i hi
  obtain ⟨⟨_, wires⟩, hw, hm⟩ := Noted.result_bind.mp hm
  cases hm
  obtain ⟨labels, hlen, _, rfl⟩ := WireTable.renumbered_of_canonicalize hw
  have hnet {i : Nat} (hi : i < n.wires.size) := WireTable.netOf_merge_renumber hlen hi
  refine ⟨fun net w hw p x => ?_, fun hopen net w hw => ?_, fun net w hw p => ?_⟩
  · obtain ⟨v, rfl⟩ := exists_share_of_head? hw
    rw [admits_share]
    constructor
    · intro h r hrm he hp
      have hlt := hr hrm
      have hget := List.getElem?_eq_getElem hlt
      have hgroup := (WireTable.mem_group_renumber hlen).mpr
        ⟨r.wire, _, hget, (hnet hlt).symm.trans he, rfl⟩
      have hwire := h _ hgroup
      exact (hwires.admits r.wire _ hget p x).mp hwire r hrm rfl hp
    · intro h u hu
      obtain ⟨j, u, hget, he, rfl⟩ := (WireTable.mem_group_renumber hlen).mp hu
      refine (hwires.admits j u hget p x).mpr fun r hrm hj hp => h r hrm ?_ hp
      subst hj
      exact (hnet (hr hrm)).trans he
  · obtain ⟨v, rfl⟩ := exists_share_of_head? hw
    apply open_share
    intro u hu
    obtain ⟨j, u, hget, _, rfl⟩ := (WireTable.mem_group_renumber hlen).mp hu
    exact hwires.isOpen hopen u (List.mem_of_getElem? hget)
  · obtain ⟨v, rfl⟩ := exists_share_of_head? hw
    rw [cost_share hlen (fun c => hc) (fun j u hu => hwires.rawCost_eq j u hu p)]
    congr 1
    refine List.countP_congr fun c hcm => ?_
    rw [← hnet (hc hcm)]

end Exact

end Network

end Transcription
