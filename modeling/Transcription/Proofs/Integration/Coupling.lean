import Mathlib
import Transcription.Integration.Coupling
import Transcription.Proofs.Network.Wiring
import Transcription.Proofs.Poly.Linear

namespace Transcription

namespace Tableau

variable {α : Type}

structure Sized (t : Tableau α) : Prop where
  stages_pos : 1 ≤ t.stages
  coupling : t.coupling.length = t.stages
  times : t.times.length = t.stages

variable [Scalar α] {t : Tableau α}

theorem sized_ofName {name : String} (h : ofName? name = some t) : t.Sized := by
  unfold ofName? at h
  split at h
  case h_4 => cases h
  all_goals
    cases h
    exact ⟨Nat.le_add_left 1 _, rfl, rfl⟩

theorem sized_ofValues {coupling weights times : Value} (h : ofValues coupling weights times = .ok t) :
    t.Sized := by
  unfold ofValues at h
  obtain ⟨a, _, h⟩ := except_bind_eq_ok.mp h
  obtain ⟨b, _, h⟩ := except_bind_eq_ok.mp h
  obtain ⟨c, _, h⟩ := except_bind_eq_ok.mp h
  simp only at h
  split at h
  case isTrue => cases h
  case isFalse hpos =>
    split at h
    case isTrue => cases h
    case isFalse =>
      split at h
      case isTrue => cases h
      case isFalse htimes =>
        cases h
        have hlength : c.data.length = b.data.length := by simpa [Tensor.size] using htimes
        refine ⟨?_, by simp [chunks, stages, Tensor.size], by simp [stages, hlength]⟩
        rw [stages, List.length_map]
        exact Nat.one_le_iff_ne_zero.mpr hpos

end Tableau

namespace Network

variable {α : Type}

section Gathering

def RowOn (columns : List (Option Nat)) (coefficients : List α) (r : Terms α) : Prop :=
  ∃ vs : List Nat, columns = vs.map some ∧ r = (vs.map Int.ofNat).zip coefficients

theorem mapM_id_eq_some {columns : List (Option Nat)} {vs : List Nat} :
    columns.mapM id = some vs ↔ columns = vs.map some := by
  rw [option_mapM_eq_some, ← List.forall₂_map_right_iff (R := fun c d => id c = d)]
  exact iff_of_eq (congrFun (congrFun List.forall₂_eq_eq_eq columns) (vs.map some))

/-- What is gathered succeeds, and its rows are those that `P` holds of. -/
def Gathers (x : Noted α (List (Terms α))) (P : Terms α → Prop) : Prop :=
  ∃ rs, x.result = .ok rs ∧ ∀ r, r ∈ rs ↔ P r

theorem gathers_couplingRow [Scalar α] (n : Network α) (b : TracedBlock α) (kind : Coupling)
    (columns : List (Option Nat)) (coefficients : List α) :
    Gathers (n.couplingRow b kind columns coefficients) (RowOn columns coefficients) := by
  unfold couplingRow
  split
  case h_1 vs hvs =>
    refine ⟨_, rfl, fun r => ?_⟩
    rw [List.mem_singleton]
    constructor
    · intro h
      exact ⟨vs, mapM_id_eq_some.mp hvs, h⟩
    · intro ⟨us, hus, hr⟩
      obtain rfl := Option.some.inj ((mapM_id_eq_some.mpr hus).symm.trans hvs)
      exact hr
  case h_2 hnone =>
    refine ⟨[], rfl, fun r => ?_⟩
    constructor
    · intro h
      cases h
    · intro ⟨vs, hvs, _⟩
      rw [mapM_id_eq_some.mpr hvs] at hnone
      cases hnone

theorem gathers_rowsOf {β : Type} (xs : List β) {rows : β → Noted α (List (Terms α))}
    {P : β → Terms α → Prop} (h : ∀ x, Gathers (rows x) (P x)) :
    Gathers (rowsOf xs rows) fun r => ∃ x ∈ xs, P x r := by
  choose f hf hmem using h
  have hall : (xs.mapM rows).result = .ok (xs.map f) := Noted.result_mapM_map fun x _ => hf x
  refine ⟨(xs.map f).flatten, Noted.result_bind.mpr ⟨_, hall, rfl⟩, fun r => ?_⟩
  rw [← List.flatMap_def, List.mem_flatMap]
  exact exists_congr fun x => and_congr_right fun _ => hmem x r

end Gathering

section Holds

def addNet (found : List (Held α)) (h : Held α) : List (Held α) :=
  if found.any fun f => f.net = h.net then found else found ++ [h]

theorem mem_addNet {found : List (Held α)} {h f : Held α} (hf : f ∈ addNet found h) :
    f ∈ found ∨ f = h := by
  unfold addNet at hf
  split at hf
  · exact .inl hf
  · exact (List.mem_append.mp hf).imp_right List.mem_singleton.mp

theorem exists_addNet {found : List (Held α)} {h : Held α} {net : Nat} :
    (∃ f ∈ addNet found h, f.net = net) ↔ (∃ f ∈ found, f.net = net) ∨ h.net = net := by
  unfold addNet
  split
  case isTrue hany =>
    obtain ⟨f, hf, hnet⟩ := List.any_eq_true.mp hany
    refine ⟨.inl, fun h => ?_⟩
    cases h with
    | inl h => exact h
    | inr h => exact ⟨f, hf, (of_decide_eq_true hnet).trans h⟩
  case isFalse => simp [or_and_right, exists_or]

theorem mem_foldl_addNet {hs found : List (Held α)} {f : Held α} (hf : f ∈ hs.foldl addNet found) :
    f ∈ found ∨ f ∈ hs := by
  induction hs generalizing found with
  | nil => exact .inl hf
  | cons h hs ih =>
    cases ih hf with
    | inl hmem =>
      refine (mem_addNet hmem).imp_right fun heq => ?_
      rw [heq]
      exact List.mem_cons_self
    | inr hmem => exact .inr (List.mem_cons_of_mem h hmem)

theorem exists_foldl_addNet {hs found : List (Held α)} {net : Nat} :
    (∃ f ∈ hs.foldl addNet found, f.net = net) ↔
      (∃ f ∈ found, f.net = net) ∨ ∃ f ∈ hs, f.net = net := by
  induction hs generalizing found with
  | nil => simp
  | cons h hs ih => rw [List.foldl_cons, ih, exists_addNet, List.exists_mem_cons_iff, or_assoc]

variable [Scalar α] {n : Network α} {g : Grid α} {k o : Nat} {b : TracedBlock α}

structure Holds (n : Network α) (g : Grid α) (k : Nat) (b : TracedBlock α) (o : Nat) : Prop where
  block : n.block? k = some b
  kind : b.kind.isBoundary = true ∨ b.kind = .delay
  output : o ∈ b.outputs
  minor : n.wires.netOf o ∈ g.minorNets

def heldOutput (n : Network α) (b : TracedBlock α) (o : Nat) : Held α :=
  ⟨n.wires.netOf o, b.hold.getD .zeroOrder, b⟩

def heldOutputs (n : Network α) (g : Grid α) : List (Held α) :=
  ((n.blocks.blocks.filter fun b => b.kind.isBoundary || b.kind = .delay).flatMap fun b =>
    b.outputs.map (n.heldOutput b)).filter fun h => g.minorNets.contains h.net

theorem heldNets_eq (n : Network α) (g : Grid α) :
    n.heldNets g = (n.heldOutputs g).foldl addNet [] := rfl

theorem mem_heldOutputs {h : Held α} :
    h ∈ n.heldOutputs g ↔ ∃ k b o, n.Holds g k b o ∧ h = n.heldOutput b o := by
  simp only [heldOutputs, List.mem_filter, List.mem_flatMap, List.mem_map, Bool.or_eq_true,
    decide_eq_true_eq, List.contains_iff_mem]
  constructor
  · intro ⟨⟨b, ⟨hb, hk⟩, o, ho, heq⟩, hm⟩
    obtain ⟨k, hget⟩ := List.mem_iff_getElem?.mp hb
    subst heq
    exact ⟨k, b, o, ⟨hget, hk, ho, hm⟩, rfl⟩
  · intro ⟨k, b, o, ⟨hb, hk, ho, hm⟩, heq⟩
    subst heq
    exact ⟨⟨b, ⟨List.mem_of_getElem? hb, hk⟩, o, ho, rfl⟩, hm⟩

theorem Holds.isReroute (h : n.Holds g k b o) : b.kind.isReroute = false := by
  cases h.kind with
  | inl hk => cases hb : b.kind <;> first | rfl | (rw [hb] at hk; cases hk)
  | inr hk =>
    rw [hk]
    rfl

theorem hold_eq_firstOrder (hw : n.Wired) (hh : n.Holds g k b o)
    (hb : b.hold.getD .zeroOrder = .firstOrder) :
    b.kind.isBoundary = true ∧ b.hold = some .firstOrder := by
  cases hhold : b.hold with
  | none =>
    rw [hhold] at hb
    cases hb
  | some hold =>
    rw [hhold] at hb
    cases hh.kind with
    | inl hk => exact ⟨hk, congrArg some hb⟩
    | inr hk =>
      rw [hw.hold k b hh.block hk] at hhold
      cases hhold
      cases hb

theorem hold_eq_zeroOrder (hw : n.Wired) (hb : n.block? k = some b)
    (hk : b.kind = .delay ∨ b.kind.isBoundary = true ∧ b.hold ≠ some .firstOrder) :
    b.hold.getD .zeroOrder = .zeroOrder := by
  cases hk with
  | inl hk =>
    rw [hw.hold k b hb hk]
    rfl
  | inr hk =>
    cases hhold : b.hold with
    | none => rfl
    | some hold =>
      cases hold with
      | zeroOrder => rfl
      | firstOrder => exact absurd hhold hk.2

theorem holds_of_mem_heldNets {h : Held α} (hmem : h ∈ n.heldNets g) :
    ∃ k b o, n.Holds g k b o ∧ h = n.heldOutput b o := by
  rw [heldNets_eq] at hmem
  exact mem_heldOutputs.mp ((mem_foldl_addNet hmem).resolve_left List.not_mem_nil)

/-- No net is left out, since a net leaves one block only. -/
theorem mem_heldNets (hw : n.Wired) (hs : n.SingleSourced) {h : Held α} :
    h ∈ n.heldNets g ↔ ∃ k b o, n.Holds g k b o ∧ h = n.heldOutput b o := by
  constructor
  · exact holds_of_mem_heldNets
  · intro ⟨k, b, o, hh, heq⟩
    rw [heldNets_eq]
    obtain ⟨f, hf, hnet⟩ := exists_foldl_addNet.mpr
      (.inr ⟨h, mem_heldOutputs.mpr ⟨k, b, o, hh, heq⟩, rfl⟩)
    obtain ⟨j, c, l, hc, hfc⟩ :=
      mem_heldOutputs.mp ((mem_foldl_addNet hf).resolve_left List.not_mem_nil)
    have hsame : n.wires.netOf l = n.wires.netOf o := by
      rw [hfc, heq] at hnet
      exact hnet
    obtain ⟨hlo, hjk⟩ := hw.output_unique hs hc.block hh.block hc.isReroute hh.isReroute hc.output
      hh.output hsame
    subst hlo hjk
    obtain rfl := Option.some.inj (hc.block.symm.trans hh.block)
    rw [heq, ← hfc]
    exact hf

end Holds

section Families

variable [Scalar α]

structure Integrates (n : Network α) (k : Nat) (b : TracedBlock α) (o i : Nat) : Prop where
  block : n.block? k = some b
  kind : b.kind = .integrator
  pair : (o, i) ∈ b.outputs.zip b.inputs

def holdTerms (g : Grid α) (t : Tableau α) (h : Held α) (k s : Nat) : List (Option Nat) × List α :=
  match h.hold with
  | .firstOrder => ([g.index? h.net k, g.index? h.net (k + 1), g.minorIndex? h.net k s],
      [1 - t.times.getD (s - 1) 0, t.times.getD (s - 1) 0, -1])
  | .zeroOrder => ([g.index? h.net k, g.minorIndex? h.net k s], [1, -1])

/-- The rows that couple the stages with the steps. -/
inductive Couples (n : Network α) (g : Grid α) (t : Tableau α) (dt : α) : Terms α → Prop
  | increment {k o i j : Nat} {b : TracedBlock α} {r : Terms α} (hi : n.Integrates k b o i)
      (hj : 1 ≤ j ∧ j ≤ g.intervals)
      (hr : RowOn (g.index? (n.wires.netOf o) j :: g.index? (n.wires.netOf o) (j + 1) ::
        slopes g (n.wires.netOf i) j) (1 :: -1 :: t.weights.map (dt * ·)) r) : Couples n g t dt r
  | stage {k o i j s : Nat} {b : TracedBlock α} {r : Terms α} (hi : n.Integrates k b o i)
      (hm : n.wires.netOf o ∈ g.minorNets) (hj : 1 ≤ j ∧ j ≤ g.intervals) (hs : 1 ≤ s ∧ s ≤ g.stages)
      (hr : RowOn (g.index? (n.wires.netOf o) j :: g.minorIndex? (n.wires.netOf o) j s ::
        slopes g (n.wires.netOf i) j) (1 :: -1 :: (t.coupling.getD (s - 1) []).map (dt * ·)) r) :
      Couples n g t dt r
  | held {k o j s : Nat} {b : TracedBlock α} {r : Terms α} (hh : n.Holds g k b o)
      (hj : 1 ≤ j ∧ j ≤ g.intervals) (hs : 1 ≤ s ∧ s ≤ g.stages)
      (hr : RowOn (holdTerms g t (n.heldOutput b o) j s).1 (holdTerms g t (n.heldOutput b o) j s).2 r) :
      Couples n g t dt r

variable {n : Network α} {g : Grid α} {t : Tableau α} {dt : α}

theorem mem_stateNets {b : TracedBlock α} {e : Nat × Nat} : e ∈ n.stateNets b ↔
    ∃ o i, (o, i) ∈ b.outputs.zip b.inputs ∧ e = (n.wires.netOf o, n.wires.netOf i) := by
  simp only [stateNets, List.mem_map, Prod.exists, eq_comm]

def IncrementRow (n : Network α) (g : Grid α) (t : Tableau α) (dt : α) (b : TracedBlock α)
    (r : Terms α) : Prop :=
  ∃ e ∈ n.stateNets b, ∃ k ∈ stepsFrom 1 g.intervals,
    RowOn (g.index? e.1 k :: g.index? e.1 (k + 1) :: slopes g e.2 k) (1 :: -1 :: t.weights.map (dt * ·)) r

def StageRow (n : Network α) (g : Grid α) (t : Tableau α) (dt : α) (b : TracedBlock α)
    (r : Terms α) : Prop :=
  ∃ e ∈ (n.stateNets b).filter fun e => g.minorNets.contains e.1, ∃ k ∈ stepsFrom 1 g.intervals,
    ∃ s ∈ stepsFrom 1 g.stages, RowOn (g.index? e.1 k :: g.minorIndex? e.1 k s :: slopes g e.2 k)
      (1 :: -1 :: (t.coupling.getD (s - 1) []).map (dt * ·)) r

def HoldRow (n : Network α) (g : Grid α) (t : Tableau α) (hold : Hold) (r : Terms α) : Prop :=
  ∃ h ∈ (n.heldNets g).filter fun h => h.hold = hold, ∃ k ∈ stepsFrom 1 g.intervals,
    ∃ s ∈ stepsFrom 1 g.stages, RowOn (holdTerms g t h k s).1 (holdTerms g t h k s).2 r

theorem gathers_incrementRows (n : Network α) (g : Grid α) (t : Tableau α) (dt : α)
    (b : TracedBlock α) : Gathers (n.incrementRows g t dt b) (n.IncrementRow g t dt b) :=
  gathers_rowsOf _ fun _ => gathers_rowsOf _ fun _ => gathers_couplingRow n b _ _ _

theorem gathers_stageRows (n : Network α) (g : Grid α) (t : Tableau α) (dt : α)
    (b : TracedBlock α) : Gathers (n.stageRows g t dt b) (n.StageRow g t dt b) :=
  gathers_rowsOf _ fun _ => gathers_rowsOf _ fun _ => gathers_rowsOf _ fun _ =>
    gathers_couplingRow n b _ _ _

theorem exists_holdRow_eq (n : Network α) (g : Grid α) (t : Tableau α) (h : Held α) (k s : Nat) :
    ∃ kind, n.holdRow g t h k s =
      n.couplingRow h.block kind (holdTerms g t h k s).1 (holdTerms g t h k s).2 := by
  obtain ⟨net, hold, b⟩ := h
  cases hold
  · exact ⟨.zeroOrder, rfl⟩
  · exact ⟨.firstOrder, rfl⟩

theorem gathers_holdRow (n : Network α) (g : Grid α) (t : Tableau α) (h : Held α) (k s : Nat) :
    Gathers (n.holdRow g t h k s) (RowOn (holdTerms g t h k s).1 (holdTerms g t h k s).2) := by
  obtain ⟨kind, hrow⟩ := exists_holdRow_eq n g t h k s
  rw [hrow]
  exact gathers_couplingRow n h.block kind _ _

theorem gathers_holdRows (n : Network α) (g : Grid α) (t : Tableau α) (hold : Hold) :
    Gathers (n.holdRows g t hold) (n.HoldRow g t hold) :=
  gathers_rowsOf _ fun h => gathers_rowsOf _ fun k => gathers_rowsOf _ fun s =>
    gathers_holdRow n g t h k s

theorem IncrementRow.couples {b : TracedBlock α} (hb : b ∈ (n.blocks.ofKinds [.integrator]).map (·.2))
    {r : Terms α} (h : n.IncrementRow g t dt b r) : n.Couples g t dt r := by
  obtain ⟨e, he, j, hj, hr⟩ := h
  obtain ⟨k, hk, hkind⟩ := mem_ofKind.mp hb
  obtain ⟨o, i, hz, rfl⟩ := mem_stateNets.mp he
  exact .increment ⟨hk, hkind, hz⟩ (mem_stepsFrom.mp hj) hr

theorem StageRow.couples {b : TracedBlock α} (hb : b ∈ (n.blocks.ofKinds [.integrator]).map (·.2))
    {r : Terms α} (h : n.StageRow g t dt b r) : n.Couples g t dt r := by
  obtain ⟨e, he, j, hj, s, hs, hr⟩ := h
  obtain ⟨k, hk, hkind⟩ := mem_ofKind.mp hb
  obtain ⟨hmem, hm⟩ := List.mem_filter.mp he
  obtain ⟨o, i, hz, rfl⟩ := mem_stateNets.mp hmem
  exact .stage ⟨hk, hkind, hz⟩ (List.contains_iff_mem.mp hm) (mem_stepsFrom.mp hj)
    (mem_stepsFrom.mp hs) hr

theorem HoldRow.couples {hold : Hold} {r : Terms α} (h : n.HoldRow g t hold r) :
    n.Couples g t dt r := by
  obtain ⟨h, hh, j, hj, s, hs, hr⟩ := h
  obtain ⟨k, b, o, hold, rfl⟩ := holds_of_mem_heldNets (List.mem_of_mem_filter hh)
  exact .held hold (mem_stepsFrom.mp hj) (mem_stepsFrom.mp hs) hr

/-- Gathering the rows succeeds. All of them couple the stages with the steps, and none is left out of
those of integrators and of the nets that are held. -/
theorem exists_gathered (n : Network α) (g : Grid α) (t : Tableau α) (dt : α) :
    ∃ rows : List (Terms α),
      (n.couplingRows g t dt).result = .ok (rows.foldl LinearRows.add { width := g.size }) ∧
      (∀ r ∈ rows, n.Couples g t dt r) ∧
      (∀ b ∈ (n.blocks.ofKinds [.integrator]).map (·.2), ∀ r,
        n.IncrementRow g t dt b r ∨ n.StageRow g t dt b r → r ∈ rows) ∧
      ∀ hold r, n.HoldRow g t hold r → r ∈ rows := by
  obtain ⟨is, his, hmi⟩ := gathers_rowsOf ((n.blocks.ofKinds [.integrator]).map (·.2))
    (gathers_incrementRows n g t dt)
  obtain ⟨ss, hss, hms⟩ := gathers_rowsOf ((n.blocks.ofKinds [.integrator]).map (·.2))
    (gathers_stageRows n g t dt)
  obtain ⟨fs, hfs, hmf⟩ := gathers_holdRows n g t .firstOrder
  obtain ⟨zs, hzs, hmz⟩ := gathers_holdRows n g t .zeroOrder
  have hmem (r : Terms α) : r ∈ is ++ ss ++ fs ++ zs ↔ ((r ∈ is ∨ r ∈ ss) ∨ r ∈ fs) ∨ r ∈ zs := by
    simp only [List.mem_append]
  refine ⟨is ++ ss ++ fs ++ zs, ?_, fun r hr => ?_, fun b hb r hr => ?_, fun hold r hr => ?_⟩
  · apply Noted.result_bind.mpr ⟨is, his, ?_⟩
    apply Noted.result_bind.mpr ⟨ss, hss, ?_⟩
    apply Noted.result_bind.mpr ⟨fs, hfs, ?_⟩
    exact Noted.result_bind.mpr ⟨zs, hzs, rfl⟩
  · obtain ((hr | hr) | hr) | hr := (hmem r).mp hr
    · obtain ⟨b, hb, hr⟩ := (hmi r).mp hr
      exact hr.couples hb
    · obtain ⟨b, hb, hr⟩ := (hms r).mp hr
      exact hr.couples hb
    · exact ((hmf r).mp hr).couples
    · exact ((hmz r).mp hr).couples
  · rw [hmem]
    cases hr with
    | inl hr => exact .inl (.inl (.inl ((hmi r).mpr ⟨b, hb, hr⟩)))
    | inr hr => exact .inl (.inl (.inr ((hms r).mpr ⟨b, hb, hr⟩)))
  · rw [hmem]
    cases hold with
    | firstOrder => exact .inl (.inr ((hmf r).mpr hr))
    | zeroOrder => exact .inr ((hmz r).mpr hr)

/-- Where a net leaves one block only, the rows are exactly those that couple the stages with the
steps. -/
theorem exists_couplingRows (hw : n.Wired) (hs : n.SingleSourced) (g : Grid α) (t : Tableau α) (dt : α) :
    ∃ rows : List (Terms α), (n.couplingRows g t dt).result = .ok (rows.foldl LinearRows.add { width := g.size }) ∧
      ∀ r, r ∈ rows ↔ n.Couples g t dt r := by
  obtain ⟨rows, hrows, hcouples, hintegrator, hheld⟩ := exists_gathered n g t dt
  refine ⟨rows, hrows, fun r => ⟨hcouples r, fun h => ?_⟩⟩
  cases h with
  | increment hi hj hr =>
    apply hintegrator _ (mem_ofKind.mpr ⟨_, hi.block, hi.kind⟩) r (.inl ?_)
    exact ⟨_, mem_stateNets.mpr ⟨_, _, hi.pair, rfl⟩, _, mem_stepsFrom.mpr hj, hr⟩
  | stage hi hm hj hs' hr =>
    apply hintegrator _ (mem_ofKind.mpr ⟨_, hi.block, hi.kind⟩) r (.inr ?_)
    exact ⟨_, List.mem_filter.mpr ⟨mem_stateNets.mpr ⟨_, _, hi.pair, rfl⟩,
      List.contains_iff_mem.mpr hm⟩, _, mem_stepsFrom.mpr hj, _, mem_stepsFrom.mpr hs', hr⟩
  | @held k o j s b r hh hj hs' hr =>
    have hmem : n.heldOutput b o ∈ n.heldNets g := (mem_heldNets hw hs).mpr ⟨k, b, o, hh, rfl⟩
    apply hheld (n.heldOutput b o).hold r
    exact ⟨_, List.mem_filter.mpr ⟨hmem, decide_eq_true rfl⟩, j, mem_stepsFrom.mpr hj, s,
      mem_stepsFrom.mpr hs', hr⟩

end Families

section Values

theorem RowOn.exists_first {c : Option Nat} {columns : List (Option Nat)} {coefficients : List α}
    {r : Terms α} (h : RowOn (c :: columns) coefficients r) : ∃ v, c = some v := by
  obtain ⟨vs, hvs, _⟩ := h
  cases vs with
  | nil => cases hvs
  | cons v vs => exact ⟨v, (List.cons.inj hvs).1⟩

theorem RowOn.within {columns : List (Option Nat)} {coefficients : List α} {r : Terms α} {width : Nat}
    (h : RowOn columns coefficients r) (hc : ∀ c ∈ columns, ∀ i, c = some i → i < width) :
    ∀ t ∈ r, 0 ≤ t.1 ∧ t.1 < width := by
  obtain ⟨vs, hvs, rfl⟩ := h
  intro t ht
  obtain ⟨i, hi, heq⟩ := List.mem_map.mp (List.of_mem_zip ht).1
  have hlt := hc (some i) (hvs ▸ List.mem_map_of_mem hi) i rfl
  rw [← heq]
  exact ⟨Int.natCast_nonneg i, Int.ofNat_lt.mpr hlt⟩

variable [LinearOrder α] [ExactScalar α]

theorem rowAt_zip (x : Nat → α) (vs : List Nat) (coefficients : List α) :
    LinearRows.rowAt x ((vs.map Int.ofNat).zip coefficients) =
      (List.zipWith (· * ·) coefficients (vs.map x)).sum := by
  induction vs generalizing coefficients with
  | nil => simp [LinearRows.rowAt]
  | cons v vs ih =>
    cases coefficients with
    | nil => rfl
    | cons a coefficients =>
      have := ih coefficients
      simp only [LinearRows.rowAt] at this
      simp [LinearRows.rowAt, this]

omit [LinearOrder α] [ExactScalar α] in
/-- A point that has the values of some variables has the variables. -/
theorem exists_columns [Scalar α] {z : List α} {columns : List (Option Nat)} {ys : List α}
    (h : columns.mapM (fun c => c.bind fun i => z[i]?) = some ys) :
    ∃ vs : List Nat, columns = vs.map some ∧ ys = vs.map (System.point z) := by
  induction option_mapM_eq_some.mp h with
  | nil => exact ⟨[], rfl, rfl⟩
  | cons hy hys ih =>
    obtain ⟨vs, hvs, hys'⟩ := ih (option_mapM_eq_some.mpr hys)
    obtain ⟨v, hv, hz⟩ := Option.bind_eq_some_iff.mp hy
    refine ⟨v :: vs, by rw [hv, hvs, List.map_cons], ?_⟩
    rw [hys', List.map_cons]
    simp [System.point, hz]

/-- The value of a row at a point that has all its variables: each value times its coefficient. -/
theorem RowOn.rowAt_eq {z : List α} {columns : List (Option Nat)} {coefficients ys : List α}
    {r : Terms α} (hr : RowOn columns coefficients r)
    (h : columns.mapM (fun c => c.bind fun i => z[i]?) = some ys) :
    LinearRows.rowAt (System.point z) r = (List.zipWith (· * ·) coefficients ys).sum := by
  obtain ⟨vs, hvs, hys⟩ := exists_columns h
  obtain ⟨us, hus, rfl⟩ := hr
  obtain rfl := List.map_injective_iff.mpr (Option.some_injective _) (hus.symm.trans hvs)
  rw [hys, rowAt_zip]

/-- At a point that has all variables of a row, the row is zero if its values, each times its
coefficient, add up to zero. -/
theorem forall_rowOn_iff {z : List α} {columns : List (Option Nat)} {coefficients ys : List α}
    (h : columns.mapM (fun c => c.bind fun i => z[i]?) = some ys) :
    (∀ r, RowOn columns coefficients r → LinearRows.rowAt (System.point z) r = 0) ↔
      (List.zipWith (· * ·) coefficients ys).sum = 0 := by
  constructor
  · intro hz
    obtain ⟨vs, hvs, _⟩ := exists_columns h
    have hr : RowOn columns coefficients _ := ⟨vs, hvs, rfl⟩
    rw [← hr.rowAt_eq h]
    exact hz _ hr
  · intro hz r hr
    rw [hr.rowAt_eq h, hz]

end Values

end Network

end Transcription
