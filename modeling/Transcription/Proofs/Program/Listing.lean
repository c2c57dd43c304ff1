import Transcription.Proofs.Network.Producers
import Transcription.Proofs.Program.Collocation

namespace Transcription

/-- What a row of the equalities determines: a net at a step, a net at a stage of an interval, or the
step of a net across an interval. -/
inductive Determined where
  | atStep (step net : Nat)
  | atStage (interval stage net : Nat)
  | across (interval net : Nat)
  deriving DecidableEq

def LiveSomewhere (live : List PhaseSet) (net : Nat) : Prop :=
  ∃ p, ((live[net]?).getD {}).has p = true

instance (live : List PhaseSet) (net : Nat) : Decidable (LiveSomewhere live net) :=
  decidable_of_iff (((live[net]?).getD {}).meets ⟨true, true, true, true⟩ = true)
    ((PhaseSet.meets_iff _ _).trans (exists_congr fun p => and_iff_left (by
      rcases p with (_ | _ | _) | _ <;> rfl)))

namespace Determined

variable {intervals stages : Nat} {nets : List Nat}

def netStages (intervals stages net : Nat) : List Determined :=
  (stepsFrom 1 intervals).flatMap fun k => (stepsFrom 1 stages).map fun s => .atStage k s net

def atStages (intervals stages : Nat) (nets : List Nat) : List Determined :=
  nets.flatMap (netStages intervals stages)

def acrossAll (intervals : Nat) (nets : List Nat) : List Determined :=
  nets.flatMap fun net => (stepsFrom 1 intervals).map fun k => .across k net

theorem mem_atStages {v : Determined} : v ∈ atStages intervals stages nets ↔
    ∃ k s net, v = .atStage k s net ∧ (1 ≤ k ∧ k ≤ intervals) ∧ (1 ≤ s ∧ s ≤ stages) ∧ net ∈ nets := by
  simp only [atStages, netStages, List.mem_flatMap, List.mem_map, mem_stepsFrom]
  constructor
  · rintro ⟨net, hnet, k, hk, s, hs, rfl⟩
    exact ⟨k, s, net, rfl, hk, hs, hnet⟩
  · rintro ⟨k, s, net, rfl, hk, hs, hnet⟩
    exact ⟨net, hnet, k, hk, s, hs, rfl⟩

theorem mem_acrossAll {v : Determined} : v ∈ acrossAll intervals nets ↔
    ∃ k net, v = .across k net ∧ (1 ≤ k ∧ k ≤ intervals) ∧ net ∈ nets := by
  simp only [acrossAll, List.mem_flatMap, List.mem_map, mem_stepsFrom]
  constructor
  · rintro ⟨net, hnet, k, hk, rfl⟩
    exact ⟨k, net, rfl, hk, hnet⟩
  · rintro ⟨k, net, rfl, hk, hnet⟩
    exact ⟨net, hnet, k, hk, rfl⟩

theorem length_atStages (intervals stages : Nat) (nets : List Nat) :
    (atStages intervals stages nets).length = intervals * stages * nets.length := by
  simp [atStages, netStages, List.length_flatMap, length_stepsFrom, Nat.mul_comm]

theorem length_acrossAll (intervals : Nat) (nets : List Nat) :
    (acrossAll intervals nets).length = intervals * nets.length := by
  simp [acrossAll, List.length_flatMap, length_stepsFrom, Nat.mul_comm]

theorem nodup_stepsFrom (first last : Nat) : (stepsFrom first last).Nodup := List.nodup_range'

theorem nodup_atStages (h : nets.Nodup) : (atStages intervals stages nets).Nodup := by
  have heq : atStages intervals stages nets =
      (nets ×ˢ (stepsFrom 1 intervals ×ˢ stepsFrom 1 stages)).map fun e =>
        .atStage e.2.1 e.2.2 e.1 := by
    simp [atStages, SProd.sprod, List.product, List.map_flatMap, Function.comp_def]
    rfl
  rw [heq]
  refine (h.product ((nodup_stepsFrom 1 _).product (nodup_stepsFrom 1 _))).map ?_
  rintro ⟨c, k, s⟩ ⟨c', k', s'⟩ he
  cases he
  rfl

theorem nodup_acrossAll (h : nets.Nodup) : (acrossAll intervals nets).Nodup := by
  have heq : acrossAll intervals nets =
      (nets ×ˢ stepsFrom 1 intervals).map fun e => .across e.2 e.1 := by
    simp [acrossAll, SProd.sprod, List.product, List.map_flatMap, Function.comp_def]
  rw [heq]
  refine (h.product (nodup_stepsFrom 1 _)).map ?_
  rintro ⟨c, k⟩ ⟨c', k'⟩ he
  cases he
  rfl

theorem perm_atStages (intervals stages : Nat) {nets' : List Nat} (h : nets.Perm nets') :
    (atStages intervals stages nets).Perm (atStages intervals stages nets') := h.flatMap_right _

theorem atStages_append (nets nets' : List Nat) : atStages intervals stages (nets ++ nets') =
    atStages intervals stages nets ++ atStages intervals stages nets' := List.flatMap_append

end Determined

namespace Network

variable {α : Type}

section Gathering

variable [Scalar α] {R : Determined → Terms α → Prop}

def Lists (R : Determined → Terms α → Prop) (vs : List Determined) (x : Noted α (List (Terms α))) :
    Prop :=
  ∃ rs, x.result = .ok rs ∧ List.Forall₂ R vs rs

omit [Scalar α] in
theorem Lists.eq {vs us : List Determined} {x : Noted α (List (Terms α))} (h : Lists R vs x)
    (he : vs = us) : Lists R us x := he ▸ h

theorem flatMap_filter_ite {β γ : Type} (p : β → Bool) (r : β → List γ) (l : List β) :
    (l.filter p).flatMap r = l.flatMap fun e => if p e then r e else [] := by
  induction l with
  | nil => rfl
  | cons e l ih =>
    rw [List.filter_cons, List.flatMap_cons, ← ih]
    split
    · rw [List.flatMap_cons]
    · rw [List.nil_append]

theorem lists_couplingRow {n : Network α} {b : TracedBlock α} {kind : Coupling}
    {columns : List (Option Nat)} {coefficients : List α} {v : Determined}
    (hc : ∀ c ∈ columns, c.isSome = true) (hr : ∀ r, RowOn columns coefficients r → R v r) :
    Lists R [v] (n.couplingRow b kind columns coefficients) := by
  obtain ⟨vs, hvs⟩ := option_mapM_isSome (f := id) hc
  refine ⟨[(vs.map Int.ofNat).zip coefficients], by rw [couplingRow, hvs]; rfl, .cons ?_ .nil⟩
  exact hr _ ⟨vs, mapM_id_eq_some.mp hvs, rfl⟩

theorem lists_missing {n : Network α} {b : TracedBlock α} {kind : Coupling}
    {columns : List (Option Nat)} {coefficients : List α} :
    Lists R [] (n.couplingRow b kind (none :: columns) coefficients) :=
  ⟨[], rfl, .nil⟩

omit [Scalar α] in
theorem lists_rowsOf {β : Type} {xs : List β} {rows : β → Noted α (List (Terms α))}
    {vs : β → List Determined} (h : ∀ x ∈ xs, Lists R (vs x) (rows x)) :
    Lists R (xs.flatMap vs) (rowsOf xs rows) := by
  have hrows (x : β) : ∃ rs, x ∈ xs → (rows x).result = .ok rs ∧ List.Forall₂ R (vs x) rs := by
    by_cases hx : x ∈ xs
    · obtain ⟨rs, hrs⟩ := h x hx
      exact ⟨rs, fun _ => hrs⟩
    · exact ⟨[], fun hx' => absurd hx' hx⟩
  choose f hf using hrows
  refine ⟨xs.flatMap f, ?_, ?_⟩
  · exact Noted.result_bind.mpr ⟨_, Noted.result_mapM_map fun x hx => (hf x hx).1, by
      rw [List.flatMap_def]
      rfl⟩
  · clear h
    induction xs with
    | nil => exact .nil
    | cons x xs ih =>
      rw [List.flatMap_cons, List.flatMap_cons]
      exact List.rel_append (hf x List.mem_cons_self).2
        (ih fun y hy => hf y (List.mem_cons_of_mem x hy))

end Gathering

section Rows

variable [Scalar α]

inductive CouplingRow (n : Network α) (g : Grid α) (t : Tableau α) (dt : α) :
    Determined → Terms α → Prop
  | increment {k o i j : Nat} {b : TracedBlock α} {r : Terms α} (hi : n.Integrates k b o i)
      (hj : 1 ≤ j ∧ j ≤ g.intervals)
      (hr : RowOn (g.index? (n.wires.netOf o) j :: g.index? (n.wires.netOf o) (j + 1) ::
        slopes g (n.wires.netOf i) j) (1 :: -1 :: t.weights.map (dt * ·)) r) :
      CouplingRow n g t dt (.across j (n.wires.netOf o)) r
  | stage {k o i j s : Nat} {b : TracedBlock α} {r : Terms α} (hi : n.Integrates k b o i)
      (hm : n.wires.netOf o ∈ g.minorNets) (hj : 1 ≤ j ∧ j ≤ g.intervals) (hs : 1 ≤ s ∧ s ≤ g.stages)
      (hr : RowOn (g.index? (n.wires.netOf o) j :: g.minorIndex? (n.wires.netOf o) j s ::
        slopes g (n.wires.netOf i) j) (1 :: -1 :: (t.coupling.getD (s - 1) []).map (dt * ·)) r) :
      CouplingRow n g t dt (.atStage j s (n.wires.netOf o)) r
  | held {k o j s : Nat} {b : TracedBlock α} {r : Terms α} (hh : n.Holds g k b o)
      (hj : 1 ≤ j ∧ j ≤ g.intervals) (hs : 1 ≤ s ∧ s ≤ g.stages)
      (hr : RowOn (holdTerms g t (n.heldOutput b o) j s).1 (holdTerms g t (n.heldOutput b o) j s).2 r) :
      CouplingRow n g t dt (.atStage j s (n.wires.netOf o)) r

theorem CouplingRow.couples {n : Network α} {g : Grid α} {t : Tableau α} {dt : α} {v : Determined}
    {r : Terms α} (h : n.CouplingRow g t dt v r) : n.Couples g t dt r := by
  cases h with
  | increment hi hj hr => exact .increment hi hj hr
  | stage hi hm hj hs hr => exact .stage hi hm hj hs hr
  | held hh hj hs hr => exact .held hh hj hs hr

variable {n : Network α} {live : List PhaseSet} {steps : Nat} {g : Grid α} {t : Tableau α} {dt : α}

theorem OnStages.lt_of_interval {stages : Nat} (h : n.OnStages live steps stages g) {k : Nat}
    (hk : k ∈ stepsFrom 1 g.intervals) : 1 ≤ k ∧ k < steps := by
  have hk := mem_stepsFrom.mp hk
  rw [h.intervals_eq] at hk
  have := h.two_le
  omega

theorem OnStages.isSome_index (h : n.OnStages live steps t.stages g) {net k : Nat}
    (hl : PhaseSet.majors.Sub ((live[net]?).getD {})) (hk : 1 ≤ k) (hk' : k ≤ steps) :
    (g.index? net k).isSome = true := by
  obtain ⟨i, hi, _⟩ := h.expands.exists_index (liveAt_of_majors hl hk hk')
  exact Option.isSome_of_eq_some hi

theorem OnStages.isSome_minorIndex (h : n.OnStages live steps t.stages g) {net k s : Nat}
    (hl : LiveInStages live net) (hk : 1 ≤ k ∧ k < steps) (hs : s ∈ stepsFrom 1 g.stages) :
    (g.minorIndex? net k s).isSome = true := by
  rw [h.stages_eq] at hs
  exact Option.isSome_of_eq_some (h.minorIndex?_eq hk (mem_stepsFrom.mp hs) hl)

theorem OnStages.isSome_slopes (h : n.OnStages live steps t.stages g) {net k : Nat}
    (hl : LiveInStages live net) (hk : 1 ≤ k ∧ k < steps) :
    ∀ c ∈ slopes g net k, c.isSome = true :=
  List.forall_mem_map.mpr fun _ hs => h.isSome_minorIndex hl hk hs

/-- An integrator that is live somewhere lacks no variable across an interval. -/
theorem OnStages.isSome_increment (h : n.OnStages live steps t.stages g) {k o i j : Nat}
    {b : TracedBlock α} (hi : n.Integrates k b o i) (hl : LiveSomewhere live (n.wires.netOf o))
    (hj : j ∈ stepsFrom 1 g.intervals) : ∀ c ∈ g.index? (n.wires.netOf o) j ::
      g.index? (n.wires.netOf o) (j + 1) :: slopes g (n.wires.netOf i) j, c.isSome = true := by
  obtain ⟨p, hp⟩ := hl
  obtain ⟨hmajors, hslope⟩ := h.live_integrator hi hp
  obtain ⟨h₁, h₂⟩ := h.lt_of_interval hj
  exact List.forall_mem_cons.mpr ⟨h.isSome_index hmajors h₁ (Nat.le_of_lt h₂),
    List.forall_mem_cons.mpr ⟨h.isSome_index hmajors (Nat.le_add_left 1 j) h₂,
      h.isSome_slopes hslope ⟨h₁, h₂⟩⟩⟩

theorem OnStages.index?_eq_none (h : n.OnStages live steps t.stages g) {net : Nat}
    (hl : ¬ LiveSomewhere live net) (j : Nat) : g.index? net j = none := by
  refine Option.eq_none_iff_forall_ne_some.mpr fun c hc => hl ?_
  obtain ⟨_, _, p, hp, _⟩ := h.expands.liveAt hc
  exact ⟨p, hp⟩

/-- An integrator that is live in the stages lacks no variable at any of them. -/
theorem OnStages.isSome_stage (h : n.OnStages live steps t.stages g) {k o i j s : Nat}
    {b : TracedBlock α} (hi : n.Integrates k b o i) (hm : n.wires.netOf o ∈ g.minorNets)
    (hj : j ∈ stepsFrom 1 g.intervals) (hs : s ∈ stepsFrom 1 g.stages) :
    ∀ c ∈ g.index? (n.wires.netOf o) j :: g.minorIndex? (n.wires.netOf o) j s ::
      slopes g (n.wires.netOf i) j, c.isSome = true := by
  have hl := h.mem_minorNets.mp hm
  obtain ⟨hmajors, hslope⟩ := h.live_integrator hi hl
  obtain ⟨h₁, h₂⟩ := h.lt_of_interval hj
  exact List.forall_mem_cons.mpr ⟨h.isSome_index hmajors h₁ (Nat.le_of_lt h₂),
    List.forall_mem_cons.mpr ⟨h.isSome_minorIndex hl ⟨h₁, h₂⟩ hs, h.isSome_slopes hslope ⟨h₁, h₂⟩⟩⟩

/-- A held net lacks no variable at any stage. -/
theorem OnStages.isSome_hold (h : n.OnStages live steps t.stages g) {k o j s : Nat}
    {b : TracedBlock α} (hh : n.Holds g k b o) (hj : j ∈ stepsFrom 1 g.intervals)
    (hs : s ∈ stepsFrom 1 g.stages) :
    ∀ c ∈ (holdTerms g t (n.heldOutput b o) j s).1, c.isSome = true := by
  have hmajors := h.live_held hh
  obtain ⟨h₁, h₂⟩ := h.lt_of_interval hj
  have hnow := h.isSome_index hmajors h₁ (Nat.le_of_lt h₂)
  have hnext := h.isSome_index hmajors (Nat.le_add_left 1 j) h₂
  have hstage := h.isSome_minorIndex (h.mem_minorNets.mp hh.minor) ⟨h₁, h₂⟩ hs
  unfold holdTerms
  split
  · exact List.forall_mem_cons.mpr ⟨hnow, List.forall_mem_cons.mpr ⟨hnext,
      List.forall_mem_singleton.mpr hstage⟩⟩
  · exact List.forall_mem_cons.mpr ⟨hnow, List.forall_mem_singleton.mpr hstage⟩

/-- An integrator has a row across every interval if it is live, and none otherwise. -/
theorem OnStages.lists_incrementRows (h : n.OnStages live steps t.stages g) (dt : α) {b : TracedBlock α}
    (hb : b ∈ (n.blocks.ofKinds [.integrator]).map (·.2)) : Lists (n.CouplingRow g t dt)
      ((n.stateNets b).flatMap fun e => if decide (LiveSomewhere live e.1) then
        (stepsFrom 1 g.intervals).map fun k => .across k e.1 else [])
      (n.incrementRows g t dt b) := by
  obtain ⟨k, hk, hkind⟩ := mem_ofKind.mp hb
  refine lists_rowsOf fun e he => ?_
  obtain ⟨o, i, hz, rfl⟩ := mem_stateNets.mp he
  have hi : n.Integrates k b o i := ⟨hk, hkind, hz⟩
  split
  case isTrue hl =>
    rw [List.map_eq_flatMap]
    exact lists_rowsOf fun j hj => lists_couplingRow (h.isSome_increment hi (of_decide_eq_true hl) hj)
      fun r hr => .increment hi (mem_stepsFrom.mp hj) hr
  case isFalse hl =>
    have hempty : (stepsFrom 1 g.intervals).flatMap (fun _ => ([] : List Determined)) = [] :=
      List.flatMap_eq_nil_iff.mpr fun _ _ => rfl
    refine Lists.eq (lists_rowsOf fun j hj => ?_) hempty
    rw [h.index?_eq_none (fun hlive => hl (decide_eq_true hlive)) j]
    exact lists_missing

/-- An integrator that is live in the stages has a row at each of them. -/
theorem OnStages.lists_stageRows (h : n.OnStages live steps t.stages g) (dt : α) {b : TracedBlock α}
    (hb : b ∈ (n.blocks.ofKinds [.integrator]).map (·.2)) : Lists (n.CouplingRow g t dt)
      ((n.stateNets b).flatMap fun e => if g.minorNets.contains e.1 then
        Determined.netStages g.intervals g.stages e.1 else [])
      (n.stageRows g t dt b) := by
  obtain ⟨k, hk, hkind⟩ := mem_ofKind.mp hb
  rw [← flatMap_filter_ite (fun e : Nat × Nat => g.minorNets.contains e.1)]
  refine lists_rowsOf fun e he => lists_rowsOf fun j hj => ?_
  rw [List.map_eq_flatMap]
  obtain ⟨hmem, hm⟩ := List.mem_filter.mp he
  obtain ⟨o, i, hz, rfl⟩ := mem_stateNets.mp hmem
  have hi : n.Integrates k b o i := ⟨hk, hkind, hz⟩
  have hm := List.contains_iff_mem.mp hm
  exact lists_rowsOf fun s hs => lists_couplingRow (h.isSome_stage hi hm hj hs) fun r hr =>
    .stage hi hm (mem_stepsFrom.mp hj) (mem_stepsFrom.mp hs) hr

/-- A held net has a row at every stage. -/
theorem OnStages.lists_holdRows (h : n.OnStages live steps t.stages g) (dt : α) (hold : Hold) :
    Lists (n.CouplingRow g t dt) (Determined.atStages g.intervals g.stages
        (((n.heldNets g).filter fun h => h.hold = hold).map (·.net)))
      (n.holdRows g t hold) := by
  rw [Determined.atStages, List.flatMap_map]
  refine lists_rowsOf fun e he => lists_rowsOf fun j hj => ?_
  rw [List.map_eq_flatMap]
  obtain ⟨k, b, o, hh, rfl⟩ := holds_of_mem_heldNets (List.mem_filter.mp he).1
  refine lists_rowsOf fun s hs => ?_
  obtain ⟨kind, hrow⟩ := exists_holdRow_eq n g t (n.heldOutput b o) j s
  rw [hrow]
  exact lists_couplingRow (h.isSome_hold hh hj hs) fun r hr =>
    .held hh (mem_stepsFrom.mp hj) (mem_stepsFrom.mp hs) hr

end Rows

section All

variable [Scalar α]

/-- Delays and integrators have as many inputs as outputs. -/
def Paired (n : Network α) : Prop :=
  ∀ k b, n.block? k = some b → b.kind.isState = true → b.inputs.length = b.outputs.length

def heldBy (n : Network α) (g : Grid α) (hold : Hold) : List Nat :=
  ((n.heldNets g).filter fun h => h.hold = hold).map (·.net)

def coupled (n : Network α) (live : List PhaseSet) (g : Grid α) : List Determined :=
  Determined.acrossAll g.intervals ((n.leaving [.integrator]).filter (LiveSomewhere live ·)) ++
    Determined.atStages g.intervals g.stages
      ((n.leaving [.integrator]).filter (g.minorNets.contains ·)) ++
    Determined.atStages g.intervals g.stages (n.heldBy g .firstOrder) ++
    Determined.atStages g.intervals g.stages (n.heldBy g .zeroOrder)

variable {n : Network α} {live : List PhaseSet} {steps : Nat} {g : Grid α} {t : Tableau α}

theorem map_snd_ofKinds (n : Network α) (kinds : List BlockKind) : (n.blocks.ofKinds kinds).map (·.2) =
    n.blocks.blocks.filter fun b => kinds.contains b.kind := by
  have hentries : n.blocks.entries.map (·.2) = n.blocks.blocks :=
    List.map_snd_zip (by rw [List.length_range]; exact Nat.le_refl _)
  rw [BlockTable.ofKinds, ← hentries, List.filter_map]
  rfl

/-- The states of all integrators are the nets that leave them. -/
theorem Paired.map_stateNets (h : n.Paired) :
    (((n.blocks.ofKinds [.integrator]).map (·.2)).flatMap n.stateNets).map Prod.fst =
      n.leaving [.integrator] := by
  rw [List.map_flatMap, leaving, ← map_snd_ofKinds]
  refine List.flatMap_congr fun b hb => ?_
  obtain ⟨k, hk, hkind⟩ := mem_ofKind.mp hb
  have hlength := h k b hk (by rw [hkind]; rfl)
  rw [stateNets, List.map_map]
  refine Eq.trans ?_ (congrArg (List.map n.wires.netOf) (List.map_fst_zip hlength.ge))
  rw [List.map_map]
  rfl

theorem lists_integrators {R : Determined → Terms α → Prop}
    {rows : TracedBlock α → Noted α (List (Terms α))} {p : Nat → Bool} {r : Nat → List Determined}
    (hpaired : n.Paired) (h : ∀ b ∈ (n.blocks.ofKinds [.integrator]).map (·.2),
      Lists R ((n.stateNets b).flatMap fun e => if p e.1 then r e.1 else []) (rows b)) :
    Lists R (((n.leaving [.integrator]).filter p).flatMap r)
      (rowsOf ((n.blocks.ofKinds [.integrator]).map (·.2)) rows) := by
  refine (lists_rowsOf h).eq ?_
  rw [← hpaired.map_stateNets]
  generalize (n.blocks.ofKinds [.integrator]).map (·.2) = bs
  rw [List.filter_map, List.flatMap_map, flatMap_filter_ite, List.flatMap_assoc]
  rfl

/-- On a grid with stages, the coupling rows are those of the integrators and of the held nets. -/
theorem OnStages.exists_listed (h : n.OnStages live steps t.stages g) (hpaired : n.Paired) (dt : α) :
    ∃ rows, (n.couplingRows g t dt).result = .ok (rows.foldl LinearRows.add { width := g.size }) ∧
      List.Forall₂ (n.CouplingRow g t dt) (n.coupled live g) rows := by
  obtain ⟨increments, hincrements, hi⟩ := lists_integrators (p := (LiveSomewhere live ·))
    (r := fun net => (stepsFrom 1 g.intervals).map (.across · net)) hpaired
    fun b hb => h.lists_incrementRows dt hb
  obtain ⟨stages, hstages, hs⟩ := lists_integrators (p := (g.minorNets.contains ·))
    (r := Determined.netStages g.intervals g.stages) hpaired fun b hb => h.lists_stageRows dt hb
  obtain ⟨firsts, hfirsts, hf⟩ := h.lists_holdRows dt .firstOrder
  obtain ⟨zeros, hzeros, hz⟩ := h.lists_holdRows dt .zeroOrder
  refine ⟨increments ++ stages ++ firsts ++ zeros, ?_,
    List.rel_append (List.rel_append (List.rel_append hi hs) hf) hz⟩
  apply Noted.result_bind.mpr ⟨increments, hincrements, ?_⟩
  apply Noted.result_bind.mpr ⟨stages, hstages, ?_⟩
  apply Noted.result_bind.mpr ⟨firsts, hfirsts, ?_⟩
  exact Noted.result_bind.mpr ⟨zeros, hzeros, rfl⟩

end All

end Network

end Transcription
