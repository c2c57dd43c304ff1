import Transcription.Proofs.Diagram.Measuring
import Transcription.Proofs.Network.Records
import Transcription.Proofs.Program.Completion
import Transcription.Proofs.Program.Origins

namespace Transcription

theorem Binary64.isInf_of_integer? {x : Float} {m : Int} (h : integer? x = some m) :
    x.isInf = false := by
  by_contra hinf
  simp [integer?, isFinite, hinf] at h

namespace Period

def EndsBehind (p : Nat) (offset : Int) (t : Nat) : Prop := (p : Int) ∣ t - offset % p

/-- The period and offset that a parameter stands for. Nothing stands for a period of one step, as an empty
list does, and an offset that is not given is 0. -/
inductive StandsFor : Value → Float → Float → Prop
  | nothing : StandsFor .none 1 0
  | empty {v : Value} (h : v.doubles = .ok []) : StandsFor v 1 0
  | period {v : Value} {x : Float} (hv : v ≠ .none) (h : v.doubles = .ok [x]) : StandsFor v x 0
  | both {v : Value} {x y : Float} {rest : List Float} (h : v.doubles = .ok (x :: y :: rest)) :
      StandsFor v x y

theorem integer?_of_offset {y : Float} {p q : Period} {r : Int} (h : (do
      let o ← Value.integerOf y
      if Binary64.integer? y = some o then return (p, o) else throw (.blockingOffset y)) =
        Except.ok (q, r)) : p = q ∧ Binary64.integer? y = some r := by
  obtain ⟨o, _, h⟩ := except_bind_eq_ok.mp h
  split at h
  · rename_i hinteger
    cases h
    exact ⟨rfl, hinteger⟩
  · cases h

/-- What can be read is an endless period or one of a whole number of steps, and an offset that is a whole
number. -/
theorem ofValue_doubles {v : Value} {q : Period} {r : Int} (h : ofValue v = .ok (q, r))
    (hv : v ≠ .none) : ∃ xs, v.doubles = .ok xs ∧
      ((xs.headD 1).isInf = true → ∃ negative, q = endless negative) ∧
      ((xs.headD 1).isInf = false → ∃ m, Binary64.integer? (xs.headD 1) = some m ∧ q = every m) ∧
      Binary64.integer? ((xs.drop 1).headD 0) = some r := by
  unfold ofValue at h
  split at h
  · exact absurd rfl hv
  obtain ⟨t, ht, h⟩ := except_bind_eq_ok.mp h
  dsimp only at h
  refine ⟨t.data, (Value.tensor?_eq_ok.mp ht).2, ?_⟩
  split at h
  · rename_i hinf
    obtain ⟨rfl, hoffset⟩ := integer?_of_offset h
    exact ⟨fun _ => ⟨_, rfl⟩, fun hfinite => absurd (hinf.symm.trans hfinite) (by decide), hoffset⟩
  rename_i hfinite
  split at h
  · cases h
  obtain ⟨m, _, h⟩ := except_bind_eq_ok.mp h
  split at h
  · rename_i hm
    obtain ⟨rfl, hoffset⟩ := integer?_of_offset h
    exact ⟨fun hinf => absurd hinf hfinite, fun _ => ⟨m, hm, rfl⟩, hoffset⟩
  · cases h

/-- The period and offset that are read are those that a parameter stands for. -/
theorem StandsFor.reads {v : Value} {x y : Float} (hs : StandsFor v x y) {q : Period} {r : Int}
    (h : ofValue v = .ok (q, r)) : (x.isInf = true → ∃ negative, q = endless negative) ∧
      (x.isInf = false → ∃ m, Binary64.integer? x = some m ∧ q = every m) ∧
      Binary64.integer? y = some r := by
  cases hs with
  | nothing =>
    cases h
    have hzero : Binary64.integer? 0 = some 0 := by decide +kernel
    exact ⟨fun hinf => absurd hinf (by decide), fun _ => ⟨1, rfl, rfl⟩, hzero⟩
  | empty hdoubles =>
    obtain ⟨xs, hxs, h⟩ := ofValue_doubles h (by rintro rfl; cases hdoubles)
    cases hdoubles.symm.trans hxs
    exact h
  | period hv hdoubles =>
    obtain ⟨xs, hxs, h⟩ := ofValue_doubles h hv
    cases hdoubles.symm.trans hxs
    exact h
  | both hdoubles =>
    obtain ⟨xs, hxs, h⟩ := ofValue_doubles h (by rintro rfl; cases hdoubles)
    cases hdoubles.symm.trans hxs
    exact h

/-- A period with its offset, and one without. -/
example (x y : Float) : StandsFor (.list [.float x, .float y]) x y ∧ StandsFor (.float x) x 0 :=
  ⟨.both rfl, .period (fun h => by cases h) rfl⟩

variable {p : Nat} {offset : Int}

theorem window_every (offset t : Int) : (every p).window offset t = (t - 1 - offset % p) / p := by
  rw [window, Int.fmod_eq_emod_of_nonneg _ (Int.natCast_nonneg p),
    Int.fdiv_eq_ediv_of_nonneg _ (Int.natCast_nonneg p)]

/-- The steps of window `w` are the `p` steps behind one that lies `w` periods after the offset. -/
theorem window_eq_iff (hp : 0 < p) {t w : Int} : (every p).window offset t = w ↔
    w * p + offset % p < t ∧ t ≤ w * p + offset % p + p := by
  rw [window_every, Int.ediv_eq_iff_of_pos (Int.natCast_pos.mpr hp)]
  omega

/-- An offset of -5 is one of 1: the first window has one step. -/
example : (stepsFrom 1 8).map (fun t => (every 3).window (-5) t) = [-1, 0, 0, 0, 1, 1, 1, 2] := by
  decide

/-- Steps lie in one window exactly when none ends between them. -/
theorem window_eq_window_iff (hp : 0 < p) {t u : Nat} (htu : t ≤ u) :
    (every p).window offset t = (every p).window offset u ↔
      ∀ s, t ≤ s → s < u → ¬ EndsBehind p offset s := by
  have hoffset := Int.emod_nonneg offset (Int.natCast_ne_zero.mpr hp.ne')
  obtain ⟨hlow, hhigh⟩ := (window_eq_iff hp).mp (rfl : (every p).window offset u = _)
  rw [window_eq_iff hp]
  constructor
  · rintro ⟨ht, _⟩ s hts hsu ⟨q, hq⟩
    have hlt : (every p).window offset u < q := by
      by_contra hle
      have := Int.mul_le_mul_of_nonneg_left (Int.not_lt.mp hle) (Int.natCast_nonneg p)
      rw [mul_comm (p : Int) ((every p).window offset u)] at this
      omega
    have := Int.mul_le_mul_of_nonneg_left hlt (Int.natCast_nonneg p)
    rw [mul_add, mul_one, mul_comm (p : Int) ((every p).window offset u)] at this
    omega
  · intro h
    refine ⟨?_, by omega⟩
    by_contra hle
    -- the start of the later step's window is where one ends between the two
    obtain ⟨s, hs⟩ := Int.eq_ofNat_of_zero_le
      (show 0 ≤ (every p).window offset u * p + offset % p by omega)
    refine h s (by omega) (by omega) ?_
    rw [EndsBehind, ← hs, Int.add_sub_cancel]
    exact dvd_mul_left _ _

end Period

/-- Steps told apart from those before and behind them are the steps between. -/
theorem filter_stepsFrom {first s e last : Nat} {q : Nat → Bool} (hs : first ≤ s + 1) (hse : s ≤ e)
    (he : e ≤ last) (hq : ∀ t, first ≤ t → t ≤ last → (q t = true ↔ s < t ∧ t ≤ e)) :
    (stepsFrom first last).filter q = stepsFrom (s + 1) e := by
  have hbefore : (stepsFrom first s).filter q = [] := by
    refine List.filter_eq_nil_iff.mpr fun t ht => ?_
    have := mem_stepsFrom.mp ht
    rw [hq t (by omega) (by omega)]
    omega
  have hbetween : (stepsFrom (s + 1) e).filter q = stepsFrom (s + 1) e := by
    refine List.filter_eq_self.mpr fun t ht => ?_
    have := mem_stepsFrom.mp ht
    exact (hq t (by omega) (by omega)).mpr (by omega)
  have hbehind : (stepsFrom (e + 1) last).filter q = [] := by
    refine List.filter_eq_nil_iff.mpr fun t ht => ?_
    have := mem_stepsFrom.mp ht
    rw [hq t (by omega) (by omega)]
    omega
  have hse' : first ≤ e + 1 := by omega
  rw [← stepsFrom_append hse' he, ← stepsFrom_append hs hse, List.filter_append,
    List.filter_append, hbefore, hbetween, hbehind, List.nil_append, List.append_nil]

namespace Grid

variable {α : Type}

def sharedSteps (g : Grid α) (net t : Nat) : List Nat :=
  (stepsFrom 1 g.steps).filter fun u => g.index? net u = g.index? net t

/-- The steps of a net are cut into windows: one of `offset % p` steps, then windows of `p` steps for as
long as the horizon lasts. -/
structure CutInto (g : Grid α) (net p : Nat) (offset : Int) : Prop where
  /-- A step shares its variable with the next one unless a window ends behind it. -/
  next_iff : ∀ t, 1 ≤ t → t < g.steps →
    (g.index? net t = g.index? net (t + 1) ↔ ¬ Period.EndsBehind p offset t)
  /-- Steps share a variable exactly when no window ends between them. -/
  same_iff : ∀ t u, 1 ≤ t → t ≤ u → u ≤ g.steps →
    (g.index? net t = g.index? net u ↔ ∀ s, t ≤ s → s < u → ¬ Period.EndsBehind p offset s)
  /-- The first window has the steps up to the offset. -/
  first : ∀ t, 1 ≤ t → t ≤ g.steps → (t : Int) ≤ offset % p →
    g.sharedSteps net t = stepsFrom 1 (min (offset % p).toNat g.steps)
  /-- Any other one has the `p` steps behind the end of one, unless the horizon ends before. -/
  later : ∀ t, t ≤ g.steps → offset % p < t → ∃ s, Period.EndsBehind p offset s ∧ s < t ∧ t ≤ s + p ∧
    g.sharedSteps net t = stepsFrom (s + 1) (min (s + p) g.steps)

/-- Where steps share variables by the windows of a period, windows have the period's length. -/
theorem cutInto_of_window {g : Grid α} {net p : Nat} {offset : Int} (hp : 0 < p)
    (h : ∀ t u, 1 ≤ t → t ≤ g.steps → 1 ≤ u → u ≤ g.steps → (g.index? net t = g.index? net u ↔
      (Period.every p).window offset t = (Period.every p).window offset u)) :
    g.CutInto net p offset := by
  have hsame (t u : Nat) (ht : 1 ≤ t) (htu : t ≤ u) (hu : u ≤ g.steps) :
      g.index? net t = g.index? net u ↔ ∀ s, t ≤ s → s < u → ¬ Period.EndsBehind p offset s := by
    rw [h t u ht (by omega) (by omega) hu, Period.window_eq_window_iff hp htu]
  have hoffset := Int.emod_nonneg offset (Int.natCast_ne_zero.mpr hp.ne')
  have hlt := Int.emod_lt_of_pos offset (Int.natCast_pos.mpr hp)
  refine ⟨fun t ht hlt => ?_, hsame, fun t ht hle hfirst => ?_, fun t hle hlater => ?_⟩
  · rw [hsame t (t + 1) ht (by omega) hlt]
    exact ⟨fun hs => hs t le_rfl (by omega), fun hs s hts hst => by
      obtain rfl : s = t := by omega
      exact hs⟩
  · have hwindow : (Period.every p).window offset t = -1 := (Period.window_eq_iff hp).mpr (by omega)
    refine filter_stepsFrom le_rfl (Nat.zero_le _) (min_le_right _ _) fun u hu hsteps => ?_
    rw [decide_eq_true_eq, h u t hu hsteps ht hle, hwindow, Period.window_eq_iff hp]
    omega
  · obtain ⟨hlow, hhigh⟩ := (Period.window_eq_iff hp).mp
      (rfl : (Period.every p).window offset t = _)
    have hpos : 0 ≤ (Period.every p).window offset t * p := by
      refine mul_nonneg ?_ (Int.natCast_nonneg p)
      rw [Period.window_every]
      exact Int.ediv_nonneg (by omega) (Int.natCast_nonneg p)
    obtain ⟨s, hs⟩ := Int.eq_ofNat_of_zero_le
      (show 0 ≤ (Period.every p).window offset t * p + offset % p by omega)
    refine ⟨s, ?_, by omega, by omega, ?_⟩
    · rw [Period.EndsBehind, ← hs, Int.add_sub_cancel]
      exact dvd_mul_left _ _
    · refine filter_stepsFrom (by omega) (by omega) (min_le_right _ _) fun u hu hsteps => ?_
      rw [decide_eq_true_eq, h u t hu hsteps (by omega) hle, Period.window_eq_iff hp]
      omega

end Grid

namespace Network

variable {α : Type} [Scalar α] {n : Network α} {live : List PhaseSet} {steps : Nat} {g : Grid α}

/-- An input from outside shares a variable between the steps of one of its windows only. Where it is
not blocked at all, every step has its own. -/
theorem IndexesOrigins.index_boundary (hi : n.IndexesOrigins live steps g) (h : n.Netted)
    (hs : n.SingleSourced) {k : Nat} {b : TracedBlock α} (hb : n.block? k = some b)
    (hk : b.kind.isBoundary = true) {o : Nat} (ho : o ∈ b.outputs) {t u : Nat}
    (ht : LiveAt live steps t (n.wires.netOf o)) (hu : LiveAt live steps u (n.wires.netOf o)) :
    g.index? (n.wires.netOf o) t = g.index? (n.wires.netOf o) u ↔
      t = u ∨ b.isMoveBlocked = true ∧ b.period.window b.offset t = b.period.window b.offset u := by
  rw [hi.shared t _ u _ ht hu, origin_of_boundary h hs hb hk ho, origin_of_boundary h hs hb hk ho]
  constructor
  · rintro (heq | ⟨j, c, hc, hm, ⟨q, hq, hnet, _⟩, hw⟩)
    · exact .inl (congrArg Prod.fst heq)
    · obtain ⟨_, hkj⟩ := h.output_unique hs hb hc (BlockKind.isReroute_of_isBoundary hk)
        (BlockKind.isReroute_of_isBoundary (TracedBlock.isBoundary_of_isMoveBlocked hm)) ho hq hnet.symm
      subst hkj
      cases hb.symm.trans hc
      exact .inr ⟨hm, hw⟩
  · rintro (rfl | ⟨hm, hw⟩)
    · exact .inl rfl
    · exact .inr ⟨k, b, hb, hm, ⟨o, ho, rfl, rfl⟩, hw⟩

end Network

namespace Run

open Network

variable {α : Type} [Scalar α]

/-- Move blocking cuts the steps of an input into windows. A diagram whose nets have one source each
expands over every horizon, and inputs from outside have the windows of their parameters: a period of
two steps or more cuts the steps of an output that lives at all of them into windows of that length, an
endless one gives all of them one variable, and a period of one step gives each its own. -/
theorem inputs_windowed {d : Diagram} {hold : Hold} {n₀ n : Network α} {count steps : Nat}
    (ht : (d.trace hold).result = .ok n₀) (hm : (mergeWires n₀).result = .ok (count, n))
    (hs : n.SingleSourced) (h₁ : 1 ≤ steps) (minor : Bool) (stages : Nat) :
    ∃ g, ((n.withLiveness (n.liveness minor)).expand (n.liveness minor) steps stages).result = .ok g ∧
      g.steps = steps ∧ ∀ k b, n.block? k = some b → b.kind.isBoundary = true →
        ∀ period offset, Period.StandsFor (d.param b.source "move_blocking_info" .none) period offset →
        ∀ o ∈ b.outputs,
          (∀ t, 1 ≤ t → t ≤ steps → LiveAt (n.liveness minor) steps t (n.wires.netOf o)) →
          (∀ (p : Nat) (a : Int), 2 ≤ p → Binary64.integer? period = some p →
            Binary64.integer? offset = some a → g.CutInto (n.wires.netOf o) p a) ∧
          (period.isInf = true → ∀ t u, 1 ≤ t → t ≤ steps → 1 ≤ u → u ≤ steps →
            g.index? (n.wires.netOf o) t = g.index? (n.wires.netOf o) u) ∧
          (Binary64.integer? period = some 1 → ∀ t u, 1 ≤ t → t ≤ steps → 1 ≤ u → u ≤ steps →
            g.index? (n.wires.netOf o) t = g.index? (n.wires.netOf o) u → t = u) := by
  obtain ⟨h, hd, _⟩ := netted_mergeWires ht hm
  have hc := Liveness.closed_liveness (h.driven hs) minor
  obtain ⟨g, hlaid, hg⟩ := h.exists_laid minor h₁ stages
  have hsteps := hlaid.expands.steps_eq
  have horigins := hlaid.expands.indexesOrigins h hs hc
  refine ⟨g, hg, hsteps, fun k b hb hk period offset hparam o ho hlive => ?_⟩
  have hwindow := (ofRecords_mergeWires ht hm).period_eq hb hk
  rw [hd, Diagram.param_prepared] at hwindow
  obtain ⟨hendless, hevery, hoffset⟩ := hparam.reads hwindow
  have hindex (t u : Nat) (ht : 1 ≤ t) (hle : t ≤ steps) (hu : 1 ≤ u) (hle' : u ≤ steps) :=
    horigins.index_boundary h hs hb hk ho (hlive t ht hle) (hlive u hu hle')
  refine ⟨fun p a hp hperiod ha => ?_, fun hinf t u ht hle hu hle' => ?_,
    fun hperiod t u ht hle hu hle' hsame => ?_⟩
  · obtain ⟨m, hm, hq⟩ := hevery (Binary64.isInf_of_integer? hperiod)
    obtain rfl := Option.some.inj (hm.symm.trans hperiod)
    obtain rfl := Option.some.inj (hoffset.symm.trans ha)
    have hblocked : b.isMoveBlocked = true := by
      rw [TracedBlock.isMoveBlocked, hk, hq, Period.blocks]
      simp
      omega
    refine Grid.cutInto_of_window (by omega) fun t u ht hle hu hle' => ?_
    rw [hindex t u ht (hsteps ▸ hle) hu (hsteps ▸ hle'), hq]
    exact ⟨fun hs => hs.elim (fun he => he ▸ rfl) And.right, fun hw => .inr ⟨hblocked, hw⟩⟩
  · obtain ⟨negative, hq⟩ := hendless hinf
    refine (hindex t u ht hle hu hle').mpr (.inr ⟨?_, ?_⟩)
    · rw [TracedBlock.isMoveBlocked, hk, hq]
      rfl
    · rw [hq]
      rfl
  · obtain ⟨m, hm, hq⟩ := hevery (Binary64.isInf_of_integer? hperiod)
    obtain rfl := Option.some.inj (hm.symm.trans hperiod)
    refine ((hindex t u ht hle hu hle').mp hsame).resolve_right fun hblocked => ?_
    have hnot : b.isMoveBlocked = false := by
      rw [TracedBlock.isMoveBlocked, hk, hq]
      rfl
    rw [hnot] at hblocked
    cases hblocked.1

/-- The inflow of the reservoir is set for two steps at a time, the first of them alone. -/
theorem inputs_windowed_reservoir :
    (Reservoir.diagram.trace .firstOrder : Noted ℚ _).result = .ok Reservoir.traced ∧
      (mergeWires Reservoir.traced).result = .ok (4, Reservoir.network) ∧
      Reservoir.network.SingleSourced ∧ 1 ≤ 4 ∧
      Period.StandsFor (Reservoir.diagram.param 0 "move_blocking_info" .none) 2 1 ∧
      ∃ g, ((Reservoir.network.withLiveness (Reservoir.network.liveness true)).expand
          (Reservoir.network.liveness true) (4 : Nat) 2).result = .ok g ∧ g.steps = 4 ∧
        (∀ t, 1 ≤ t → t ≤ 4 → LiveAt (Reservoir.network.liveness true) 4 t 1) ∧
        g.CutInto 1 2 1 := by
  have ht := congrArg Noted.result Reservoir.trace_diagram
  have hm : (mergeWires Reservoir.traced).result = .ok (4, Reservoir.network) := rfl
  have hparam : Period.StandsFor (Reservoir.diagram.param 0 "move_blocking_info" .none) 2 1 :=
    .both rfl
  have hlive (t : Nat) (h₁ : 1 ≤ t) (h₄ : t ≤ 4) :
      LiveAt (Reservoir.network.liveness true) 4 t (Reservoir.network.wires.netOf 1) := by
    apply mem_liveSlots.mp
    obtain rfl | rfl | rfl | rfl : t = 1 ∨ t = 2 ∨ t = 3 ∨ t = 4 := by omega
    all_goals decide +kernel
  have h₁ : 1 ≤ 4 := by decide
  obtain ⟨g, hg, hsteps, hinputs⟩ :=
    inputs_windowed ht hm Reservoir.singleSourced_network h₁ true 2
  obtain ⟨hcut, _⟩ := hinputs 2 _ rfl rfl 2 1 hparam 1 (List.mem_singleton.mpr rfl) hlive
  exact ⟨ht, hm, Reservoir.singleSourced_network, h₁, hparam, g, hg, hsteps, hlive,
    hcut 2 1 (by decide) rfl rfl⟩

end Run

end Transcription
