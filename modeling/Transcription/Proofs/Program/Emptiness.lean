import Transcription.Proofs.Program.Completion

namespace Transcription

variable {α : Type} [Scalar α]

namespace Wire

/-- Bounds that leave numbers in every phase, but none in the first and the last phase at once. -/
structure Crossed (w : Wire α) : Prop where
  separate : w.emptyPhases = []
  across : w.upper.final.lt w.lower.initial = true ∨ w.upper.initial.lt w.lower.final = true

theorem lt_of_emptyPhases {w : Wire α} (h : w.emptyPhases = []) (p : MajorPhase) :
    (w.upper.get p).lt (w.lower.get p) = false := by
  have hmem : p ∈ MajorPhase.all := by cases p <;> decide
  simpa using List.filter_eq_nil_iff.mp h p hmem

end Wire

namespace Network

variable {n : Network α} {steps : Nat} {g : Grid α} {e : Entry α} {w : Wire α}

/-- An entry excludes all numbers only where its net does in a phase, or across the phases of a lone
step. -/
theorem Entered.emptyPhases_or_crossed (h : n.Entered steps e w) (he : e.upper.lt e.lower = true) :
    w.emptyPhases ≠ [] ∨ (steps = 1 ∧ w.Crossed) := by
  by_cases hempty : w.emptyPhases = []
  case neg => exact .inl hempty
  have hlt := Wire.lt_of_emptyPhases hempty
  rw [h.lower_eq, h.upper_eq] at he
  obtain ⟨hone, hphases⟩ | ⟨_, p, hphases⟩ := majorList_stepPhases e.step steps
  · refine .inr ⟨by exact_mod_cast hone, hempty, ?_⟩
    rw [hphases] at he
    simp only [List.map_cons, List.map_nil, List.foldl_cons, List.foldl_nil, Limit.max_negInf_left,
      Limit.min_posInf_left] at he
    have hinitial : w.upper.initial.lt w.lower.initial = false := hlt .initial
    have hfinal : w.upper.final.lt w.lower.final = false := hlt .final
    simp only [ByPhase.get] at he
    -- each of the two limits is that of one phase, and those of one phase leave numbers
    obtain hl | hl := Limit.max_eq_or w.lower.initial w.lower.final <;>
      obtain hu | hu := Limit.min_eq_or w.upper.initial w.upper.final <;> rw [hl, hu] at he
    · exact absurd (hinitial.symm.trans he) (by decide)
    · exact .inl he
    · exact .inr he
    · exact absurd (hfinal.symm.trans he) (by decide)
  · rw [hphases] at he
    simp only [List.map_cons, List.map_nil, List.foldl_cons, List.foldl_nil, Limit.max_negInf_left,
      Limit.min_posInf_left] at he
    exact absurd ((hlt p).symm.trans he) (by decide)

/-- A net that excludes all numbers in some phase is noted. -/
theorem notes_noteEmpty {t : WireTable α} {net : Nat} (hw : (t.group net).head? = some w)
    (h : w.emptyPhases ≠ []) (path : Nat → String) : net ∈ t.nets ∧
      ⟨.emptyInterval net (w.emptyPhases.map fun p => (p, w.lower.get p, w.upper.get p)),
        some (w.label path)⟩ ∈ (t.noteEmpty path net).notes := by
  obtain ⟨ws, hws⟩ := List.head?_eq_some_iff.mp hw
  constructor
  · obtain ⟨hmem, hnet⟩ := List.mem_filter.mp (hws ▸ List.mem_cons_self : w ∈ t.group net)
    exact List.mem_eraseDups.mpr (List.mem_map.mpr ⟨w, hmem, of_decide_eq_true hnet⟩)
  · unfold WireTable.noteEmpty
    rw [hws]
    simp only [List.isEmpty_iff, List.map_eq_nil_iff, if_neg h]
    exact List.mem_singleton.mpr rfl

/-- A variable of several entries that excludes all numbers is noted, unless one of its entries does so
by itself. -/
theorem notes_noteMerged {entries : List (Entry α)} {i : Nat}
    (h : (sharedUpper (sharing entries i)).lt (sharedLower (sharing entries i)) = true)
    (hlength : 1 < (sharing entries i).length)
    (hall : ∀ e ∈ sharing entries i, e.upper.lt e.lower = false) :
    ⟨.mergedInterval i (sharedLower (sharing entries i)) (sharedUpper (sharing entries i)), none⟩ ∈
      (noteMerged entries i).notes := by
  unfold noteMerged
  have hnone : (sharing entries i).all (fun e => !e.upper.lt e.lower) = true := by
    rw [List.all_eq_true]
    intro e he
    rw [hall e he]
    rfl
  simp only [h, hlength, hnone, decide_true, Bool.and_self, if_true]
  exact List.mem_singleton.mpr rfl

/-- Of the entries of a variable that excludes all numbers one does so by itself, or there are
several. -/
theorem exists_empty_entry {es : List (Entry α)} (h : (sharedUpper es).lt (sharedLower es) = true) :
    (∃ e ∈ es, e.upper.lt e.lower = true) ∨
      (1 < es.length ∧ ∀ e ∈ es, e.upper.lt e.lower = false) := by
  by_cases hsome : ∃ e ∈ es, e.upper.lt e.lower = true
  · exact .inl hsome
  refine .inr ⟨?_, fun e he => by simpa using fun h => hsome ⟨e, he, h⟩⟩
  match es, h with
  | [], h => cases h
  | [e], h =>
    have hlower : sharedLower [e] = e.lower := Limit.max_negInf_left e.lower
    have hupper : sharedUpper [e] = e.upper := Limit.min_posInf_left e.upper
    rw [hlower, hupper] at h
    exact absurd ⟨e, List.mem_cons_self, h⟩ hsome
  | _ :: _ :: _, _ => exact Nat.succ_lt_succ (Nat.succ_pos _)

/-- The variables that exclude all numbers are those of steps. -/
theorem Weighs.of_infeasible (h : n.Weighs steps g) {eqs : Equalities α} {p : Program α}
    (hp : Builds g eqs p) {i : Nat} (hi : i ∈ p.infeasible) : i < g.majorCount ∧
      (sharedUpper (sharing g.majors i)).lt (sharedLower (sharing g.majors i)) = true := by
  obtain ⟨hrange, hlt⟩ := List.mem_filter.mp hi
  rw [hp.lower_eq, List.mem_range, h.length_lower] at hrange
  rw [hp.lower_eq, hp.upper_eq] at hlt
  by_cases hmajor : i < g.majorCount
  · refine ⟨hmajor, ?_⟩
    rw [List.getD_eq_getElem?_getD, List.getD_eq_getElem?_getD, h.lower_eq i hmajor,
      h.upper_eq i hmajor] at hlt
    exact hlt
  · obtain ⟨hlower, hupper, _⟩ := h.free i (Nat.le_of_not_lt hmajor) hrange
    rw [List.getD_eq_getElem?_getD, List.getD_eq_getElem?_getD, hlower, hupper] at hlt
    cases hlt

end Network

namespace Squeeze

/-- An input from 5 to 10 at the first step, and from 0 to 1 at the last step or at the first one as
well. -/
def diagram (apart : Bool) : Diagram where
  name := "squeeze"
  workspace := []
  blocks := #[
    ⟨"u", "SubSystem", "squeeze/u", some "InputFromWorkspace", none, [], 0, [some [1, 1]]⟩,
    ⟨"first", "SubSystem", "squeeze/first", some "Bound", none, [("lb", .float 5), ("ub", .float 10),
      ("initial_step", .bool true), ("intermediate_step", .bool false),
      ("final_step", .bool false)], 1, []⟩,
    ⟨"last", "SubSystem", "squeeze/last", some "Bound", none, [("lb", .float 0), ("ub", .float 1),
      ("initial_step", .bool !apart), ("intermediate_step", .bool false),
      ("final_step", .bool apart)], 1, []⟩]
  lines := [⟨⟨0, .outport, 1⟩, ⟨1, .inport, 1⟩⟩, ⟨⟨0, .outport, 1⟩, ⟨2, .inport, 1⟩⟩]

def out : Port := ⟨0, .outport, 1⟩

def measured (apart : Bool) : Diagram := { diagram apart with compiled := some [(out, [1, 1])] }

theorem prepared_diagram (apart : Bool) : (diagram apart).prepared = measured apart := by
  cases apart <;> cbv

def block (apart : Bool) : Nat → TracedBlock ℚ
  | 0 => { source := 0, kind := .input, hold := some .zeroOrder }
  | 1 => { source := 1, kind := .bound, sinkPhases := ⟨true, false, false, false⟩ }
  | _ => { source := 2, kind := .bound, sinkPhases := ⟨!apart, false, apart, false⟩ }

theorem record_input (apart : Bool) :
    (measured apart).record .zeroOrder 0 = ⟨[], .ok (block apart 0 : TracedBlock ℚ)⟩ :=
  Diagram.record_plainInput rfl rfl rfl

theorem record_first (apart : Bool) :
    (measured apart).record .zeroOrder 1 = ⟨[], .ok (block apart 1 : TracedBlock ℚ)⟩ := rfl

theorem record_last (apart : Bool) :
    (measured apart).record .zeroOrder 2 = ⟨[], .ok (block apart 2 : TracedBlock ℚ)⟩ := by
  cases apart <;> rfl

def found (apart visited : Bool) : Search ℚ where
  blocks := ⟨if visited then [block apart 1, block apart 2, block apart 0]
    else [block apart 1, block apart 2]⟩
  wires := if visited then ⟨[{ block := 2, port := out, sub := 0, net := 0 }], [(out, 0)]⟩ else {}

theorem search_measured (apart : Bool) :
    (Search.ofDiagram (measured apart) .zeroOrder : Noted ℚ _).Quiet (found apart true) := by
  have hsinks : Search.sinks (measured apart) = [1, 2] := by cases apart <;> rfl
  have hstart : (Search.start (measured apart) .zeroOrder [1, 2] {}
      ⟨(measured apart).allOutports, []⟩).Quiet (⟨[block apart 1, block apart 2]⟩, ⟨[], [out]⟩) := by
    refine Noted.quiet_bind.mpr ⟨_, record_first apart, ?_⟩
    apply Noted.quiet_bind.mpr ⟨[out], rfl, ?_⟩
    exact Noted.quiet_bind.mpr ⟨_, record_last apart, rfl⟩
  have hinput : ((found apart false).visit (measured apart) .zeroOrder out).Quiet
      ⟨found apart true, [out], []⟩ :=
    Search.quiet_visit rfl (record_input apart) rfl
  refine Search.quiet_ofDiagram hsinks hstart ?_
  refine Search.quiet_run_cons (g := ⟨[], []⟩) hinput rfl ?_
  exact Search.run_nil

def laid (apart : Bool) (w : Wire ℚ) : Network ℚ where
  diagram := measured apart
  blocks := ⟨[{ block apart 1 with inputs := [0] }, { block apart 2 with inputs := [0] },
    { block apart 0 with outputs := [0] }]⟩
  wires := ⟨[w], [(out, 0)]⟩

def free : Wire ℚ := { block := 2, port := out, sub := 0, net := 0, input := true }

def bounded (apart : Bool) : Wire ℚ :=
  if apart then
    { free with
      lower := ⟨.finite 5, .negInf, .finite 0⟩
      upper := ⟨.finite 10, .posInf, .finite 1⟩ }
  else
    { free with
      lower := ⟨.finite 5, .negInf, .negInf⟩
      upper := ⟨.finite 1, .posInf, .posInf⟩ }

/-- Numbers from the parameters, exactly. -/
theorem rational_parameters : rational 0 = 0 ∧ rational 1 = 1 ∧ rational 5 = 5 ∧ rational 10 = 10 := by
  refine ⟨?_, ?_, ?_, ?_⟩
  · rw [rational, show Binary64.parts 0 = ⟨false, 0, -1074⟩ from rfl]
    norm_num
  · rw [rational, show Binary64.parts 1 = ⟨false, 4503599627370496, -52⟩ from rfl]
    norm_num
  · rw [rational, show Binary64.parts 5 = ⟨false, 5629499534213120, -50⟩ from rfl]
    norm_num
  · rw [rational, show Binary64.parts 10 = ⟨false, 5629499534213120, -49⟩ from rfl]
    norm_num

theorem bounds_first (apart : Bool) :
    ((measured apart).param 1 "lb" (.float (-Numeral.infinity))).tensor? = .ok ⟨[], [5]⟩ ∧
      ((measured apart).param 1 "ub" (.float Numeral.infinity)).tensor? = .ok ⟨[], [10]⟩ := by
  constructor <;> rfl

theorem bounds_last (apart : Bool) :
    ((measured apart).param 2 "lb" (.float (-Numeral.infinity))).tensor? = .ok ⟨[], [0]⟩ ∧
      ((measured apart).param 2 "ub" (.float Numeral.infinity)).tensor? = .ok ⟨[], [1]⟩ := by
  constructor <;> rfl

/-- A block with a single lower and a single upper value narrows all its wires alike. -/
theorem quiet_collectBound {n : Network ℚ} {b : TracedBlock ℚ} {lb ub : Float}
    (hl : (n.diagram.param b.source "lb" (.float (-Numeral.infinity))).tensor? = .ok ⟨[], [lb]⟩)
    (hu : (n.diagram.param b.source "ub" (.float Numeral.infinity)).tensor? = .ok ⟨[], [ub]⟩)
    (t : WireTable ℚ) : (n.collectBound t b).Quiet
      (Network.bindWires b.sinkPhases t b.inputs (List.replicate b.inputs.length lb)
        (List.replicate b.inputs.length ub)) := by
  refine Noted.quiet_bind.mpr ⟨some (List.replicate b.inputs.length lb), ?_, ?_⟩
  · exact Noted.quiet_bind.mpr ⟨_, Noted.quiet_lift.mpr hl, rfl⟩
  refine Noted.quiet_bind.mpr ⟨some (List.replicate b.inputs.length ub), ?_, rfl⟩
  exact Noted.quiet_bind.mpr ⟨_, Noted.quiet_lift.mpr hu, rfl⟩

theorem bounded_eq (apart : Bool) : Network.tightenIn (block apart 2).sinkPhases
    (.ofFloat .negInf 0) (.ofFloat .posInf 1) (Network.tightenIn (block apart 1).sinkPhases
      (.ofFloat .negInf 5) (.ofFloat .posInf 10) free) = bounded apart := by
  obtain ⟨h0, h1, h5, h10⟩ := rational_parameters
  have hlimit {f : Limit ℚ} : Limit.ofFloat f 0 = .finite 0 ∧ Limit.ofFloat f 1 = .finite 1 ∧
      Limit.ofFloat f 5 = .finite 5 ∧ Limit.ofFloat f 10 = .finite 10 :=
    ⟨congrArg Limit.finite h0, congrArg Limit.finite h1, congrArg Limit.finite h5,
      congrArg Limit.finite h10⟩
  have hlower : (Limit.finite (5 : ℚ)).max (.finite 0) = .finite 5 := by
    rw [Limit.max_finite, sup_eq_left.mpr (by norm_num)]
  have hupper : (Limit.finite (10 : ℚ)).min (.finite 1) = .finite 1 := by
    rw [Limit.min_finite, inf_eq_right.mpr (by norm_num)]
  rw [hlimit.1, hlimit.2.1, hlimit.2.2.1, hlimit.2.2.2]
  cases apart with
  | true => rfl
  | false =>
    change ({ free with
      lower := ⟨(Limit.finite 5).max (.finite 0), .negInf, .negInf⟩
      upper := ⟨(Limit.finite 10).min (.finite 1), .posInf, .posInf⟩ } : Wire ℚ) = _
    rw [hlower, hupper]
    rfl

theorem collectBounds_laid (apart : Bool) :
    (laid apart free).collectBounds.Quiet (laid apart (bounded apart)) := by
  obtain ⟨hl, hu⟩ := bounds_first apart
  obtain ⟨kl, ku⟩ := bounds_last apart
  have hfirst := quiet_collectBound (n := laid apart free) (b := { block apart 1 with inputs := [0] })
    hl hu
  have hlast := quiet_collectBound (n := laid apart free) (b := { block apart 2 with inputs := [0] })
    kl ku
  unfold Network.collectBounds
  refine Noted.quiet_bind.mpr ⟨⟨[bounded apart], [(out, 0)]⟩, ?_, rfl⟩
  rw [← bounded_eq]
  exact Noted.quiet_bind.mpr ⟨_, hfirst _, Noted.quiet_bind.mpr ⟨_, hlast _, rfl⟩⟩

theorem trace_diagram (apart : Bool) :
    ((diagram apart).trace .zeroOrder).Quiet (laid apart (bounded apart)) := by
  rw [Diagram.trace, prepared_diagram]
  refine Noted.quiet_bind.mpr ⟨_, search_measured apart, ?_⟩
  refine Noted.quiet_bind.mpr ⟨_, rfl, ?_⟩
  refine Noted.quiet_bind.mpr ⟨_, collectBounds_laid apart, ?_⟩
  cases apart <;> rfl

def network (apart : Bool) : Network ℚ :=
  { laid apart (bounded apart) with wires := ((laid apart (bounded apart)).wires.renumber [0]).merge }

theorem merged_diagram (apart : Bool) (steps : Nat) (dt : ℚ) (tableau : Option (Tableau ℚ)) :
    (Run.ofDiagram (.full steps dt .zeroOrder tableau) (diagram apart)).merged =
      some (1, network apart) := by
  refine Run.merged_eq (congrArg Noted.result (trace_diagram apart)) ?_
  cases apart <;> rfl

end Squeeze

/-- The diagnostics say of a variable that no number lies between its bounds: of a net that has an entry
on it, or of the variable itself. -/
def Run.ReportsEmpty (r : Run α) (g : Grid α) (i : Nat) : Prop :=
  ∃ x ∈ r.diagnostics,
    (∃ net phases, x.finding = .emptyInterval net phases ∧ ∃ e ∈ g.entriesAt i, e.net = net) ∨
      ∃ lower upper, x.finding = .mergedInterval i lower upper

section Runs

variable {d : Diagram} {hold : Hold} {steps count : Nat} {dt : α} {tableau : Option (Tableau α)}
  {n : Network α}

open Network in
/-- A run reports every variable that excludes all numbers, unless a lone step has an entry on it whose
bounds exclude one another only across the first and the last phase. -/
theorem Run.empty_reported
    (hmerged : (ofDiagram (.full steps dt hold tableau) d).merged = some (count, n))
    (h₁ : 1 ≤ steps) : ∃ g p,
      (ofDiagram (.full steps dt hold tableau) d).grid = some g ∧
      (ofDiagram (.full steps dt hold tableau) d).program = some p ∧
      ∀ i ∈ p.infeasible,
        (ofDiagram (.full steps dt hold tableau) d).ReportsEmpty g i ∨
        (steps = 1 ∧ ∃ e ∈ g.entriesAt i, ∃ w, (n.wires.group e.net).head? = some w ∧ w.Crossed) := by
  obtain ⟨g, e, p, hrun⟩ := exists_completion hmerged h₁
  refine ⟨g, p, hrun.grid_eq, hrun.program_eq, fun i hi => ?_⟩
  have hweighs := hrun.laid.weighs
  obtain ⟨hmajor, hlt⟩ := hweighs.of_infeasible hrun.builds hi
  obtain ⟨e, he, hempty⟩ | ⟨hlength, hall⟩ := exists_empty_entry hlt
  · obtain ⟨hmem, hindex⟩ := List.mem_filter.mp he
    have hentry : e ∈ g.entriesAt i :=
      List.mem_filter.mpr ⟨List.mem_of_mem_filter hmem, hindex⟩
    obtain ⟨w, hw⟩ := hweighs.entered e hmem
    obtain hphases | ⟨hone, hcrossed⟩ := hw.emptyPhases_or_crossed hempty
    · obtain ⟨hnet, hnote⟩ := notes_noteEmpty hw.first hphases n.diagram.path
      exact .inl ⟨_, hrun.nets _ hnet _ hnote, .inl ⟨_, _, rfl, e, hentry, rfl⟩⟩
    · exact .inr ⟨hone, e, hentry, w, hw.first, hcrossed⟩
  · have hnote := notes_noteMerged hlt hlength hall
    exact .inl ⟨_, hrun.merges i hmajor _ hnote, .inr ⟨_, _, rfl⟩⟩

end Runs

/-- An input squeezed at the first of two steps: its variable there is the one that excludes all
numbers. -/
theorem Run.empty_reported_squeezed :
    (ofDiagram (.full 2 (1 : ℚ) .zeroOrder none) (Squeeze.diagram false)).merged =
      some (1, Squeeze.network false) ∧ 1 ≤ 2 ∧
    ∃ (g : Grid ℚ) (p : Program ℚ),
      (ofDiagram (.full 2 (1 : ℚ) .zeroOrder none) (Squeeze.diagram false)).grid = some g ∧
      (ofDiagram (.full 2 (1 : ℚ) .zeroOrder none) (Squeeze.diagram false)).program = some p ∧
      p.infeasible = [0] ∧ ∀ i ∈ p.infeasible,
        (ofDiagram (.full 2 (1 : ℚ) .zeroOrder none) (Squeeze.diagram false)).ReportsEmpty g i ∨
        (2 = 1 ∧ ∃ e ∈ g.entriesAt i, ∃ w, ((Squeeze.network false).wires.group e.net).head? =
          some w ∧ w.Crossed) := by
  have hmerged := Squeeze.merged_diagram false 2 1 none
  obtain ⟨g, p, hgrid, hprogram, hreported⟩ := empty_reported hmerged (by decide)
  have hinfeasible : (ofDiagram (.full 2 (1 : ℚ) .zeroOrder none)
      (Squeeze.diagram false)).program.map (·.infeasible) = some [0] := by
    unfold Run.ofDiagram
    rw [Squeeze.trace_diagram]
    decide +kernel
  rw [hprogram] at hinfeasible
  exact ⟨hmerged, by decide, g, p, hgrid, hprogram, Option.some.inj hinfeasible, hreported⟩

/-- An input from 5 to 10 at the first step and from 0 to 1 at the last, which is the same one: its
variable excludes all numbers, and there is no finding. -/
theorem Run.crossed_unreported :
    (ofDiagram (.full 1 (1 : ℚ) .zeroOrder none) (Squeeze.diagram true)).diagnostics = [] ∧
      ∃ (g : Grid ℚ) (p : Program ℚ),
        (ofDiagram (.full 1 (1 : ℚ) .zeroOrder none) (Squeeze.diagram true)).grid = some g ∧
        (ofDiagram (.full 1 (1 : ℚ) .zeroOrder none) (Squeeze.diagram true)).program = some p ∧
        0 ∈ p.infeasible ∧
        ¬ (ofDiagram (.full 1 (1 : ℚ) .zeroOrder none) (Squeeze.diagram true)).ReportsEmpty g 0 := by
  obtain ⟨g, _, p, hrun⟩ := exists_completion (Squeeze.merged_diagram true 1 1 none) (by decide)
  have hdiagnostics :
      (ofDiagram (.full 1 (1 : ℚ) .zeroOrder none) (Squeeze.diagram true)).diagnostics = [] := by
    apply List.isEmpty_iff.mp
    unfold Run.ofDiagram
    rw [Squeeze.trace_diagram]
    decide +kernel
  have hinfeasible : (ofDiagram (.full 1 (1 : ℚ) .zeroOrder none)
      (Squeeze.diagram true)).program.map (·.infeasible) = some [0] := by
    unfold Run.ofDiagram
    rw [Squeeze.trace_diagram]
    decide +kernel
  rw [hrun.program_eq] at hinfeasible
  have hlist : p.infeasible = [0] := Option.some.inj hinfeasible
  refine ⟨hdiagnostics, g, p, hrun.grid_eq, hrun.program_eq, ?_, ?_⟩
  · rw [hlist]
    exact List.mem_singleton.mpr rfl
  · intro ⟨x, hx, _⟩
    rw [hdiagnostics] at hx
    cases hx

end Transcription
