import Transcription.Proofs.Block.Faults
import Transcription.Proofs.Network.Tracing

namespace Transcription

variable {α : Type} [Scalar α]

namespace Diagram

def objection (d : Diagram) (b : TracedBlock α) : Option (Diagnostic α) :=
  match b.kind, (d.equations b.source : Except Fault (System α)) with
  | .primitive, .error (.unsupported operation) =>
    some ⟨.unsupported operation, some (d.path b.source)⟩
  | _, _ => none

/-- What a primitive is recorded with: equations over the scalars of its inputs and its outputs, one for
each scalar of the outputs; or no equations, as its operation has no polynomial form. -/
def Lowered (d : Diagram) (b : TracedBlock α) : Prop :=
  (∃ (ws : List ℤ) (n : Nat), d.inputWidths b.source = .ok ws ∧ d.outputWidth b.source = .ok n ∧
    d.equations b.source = .ok b.system ∧ b.system.Proper ∧
    (b.system.width : ℤ) = sumWidths ws + n ∧ b.system.equations.length = n) ∨
  ∃ operation, (d.equations b.source : Except Fault (System α)) = .error (.unsupported operation) ∧
    b.system = .empty 0

variable {d : Diagram} {hold : Hold}

theorem kind_of_objection {b : TracedBlock α} {note : Diagnostic α} (h : d.objection b = some note) :
    note.kind = .unsupported := by
  unfold objection at h
  split at h
  · cases h
    rfl
  · cases h

theorem objection_congr {b c : TracedBlock α} (hsource : c.source = b.source) (hkind : c.kind = b.kind) :
    d.objection c = d.objection b := by
  rw [objection, objection, hsource, hkind]

/-- A primitive is recorded with its equations, or with none and a note. -/
theorem primitive_recorded {i : Nat} {b : TracedBlock α} (hkind : BlockKind.of (d.block i) = .primitive)
    (h : (d.record hold i).result = .ok b) :
    (d.equations i = .ok b.system ∧ (d.record hold i : Noted α _).notes = []) ∨
      ∃ operation, (d.equations i : Except Fault (System α)) = .error (.unsupported operation) ∧
        b.system = .empty 0 ∧
        (d.record hold i : Noted α _).notes = [⟨.unsupported operation, some (d.path i)⟩] := by
  unfold record at h ⊢
  simp only [hkind, primitiveRecord] at h ⊢
  cases he : (d.equations i : Except Fault (System α)) with
  | ok s =>
    simp only [he] at h ⊢
    cases h
    exact .inl ⟨rfl, rfl⟩
  | error e =>
    simp only [he] at h ⊢
    split at h
    · contradiction
    · rename_i operation heq
      obtain rfl := Except.error.inj heq
      cases h
      exact .inr ⟨operation, rfl, rfl, rfl⟩
    · cases h

theorem nonfatal_of_record {i : Nat} {b : TracedBlock α} (hkind : BlockKind.of (d.block i) = .primitive)
    (h : (d.record hold i).result = .ok b) : Nonfatal (d.equations i : Except Fault (System α)) := by
  intro e he
  rcases primitive_recorded hkind h with ⟨hs, _⟩ | ⟨operation, hs, _⟩
  · cases hs.symm.trans he
  · exact ⟨operation, Except.error.inj (he.symm.trans hs)⟩

/-- Nothing is noted of any other block. -/
theorem notes_other {i : Nat} (hkind : BlockKind.of (d.block i) ≠ .primitive) :
    (d.record hold i : Noted α _).notes = [] := by
  have hnone : (d.record hold i : Noted α _).Only fun _ => False := by
    unfold record
    cases hof : BlockKind.of (d.block i) <;> simp only
    case primitive => exact absurd hof hkind
    case input | external => exact Noted.only_lift _
    case bound | cost => exact (Noted.only_lift _).bind fun _ => Noted.only_pure _
    all_goals exact Noted.only_pure _
  exact List.eq_nil_iff_forall_not_mem.mpr hnone

/-- What is noted of a block when it is recorded. -/
theorem notes_record {i : Nat} {b : TracedBlock α} (h : (d.record hold i).result = .ok b) :
    (d.record hold i : Noted α _).notes = (d.objection b).toList := by
  obtain ⟨rfl, hkind⟩ := record_eq h
  by_cases hof : BlockKind.of (d.block b.source) = .primitive
  · rw [objection, hkind, hof]
    rcases primitive_recorded hof h with ⟨he, hnotes⟩ | ⟨operation, he, _, hnotes⟩
    · rw [hnotes, he]
      rfl
    · rw [hnotes, he]
      rfl
  · rw [notes_other hof, objection, hkind]
    split
    · contradiction
    · rfl

theorem lowered_of_ok {b : TracedBlock α} (h : d.equations b.source = .ok b.system) : d.Lowered b := by
  obtain ⟨E, hE, hclosed, ⟨ws, hws, hsum⟩, hout⟩ := equations_eq_ok h
  refine .inl ⟨ws, E.equations.length, hws, hout, h, ?_⟩
  rw [hclosed, hsum]
  exact ⟨(proper_expression hE).closed, Nat.cast_add _ _, E.length_closed⟩

theorem lowered_record {i : Nat} {b : TracedBlock α} (h : (d.record hold i).result = .ok b)
    (hkind : b.kind = .primitive) : d.Lowered b := by
  obtain ⟨rfl, hof⟩ := record_eq h
  rcases primitive_recorded (hof ▸ hkind) h with ⟨he, _⟩ | ⟨operation, he, hempty, _⟩
  · exact lowered_of_ok he
  · exact .inr ⟨operation, he, hempty⟩

/-- Ports that carry numbers of scalars. -/
theorem mapM_portWidth (ports : List Port) (h : ∀ q ∈ ports, ∃ width : Nat, d.portWidth q = .ok width) :
    ∃ ws : List Nat, ports.mapM d.portWidth = .ok (ws.map Nat.cast) := by
  induction ports with
  | nil => exact ⟨[], rfl⟩
  | cons q ports ih =>
    obtain ⟨⟨w, hw⟩, hrest⟩ := List.forall_mem_cons.mp h
    obtain ⟨ws, hws⟩ := ih hrest
    exact ⟨w :: ws, except_mapM_eq_ok.mpr (.cons hw (except_mapM_eq_ok.mp hws))⟩

theorem portWidth_of_driver {q s : Port} (hq : q.side = .inport) (hs : s.side = .outport)
    (h : d.driver q = .ok s) : d.portWidth q = d.portWidth s := by
  rw [portWidth, portWidth, portDims, portDims, hq, hs]
  simp only [h]
  rfl

/-- Without broken connections, primitives that are reached have inputs and outputs of known widths. -/
theorem Legible.exists_sized (h : d.Legible)
    (hwidths : ∀ p, d.Reached p → ∃ width : Nat, d.portWidth p = .ok width) (hintact : ¬ d.Severed)
    {p : Port} (hp : d.Reached p) (hkind : BlockKind.of (d.block p.block) = .primitive) :
    ∃ ws n, d.Sized p.block ws n := by
  have hr : d.reroutes p = false := by
    rw [reroutes, hkind]
    rfl
  have hb : (BlockKind.of (d.block p.block)).isBoundary = false := by
    rw [hkind]
    rfl
  obtain ⟨ws, hws⟩ := mapM_portWidth (d.inports p.block) fun q hq => by
    rcases d.driver_cases q with ⟨s, hs, hsource⟩ | ⟨_, hnone⟩
    · have hside := side_of_mem (h.sourced.mem_of_source (side_inports hq) hsource).1
      rw [portWidth_of_driver (side_inports hq) hside hs]
      exact hwidths s (.driver hp hr hb hq hsource)
    · exact absurd (.inr ⟨p, hp, .inr ⟨q, (follows_iff hr).mpr ⟨hb, hq⟩, hnone⟩⟩) hintact
  obtain ⟨vs, hvs⟩ := mapM_portWidth (d.outports p.block) fun q hq =>
    hwidths q (.beside hp hr hq)
  refine ⟨ws, vs.sum, hws, ?_⟩
  rw [outputWidth, hvs, ← sumWidths_natCast]
  rfl

end Diagram

namespace Search

variable {d : Diagram} {hold : Hold}

theorem objections_push (t : BlockTable α) (b : TracedBlock α) :
    (t.push b).blocks.filterMap d.objection =
      t.blocks.filterMap d.objection ++ (d.objection b).toList := by
  rw [BlockTable.push, List.filterMap_append, List.filterMap_cons, List.filterMap_nil]
  cases d.objection b <;> rfl

/-- A visit notes what there is to note of the block that it records, if any. -/
theorem notes_visit {s : Search α} {p : Port} {v : Visit α} (h : (s.visit d hold p).result = .ok v) :
    v.search.blocks.blocks.filterMap d.objection =
      s.blocks.blocks.filterMap d.objection ++ (s.visit d hold p).notes := by
  unfold visit at h ⊢
  cases hfind : s.blocks.find? p.block with
  | some e =>
    simp only [hfind] at h ⊢
    split at h
    · rename_i hr
      rw [if_pos hr, blocks_visitReroute (show s.visitReroute d e.1 p = .ok v from h)]
      exact (List.append_nil _).symm
    · rename_i hr
      rw [if_neg hr]
      cases h
      exact (List.append_nil _).symm
  | none =>
    simp only [hfind] at h ⊢
    obtain ⟨b, hb, h⟩ := Noted.result_bind.mp h
    rw [Noted.bind_eq hb, Diagram.notes_record hb]
    split at h
    · rename_i hr
      rw [if_pos hr, blocks_visitReroute (show _ = Except.ok v from h), objections_push]
      exact (congrArg _ (List.append_nil _)).symm
    · rename_i hr
      rw [if_neg hr, blocks_visitBlock (show _ = Except.ok v from h), objections_push]
      exact (congrArg _ (List.append_nil _)).symm

/-- A search notes what there is to note of the blocks that it records. -/
theorem notes_run {f : Frontier Port} {s s' : Search α} (h : (run d hold f s).result = .ok s') :
    s'.blocks.blocks.filterMap d.objection =
      s.blocks.blocks.filterMap d.objection ++ (run d hold f s).notes := by
  fun_induction run d hold f s with
  | case1 f s hq =>
    cases h
    exact (List.append_nil _).symm
  | case2 f s p rest hq ih =>
    obtain ⟨v, hv, hrest⟩ := Noted.result_bind.mp h
    rw [ih v hrest, notes_visit hv, Noted.bind_eq hv, List.append_assoc]

theorem notes_start {is : List Nat} {t : BlockTable α} {f : Frontier Port}
    {r : BlockTable α × Frontier Port} (h : (start d hold is t f).result = .ok r) :
    r.1.blocks.filterMap d.objection =
      t.blocks.filterMap d.objection ++ (start d hold is t f).notes := by
  induction is generalizing t f with
  | nil =>
    cases h
    exact (List.append_nil _).symm
  | cons i is ih =>
    unfold start at h ⊢
    obtain ⟨b, hb, h⟩ := Noted.result_bind.mp h
    obtain ⟨drivers, hdrivers, h⟩ := Noted.result_bind.mp h
    rw [ih h, Noted.bind_eq hb, Noted.bind_eq hdrivers, objections_push, Diagram.notes_record hb,
      List.append_assoc]
    rfl

theorem notes_ofDiagram {s : Search α} (h : (ofDiagram d hold).result = .ok s) :
    s.blocks.blocks.filterMap d.objection = (ofDiagram d hold : Noted α _).notes := by
  unfold ofDiagram at h ⊢
  obtain ⟨r, hr, h⟩ := Noted.result_bind.mp h
  rw [notes_run h, notes_start hr, Noted.bind_eq hr]
  rfl

end Search

namespace Network

variable {d : Diagram} {hold : Hold} {n : Network α}

def Structural (note : Diagnostic α) : Prop := note.kind = .structural

def StructuralAt (n : Network α) (b : TracedBlock α) (note : Diagnostic α) : Prop :=
  Structural note ∧ note.block = some (n.path b)

theorem only_expect (n : Network α) (b : TracedBlock α) (ok : Bool) {f : Finding α}
    (hf : f.kind = .structural) : (n.expect b ok f).Only (n.StructuralAt b) := by
  unfold expect
  split
  · exact Noted.only_pure ()
  · exact Noted.only_note ⟨hf, rfl⟩

/-- What the check of a block finds, it finds at the block. -/
theorem only_checkBlock (n : Network α) (place : Nat) (b : TracedBlock α) :
    (n.checkBlock place b).Only (n.StructuralAt b) := by
  have houtputs (width : ℤ) : (n.checkOutputs place b width).Only (n.StructuralAt b) :=
    (only_expect n b _ rfl).bind fun _ => Noted.only_forM (fun _ => only_expect n b _ rfl) _
  unfold checkBlock
  split
  · exact Noted.only_pure _
  · refine (Noted.only_lift _).bind fun _ => (houtputs _).bind fun _ => ?_
    split
    · exact Noted.only_pure _
    · exact (Noted.only_lift _).bind fun _ => (only_expect n _ _ rfl).bind fun _ =>
        only_expect n _ _ rfl

theorem only_collectBounds (n : Network α) : n.collectBounds.Only Structural := by
  have hvalues (b : TracedBlock α) (name : String) (free : Float) :
      (n.boundValues b name free).Only Structural := by
    unfold boundValues
    refine (Noted.only_lift _).bind fun t => ?_
    split
    · exact Noted.only_pure _
    · exact (Noted.only_note (by rfl)).bind fun _ => Noted.only_pure _
  have hbound (t : WireTable α) (b : TracedBlock α) : (n.collectBound t b).Only Structural := by
    unfold collectBound
    refine (hvalues _ _ _).bind fun lower => (hvalues _ _ _).bind fun upper => ?_
    split <;> exact Noted.only_pure _
  exact (Noted.only_foldlM hbound _ _).bind fun _ => Noted.only_pure _

theorem only_check (n : Network α) : n.check.Only Structural :=
  Noted.only_forM (fun e note hnote => (only_checkBlock n e.1 e.2 note hnote).1) _

omit [Scalar α] in
theorem filter_unsupported {notes : List (Diagnostic α)} (h : ∀ note ∈ notes, Structural note) :
    notes.filter (·.kind = .unsupported) = [] := by
  refine List.filter_eq_nil_iff.mpr fun note hnote => ?_
  rw [h note hnote]
  decide

/-- What there is to note of blocks does not change as they are wired. -/
theorem objections_wireBlock {t : WireTable α} {bs cs : List (TracedBlock α)}
    (h : bs.mapM (wireBlock d t) = .ok cs) : cs.filterMap d.objection = bs.filterMap d.objection := by
  have hobjections : cs.map d.objection = bs.map d.objection :=
    except_mapM_map (fun _ _ hw => Diagram.objection_congr (wires_wireBlock hw).source_eq
      (wires_wireBlock hw).kind_eq) h
  have hids (bs : List (TracedBlock α)) :
      (bs.map d.objection).filterMap id = bs.filterMap d.objection := List.filterMap_map
  rw [← hids, hobjections, hids]

/-- The primitives of a traced network are lowered, and each without equations is noted once. -/
theorem lowered_traceMeasured (h : (traceMeasured d hold).result = .ok n) :
    (∀ b ∈ n.blocks.blocks, b.kind = .primitive → d.Lowered b) ∧
      (traceMeasured d hold : Noted α (Network α)).notes.filter (·.kind = .unsupported) =
        n.blocks.blocks.filterMap d.objection := by
  unfold traceMeasured at h ⊢
  obtain ⟨search, hsearch, h⟩ := Noted.result_bind.mp h
  obtain ⟨wired, hwired, h⟩ := Noted.result_bind.mp h
  obtain ⟨bounded, hbounded, h⟩ := Noted.result_bind.mp h
  obtain ⟨_, hcheck, h⟩ := Noted.result_bind.mp h
  cases h
  have hview (w : Wire α) p l u : (w.tighten p l u).signal = w.signal := rfl
  obtain ⟨_, hkept, _⟩ := agree_collectBounds hview hbounded
  obtain ⟨_, _, hblocks⟩ := ofSearch_eq_ok (show ofSearch d search = .ok wired from hwired)
  have hkept : bounded.collectCosts.blocks.blocks = wired.blocks.blocks :=
    congrArg BlockTable.blocks hkept
  constructor
  · intro b hb hkind
    obtain ⟨c, hc, hw⟩ := exists_wires_of_mem hwired (hkept ▸ hb)
    obtain ⟨_, hrecord⟩ := (Search.sound_ofDiagram hsearch).recorded c hc
    have hlowered := Diagram.lowered_record hrecord (hw.kind_eq.symm.trans hkind)
    rwa [Diagram.Lowered, ← hw.source_eq, ← hw.system_eq] at hlowered
  · have hall : ∀ note ∈ search.blocks.blocks.filterMap d.objection, note.kind = .unsupported := by
      intro note hnote
      obtain ⟨b, _, hb⟩ := List.mem_filterMap.mp hnote
      exact Diagram.kind_of_objection hb
    rw [Noted.bind_eq hsearch, Noted.bind_eq hwired, Noted.bind_eq hbounded, Noted.bind_eq hcheck, hkept,
      objections_wireBlock hblocks, ← Search.notes_ofDiagram hsearch]
    simp only [List.filter_append]
    rw [filter_unsupported (only_collectBounds _), filter_unsupported (only_check _),
      List.filter_eq_self.mpr fun note hnote => decide_eq_true (hall note hnote)]
    exact List.append_nil _

end Network

namespace Pair

def drawn (type : String) : Diagram where
  name := "pair"
  workspace := []
  blocks := #[
    ⟨"u", "SubSystem", "pair/u", some "InputFromWorkspace", none, [], 0, [some [1, 1]]⟩,
    ⟨"middle", type, "pair/middle", none, none, [], 2, [some [1, 1]]⟩,
    ⟨"cost", "SubSystem", "pair/cost", some "DiscreteCost", none, [], 1, []⟩]
  lines := [⟨⟨0, .outport, 1⟩, ⟨1, .inport, 1⟩⟩, ⟨⟨0, .outport, 1⟩, ⟨1, .inport, 2⟩⟩,
    ⟨⟨1, .outport, 1⟩, ⟨2, .inport, 1⟩⟩]

def measured (type : String) : Diagram :=
  { drawn type with compiled := some [(⟨0, .outport, 1⟩, [1, 1]), (⟨1, .outport, 1⟩, [1, 1])] }

def Typed (type : String) : Prop := type = "Gain" ∨ type = "MinMax"

variable {type : String}

theorem measured_drawn (h : Typed type) : (drawn type).measured = .ok (measured type) := by
  obtain rfl | rfl := h
  all_goals cbv

def kind : Nat → BlockKind
  | 0 => .input
  | 1 => .primitive
  | _ => .cost

theorem kind_measured (h : Typed type) {i : Nat} (hi : i < 3) :
    BlockKind.of ((measured type).block i) = kind i := by
  obtain rfl | rfl | rfl : i = 0 ∨ i = 1 ∨ i = 2 := by omega
  · simp [kind, BlockKind.of, Diagram.block, measured, drawn, Diagram.boundReference,
      Diagram.costReference, Diagram.inputReferences]
  · obtain rfl | rfl := h <;> cbv
  · cbv

theorem sinks_measured (h : Typed type) : Search.sinks (measured type) = [2] := by
  obtain rfl | rfl := h
  all_goals cbv

theorem param_measured {i : Nat} (hi : i < 3) (name : String) (v : Value) :
    (measured type).param i name v = v := by
  obtain rfl | rfl | rfl : i = 0 ∨ i = 1 ∨ i = 2 := by omega
  all_goals rfl

theorem legible_measured (h : Typed type) : (measured type).Legible := by
  have hother {k : BlockKind} (hk : k ∉ [.input, .primitive, .cost]) :
      ∀ i < (measured type).blocks.size, BlockKind.of ((measured type).block i) ≠ k := by
    intro i hi heq
    rw [kind_measured h hi] at heq
    refine hk (heq ▸ ?_)
    exact (by decide : ∀ i < 3, kind i ∈ [.input, .primitive, .cost]) i hi
  have htype : ∀ i < 3, ((measured type).block i).type ∉
      ["Goto", "Outport", "Demux", "Inport", "From"] := by
    obtain rfl | rfl := h
    all_goals decide
  have hfree {types : List String} (hsub : types ⊆ ["Goto", "Outport", "Demux", "Inport", "From"]) :
      ∀ i < (measured type).blocks.size, ((measured type).block i).type ∉ types :=
    fun i hi hmem => htype i hi (hsub hmem)
  exact {
    compiled := rfl
    drawn := by
      obtain rfl | rfl := h
      all_goals decide
    ends := by
      rw [sinks_measured h]
      obtain rfl | rfl := h
      all_goals decide
    single := fun i hi hmem => absurd hmem (hfree (by decide) i hi)
    numbered := fun i hi hmem => absurd hmem (hfree (by decide) i hi)
    muxes := fun i hi _ hmux => absurd hmux (hother (by decide) i hi)
    windows := fun i hi _ => ⟨_, by rw [param_measured hi]; rfl⟩
    holds := fun i hi _ => .inl (param_measured hi _ _)
    bounds := fun i hi hbound => absurd hbound (hother (by decide) i hi)
    tagged := fun i hi hmem => absurd hmem (hfree (by decide) i hi)
    comparable := fun i hi hfrom => absurd (List.mem_singleton.mpr hfrom) (hfree (by decide) i hi)
    switches := fun i hi _ p => ⟨true, by rw [param_measured hi]; rfl⟩ }

def out (i : Nat) : Port := ⟨i, .outport, 1⟩

theorem source_measured {i : Nat} (hi : i < 3) {q : Port} (hq : q ∈ (measured type).inports i) :
    (measured type).source? q = some (out (i - 1)) := by
  obtain rfl | rfl | rfl : i = 0 ∨ i = 1 ∨ i = 2 := by omega
  · cases hq
  · rcases List.mem_cons.mp hq with rfl | hq
    · rfl
    · obtain rfl := List.mem_singleton.mp hq
      rfl
  · obtain rfl := List.mem_singleton.mp hq
    rfl

theorem kind_out (h : Typed type) {i : Nat} (hi : i < 2) :
    BlockKind.of ((measured type).block (out i).block) = kind i :=
  kind_measured h (show i < 3 by omega)

theorem reroutes_out (h : Typed type) {i : Nat} (hi : i < 2) :
    (measured type).reroutes (out i) = false := by
  rw [Diagram.reroutes, kind_out h hi]
  obtain rfl | rfl : i = 0 ∨ i = 1 := by omega
  all_goals rfl

/-- Nothing is reached but the outports of the input and of the block. -/
theorem eq_out_of_reached (h : Typed type) {p : Port} (hp : (measured type).Reached p) :
    ∃ i < 2, p = out i := by
  induction hp with
  | sink hi hq hs =>
    rw [sinks_measured h] at hi
    obtain rfl := List.mem_singleton.mp hi
    cases hs.symm.trans (source_measured (by decide) hq)
    exact ⟨1, by decide, rfl⟩
  | routed _ hr _ _ ih =>
    obtain ⟨i, hi, rfl⟩ := ih
    cases hr.symm.trans (reroutes_out h hi)
  | beside _ _ hq ih =>
    obtain ⟨i, hi, rfl⟩ := ih
    refine ⟨i, hi, ?_⟩
    obtain rfl | rfl : i = 0 ∨ i = 1 := by omega
    all_goals exact List.mem_singleton.mp hq
  | driver _ _ _ hq hs ih =>
    obtain ⟨i, hi, rfl⟩ := ih
    refine ⟨i - 1, by omega, ?_⟩
    exact Option.some.inj (hs.symm.trans (source_measured (by omega) hq))

theorem reached_out (h : Typed type) {i : Nat} (hi : i < 2) : (measured type).Reached (out i) := by
  have hmiddle : (measured type).Reached (out 1) := by
    refine .sink (i := 2) (q := ⟨2, .inport, 1⟩) ?_ (List.mem_singleton.mpr rfl) rfl
    rw [sinks_measured h]
    exact List.mem_singleton.mpr rfl
  obtain rfl | rfl : i = 0 ∨ i = 1 := by omega
  · refine .driver hmiddle (reroutes_out h (by decide)) ?_ (q := ⟨1, .inport, 1⟩) List.mem_cons_self rfl
    rw [kind_out h (by decide)]
    rfl
  · exact hmiddle

theorem widths_measured (h : Typed type) {p : Port} (hp : (measured type).Reached p) :
    ∃ width : Nat, (measured type).portWidth p = .ok width := by
  obtain ⟨i, hi, rfl⟩ := eq_out_of_reached h hp
  refine ⟨1, ?_⟩
  obtain rfl | rfl : i = 0 ∨ i = 1 := by omega
  all_goals rfl

theorem intact_measured (h : Typed type) : ¬ (measured type).Severed := by
  rintro (⟨i, hi, q, hq, hnone⟩ | ⟨p, hp, hsevered⟩)
  · rw [sinks_measured h] at hi
    obtain rfl := List.mem_singleton.mp hi
    cases hnone.symm.trans (source_measured (by decide) hq)
  · obtain ⟨i, hi, rfl⟩ := eq_out_of_reached h hp
    rcases hsevered with hlacks | ⟨q, hq, hnone⟩
    · exact Diagram.not_lacks (reroutes_out h hi) hlacks
    · have hq := ((Diagram.follows_iff (reroutes_out h hi)).mp hq).2
      cases hnone.symm.trans (source_measured (by omega : i < 3) hq)

theorem trace_gain : ((drawn "Gain").trace .zeroOrder : Noted ℚ (Network ℚ)).result =
    .error .inportCount := by
  have hsearch : (Search.ofDiagram (measured "Gain") .zeroOrder : Noted ℚ (Search ℚ)).result =
      .error .inportCount := by
    unfold Search.ofDiagram
    rw [sinks_measured (.inl rfl)]
    change (Search.run (measured "Gain") .zeroOrder ⟨[out 0], [out 1]⟩ _).result = _
    rw [Search.run_cons]
    rfl
  rw [Diagram.trace, Diagram.prepared, measured_drawn (.inl rfl)]
  exact Noted.result_halt hsearch

theorem formed_measured (h : Typed "MinMax") {p : Port} (hp : (measured "MinMax").Reached p)
    (hkind : BlockKind.of ((measured "MinMax").block p.block) = .primitive) :
    (measured "MinMax").Formed ℚ p.block := by
  obtain ⟨i, hi, rfl⟩ := eq_out_of_reached h hp
  rw [kind_out h hi] at hkind
  obtain rfl : i = 1 := (by decide : ∀ i < 2, kind i = .primitive → i = 1) i hi hkind
  trivial

end Pair

end Transcription
