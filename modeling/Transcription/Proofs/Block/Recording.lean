import Transcription.Proofs.Block.Expressions

namespace Transcription

variable {α : Type} [Scalar α]

theorem BlockKind.of_input {b : Diagram.Block} (h : b.reference = some "InputFromWorkspace") :
    BlockKind.of b = .input := by
  simp [BlockKind.of, h, Diagram.boundReference, Diagram.costReference, Diagram.inputReferences]

theorem BlockKind.isSink_of_isBoundary {k : BlockKind} (h : k.isBoundary = true) :
    k.isSink = false := by
  revert h
  cases k <;> decide

theorem BlockKind.isSink_of_plain {k : BlockKind} (h : k = .integrator ∨ k.isReroute = true) :
    k.isSink = false := by
  revert h
  cases k <;> decide

theorem BlockKind.isBoundary_of_plain {k : BlockKind} (h : k = .integrator ∨ k.isReroute = true) :
    k.isBoundary = false := by
  revert h
  cases k <;> decide

namespace Diagram

variable {d : Diagram} {hold : Hold} {i : Nat} {b : TracedBlock α}

/-- The record of an input that says nothing of windows or of how it is held. -/
theorem record_plainInput (h : (d.block i).reference = some "InputFromWorkspace")
    (hwindow : d.param i "move_blocking_info" .none = .none)
    (hhold : d.param i "interpType" .none = .none) : (d.record hold i : Noted α (TracedBlock α)) =
      ⟨[], .ok { source := i, kind := .input, hold := some hold }⟩ := by
  simp only [Diagram.record, BlockKind.of_input h, Diagram.boundaryRecord, hwindow, hhold,
    Period.ofValue]
  rfl

/-- What a block can be recorded as, by its kind. -/
inductive RecordedAs (d : Diagram) (hold : Hold) (i : Nat) : TracedBlock α → Prop
  | lowered {system : System α} (hkind : BlockKind.of (d.block i) = .primitive)
      (hsystem : d.equations i = .ok system) :
      RecordedAs d hold i { source := i, kind := .primitive, system }
  | unsupported {operation : Unsupported} (hkind : BlockKind.of (d.block i) = .primitive)
      (hsystem : (d.equations i : Except Fault (System α)) = .error (.unsupported operation)) :
      RecordedAs d hold i { source := i, kind := .primitive }
  | boundary {period : Period} {offset : Int} {held : Hold}
      (hboundary : (BlockKind.of (d.block i)).isBoundary = true)
      (hwindow : Period.ofValue (d.param i "move_blocking_info" .none) = .ok (period, offset))
      (hheld : d.param i "interpType" .none = .none ∧ held = hold ∨
        Hold.ofValue (d.param i "interpType" .none) = .ok held) :
      RecordedAs d hold i
        { source := i, kind := BlockKind.of (d.block i), period, offset, hold := some held }
  | delay (hkind : BlockKind.of (d.block i) = .delay) :
      RecordedAs d hold i { source := i, kind := .delay, hold := some .zeroOrder }
  | sink {phases : PhaseSet} (hsink : (BlockKind.of (d.block i)).isSink = true)
      (hphases : d.sinkPhases i = .ok phases) :
      RecordedAs d hold i { source := i, kind := BlockKind.of (d.block i), sinkPhases := phases }
  | plain (hplain : BlockKind.of (d.block i) = .integrator ∨
        (BlockKind.of (d.block i)).isReroute = true) :
      RecordedAs d hold i { source := i, kind := BlockKind.of (d.block i) }

theorem recordedAs_boundary (hboundary : (BlockKind.of (d.block i)).isBoundary = true)
    (h : d.boundaryRecord hold i (BlockKind.of (d.block i)) = .ok b) : d.RecordedAs hold i b := by
  unfold boundaryRecord at h
  obtain ⟨⟨period, offset⟩, hwindow, h⟩ := except_bind_eq_ok.mp h
  simp only at h
  split at h
  · rename_i hnone
    obtain ⟨held, hheld, h⟩ := except_bind_eq_ok.mp h
    cases h
    exact .boundary hboundary hwindow (.inl ⟨hnone, (Except.ok.inj hheld).symm⟩)
  · obtain ⟨held, hheld, h⟩ := except_bind_eq_ok.mp h
    cases h
    exact .boundary hboundary hwindow (.inr hheld)

/-- Every record is one of them. -/
theorem recordedAs (h : (d.record hold i).result = .ok b) : d.RecordedAs hold i b := by
  -- the kinds that share a constructor, before their name is put for the kind of the block
  have hboundary := @recordedAs_boundary α _ d hold i b
  have hsink := @RecordedAs.sink α _ d hold i
  have hplain := @RecordedAs.plain α _ d hold i
  unfold record at h
  cases hkind : BlockKind.of (d.block i) <;> simp only [hkind] at h hboundary hsink hplain
  case primitive =>
    unfold primitiveRecord at h
    split at h
    · rename_i system hsystem
      cases h
      exact .lowered hkind hsystem
    · rename_i operation hsystem
      obtain ⟨_, _, h⟩ := Noted.result_bind.mp h
      cases h
      exact .unsupported hkind hsystem
    · cases h
  case input | external => exact hboundary rfl h
  case bound | cost =>
    obtain ⟨phases, hphases, h⟩ := Noted.result_bind.mp h
    cases h
    exact hsink rfl hphases
  case delay =>
    cases h
    exact .delay hkind
  case integrator =>
    cases h
    exact hplain (.inl trivial)
  all_goals
    cases h
    exact hplain (.inr rfl)

/-- What is recorded is the block that was asked for, with its kind. -/
theorem record_eq (h : (d.record hold i).result = .ok b) :
    b.source = i ∧ b.kind = BlockKind.of (d.block i) := by
  cases recordedAs h with
  | lowered hkind | unsupported hkind | delay hkind => exact ⟨rfl, hkind.symm⟩
  | boundary | sink | plain => exact ⟨rfl, rfl⟩

/-- An input from outside is recorded with the windows that its parameter asks for. -/
theorem record_period (h : (d.record hold i).result = .ok b) (hk : b.kind.isBoundary = true) :
    Period.ofValue (d.param i "move_blocking_info" .none) = .ok (b.period, b.offset) := by
  cases recordedAs h with
  | boundary _ hwindow => exact hwindow
  | lowered | unsupported | delay => cases hk
  | sink hsink => cases (BlockKind.isSink_of_isBoundary hk).symm.trans hsink
  | plain hplain => cases (BlockKind.isBoundary_of_plain hplain).symm.trans hk

/-- A sink is recorded with the phases in which it is switched on. -/
theorem record_sinkPhases (h : (d.record hold i).result = .ok b) (hk : b.kind.isSink = true) :
    d.sinkPhases i = .ok b.sinkPhases := by
  cases recordedAs h with
  | sink _ hphases => exact hphases
  | lowered | unsupported | delay => cases hk
  | boundary hboundary => cases (BlockKind.isSink_of_isBoundary hboundary).symm.trans hk
  | plain hplain => cases (BlockKind.isSink_of_plain hplain).symm.trans hk

/-- Only primitives are recorded with equations. -/
theorem record_system (h : (d.record hold i).result = .ok b) (hk : b.kind ≠ .primitive) :
    b.system = .empty 0 := by
  cases recordedAs h with
  | lowered => exact absurd rfl hk
  | unsupported | boundary | delay | sink | plain => rfl

/-- What is recorded of a block has no equation beyond its ports. -/
theorem proper_record (h : (d.record hold i).result = .ok b) : b.system.Proper := by
  cases recordedAs h with
  | lowered _ hsystem =>
    obtain ⟨E, hE, rfl, _⟩ := equations_eq_ok hsystem
    exact (proper_expression hE).closed
  | unsupported | boundary | delay | sink | plain => exact System.proper_empty 0

/-- A primitive that is recorded without a finding has its equations. -/
theorem exists_equations (h : (d.record hold i).Quiet b)
    (hkind : BlockKind.of (d.block i) = .primitive) :
    ∃ system : System α, d.equations i = .ok system := by
  unfold record at h
  simp only [hkind, primitiveRecord] at h
  split at h
  · exact ⟨_, ‹_›⟩
  · obtain ⟨u, hu, _⟩ := Noted.quiet_bind.mp h
    exact absurd hu Noted.not_quiet_note
  · cases Noted.quiet_ofResult.mp h

structure Records (d : Diagram) (i : Nat) (b : TracedBlock α) : Prop where
  source_eq : b.source = i
  system_eq : b.kind = .primitive → d.equations i = .ok b.system
  hold_eq : b.kind = .delay → b.hold = some .zeroOrder

theorem records (h : (d.record hold i).Quiet b) : d.Records i b := by
  have hresult := congrArg Noted.result h
  refine ⟨(record_eq hresult).1, fun hk => ?_, fun hk => ?_⟩
  · cases recordedAs hresult with
    | lowered _ hsystem => exact hsystem
    | unsupported hkind hsystem =>
      obtain ⟨system, hs⟩ := exists_equations h hkind
      cases hs.symm.trans hsystem
    | delay => cases hk
    | boundary hkind | sink hkind | plain hkind =>
      rw [show BlockKind.of (d.block i) = .primitive from hk] at hkind
      simp [BlockKind.isBoundary, BlockKind.isSink, BlockKind.isReroute] at hkind
  · cases recordedAs hresult with
    | delay => rfl
    | lowered | unsupported => cases hk
    | boundary hkind | sink hkind | plain hkind =>
      rw [show BlockKind.of (d.block i) = .delay from hk] at hkind
      simp [BlockKind.isBoundary, BlockKind.isSink, BlockKind.isReroute] at hkind

end Diagram

end Transcription
