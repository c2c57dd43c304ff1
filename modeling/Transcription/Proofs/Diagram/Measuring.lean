import Transcription.Network.Trace
import Transcription.Proofs.Noted

namespace Transcription.Diagram

structure Matches (d d' : Diagram) : Prop where
  blocks_eq : d'.blocks = d.blocks
  workspace_eq : d'.workspace = d.workspace
  source_eq : d'.source? = d.source?

variable {d d' : Diagram}

section Matches

variable (h : d.Matches d')

include h

theorem Matches.block_eq : d'.block = d.block := by
  funext i
  rw [block, block, h.blocks_eq]

theorem Matches.param?_eq : d'.param? = d.param? := by
  funext i name
  rw [param?, param?, h.block_eq, h.workspace_eq]

theorem Matches.param_eq : d'.param = d.param := by
  funext i name v
  rw [param, param, h.param?_eq]

theorem Matches.required_eq : d'.required = d.required := by
  funext i name
  rw [required, required, h.param?_eq, path, path, h.block_eq]

theorem Matches.inports_eq : d'.inports = d.inports := by
  funext i
  rw [inports, inports, h.block_eq]

theorem Matches.port_eq : d'.port = d.port := by
  funext side i number
  rw [port, port]
  cases side <;> simp only [count, h.block_eq]

theorem Matches.firstNumbered_eq (n : Int) (is : List Nat) :
    d'.firstNumbered n is = d.firstNumbered n is := by
  induction is with
  | nil => rfl
  | cons i is ih => rw [firstNumbered, firstNumbered, h.required_eq, ih]

theorem Matches.innerPort?_eq : d'.innerPort? = d.innerPort? := by
  funext subsystem type n
  rw [innerPort?, innerPort?, h.firstNumbered_eq, h.blocks_eq, h.block_eq]

theorem Matches.ancestors_eq (fuel i : Nat) : d'.ancestors fuel i = d.ancestors fuel i := by
  induction fuel generalizing i with
  | zero => rfl
  | succ fuel ih =>
    rw [ancestors, ancestors, h.block_eq]
    cases (d.block i).parent with
    | none => rfl
    | some p => exact congrArg (p :: ·) (ih p)

theorem Matches.find_eq : d'.find = d.find := by
  have hinside : d'.isInside = d.isInside := by
    funext i scope
    rw [isInside, isInside, h.ancestors_eq]
  funext references type scope
  rw [find, find, h.blocks_eq, h.block_eq, hinside]

theorem Matches.hasTag_eq : d'.hasTag = d.hasTag := by
  funext i j tag
  rw [hasTag, hasTag, sharesTag, sharesTag, h.required_eq, h.block_eq, h.workspace_eq]

theorem Matches.goto?_eq : d'.goto? = d.goto? := by
  funext i
  rw [goto?, goto?, h.required_eq, h.find_eq, h.block_eq, h.hasTag_eq]

theorem Matches.inputDims_eq : d'.inputDims = d.inputDims := by
  funext known q
  rw [inputDims, inputDims, h.source_eq]

theorem Matches.infer_eq : d'.infer = d.infer := by
  funext known partly p
  unfold infer
  rw [h.block_eq, h.inports_eq, h.inputDims_eq, h.required_eq, h.param_eq, h.port_eq, h.innerPort?_eq,
    h.goto?_eq]

theorem Matches.sweep_eq (partly : Bool) (ps : List Port) (known : Known) :
    d'.sweep partly ps known = d.sweep partly ps known := by
  induction ps generalizing known with
  | nil => rfl
  | cons p ps ih =>
    rw [sweep, sweep, h.infer_eq]
    simp only [ih]

theorem Matches.settle_eq (partly : Bool) (pending : List Port) (known : Known) :
    d'.settle partly pending known = d.settle partly pending known := by
  fun_induction Diagram.settle d partly pending known with
  | case1 partly pending known hempty => rw [settle, if_pos hempty]
  | case2 partly pending known hpending e hsweep =>
    rw [settle, if_neg hpending, h.sweep_eq, hsweep]
  | case3 partly pending known hpending known' pending' hsweep hless ih =>
    rw [settle, if_neg hpending, h.sweep_eq, hsweep]
    simp only [hless, dite_true, ih]
  | case4 pending known hpending known' pending' hstuck hsweep =>
    rw [settle, if_neg hpending, h.sweep_eq, hsweep]
    simp only [hstuck, dite_false, if_true]
  | case5 partly pending known hpending known' pending' hsweep hstuck hstrict ih =>
    rw [settle, if_neg hpending, h.sweep_eq, hsweep]
    simp only [hstuck, dite_false, hstrict, Bool.false_eq_true, if_false, ih]

/-- Dimensions follow from blocks, workspace and drivers alone. -/
theorem Matches.dimensions_eq : d'.dimensions = d.dimensions := by
  have houtports : d'.allOutports = d.allOutports := by
    have houtports : d'.outports = d.outports := by
      funext i
      rw [outports, outports, h.block_eq]
    rw [allOutports, allOutports, h.blocks_eq, houtports]
  rw [dimensions, dimensions, houtports, h.block_eq]
  simp only [h.settle_eq]

end Matches
def Current (d : Diagram) : Prop := ∀ known, d.compiled = some known → d.dimensions = .ok known

theorem measured_eq_ok {d' : Diagram} (h : d.measured = .ok d') : ∃ known,
    d' = { d with compiled := some known } ∧ (d.compiled = some known ∨ d.dimensions = .ok known) := by
  unfold measured at h
  split at h
  · rename_i hsome
    cases h
    obtain ⟨known, hknown⟩ := Option.isSome_iff_exists.mp hsome
    exact ⟨known, by rw [← hknown], .inl hknown⟩
  · obtain ⟨known, hknown, h⟩ := except_bind_eq_ok.mp h
    cases h
    exact ⟨known, rfl, .inr hknown⟩

/-- Working out dimensions changes nothing that is drawn. -/
theorem exists_prepared (d : Diagram) : ∃ compiled, d.prepared = { d with compiled } := by
  unfold prepared
  split
  · rename_i hd'
    obtain ⟨known, rfl, _⟩ := measured_eq_ok hd'
    exact ⟨some known, rfl⟩
  · exact ⟨d.compiled, rfl⟩

theorem outports_prepared (d : Diagram) (i : Nat) : d.prepared.outports i = d.outports i := by
  obtain ⟨compiled, heq⟩ := exists_prepared d
  rw [heq]
  rfl

theorem param_prepared (d : Diagram) (i : Nat) (name : String) (default : Value) :
    d.prepared.param i name default = d.param i name default := by
  obtain ⟨compiled, heq⟩ := exists_prepared d
  rw [heq]
  rfl

end Transcription.Diagram
