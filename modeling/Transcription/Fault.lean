import Transcription.Value.Display

namespace Transcription

/-- A connection that a signal cannot be traced through. -/
inductive Broken where
  | inport (number : Nat)
  | noOutport (number : Nat)
  | noInport (number : Int)
  | noGoto (tag : Value)
  | neverReached (outport : Nat)

def Broken.message : Broken → String
  | inport n => s!"Inport {n} is not connected"
  | noOutport n => s!"No Outport block for outport {n}"
  | noInport n => s!"Subsystem has no inport {n}"
  | noGoto tag => s!"No Goto block for tag {tag.quoted}"
  | neverReached n => s!"Outport {n} was never reached"

/-- An operation without a polynomial form. -/
inductive Unsupported where
  | blockType (name : String)
  | operators (unknown : List Char) (spec : Value)
  | operands (count : Int) (spec : Value) (inports : Nat)
  | lengths (widths : List Int)
  | inputColumns (used : Nat) (present : Int)
  | values (defined : Nat) (outputs : Int)
  | multiplication (kind : Value)
  | gainMultiplication (kind : Value)
  | constantLength (size : Nat) (outputs : Int)
  | gainLength (size : Nat) (width : Int)
  | biasLength (size : Nat) (width : Int)

def Unsupported.message : Unsupported → String
  | blockType name =>
    s!"Block type {Quoted.encode name} is not supported by the lowering pass"
  | operators unknown spec =>
    let shown := bracketed (unknown.map fun c => Quoted.encode c.toString)
    s!"Unknown operators {shown} in Inputs {spec.quoted}"
  | operands count spec inports =>
    s!"Inputs {spec.quoted} lists {max count 0} operands for {inports} inports"
  | lengths widths =>
    s!"Elementwise inputs of different lengths {bracketed (widths.map toString)}"
  | inputColumns used present =>
    s!"Expression uses {used} input columns, block has {present}"
  | values defined outputs =>
    s!"Expression defines {defined} values, block has {outputs} outputs"
  | multiplication kind => s!"Multiplication {kind.quoted} is not supported"
  | gainMultiplication kind => s!"Gain multiplication {kind.quoted} is not supported"
  | constantLength size outputs => s!"Constant with {size} values drives {outputs} outputs"
  | gainLength size width => s!"Gain of length {size} on input of width {width}"
  | biasLength size width => s!"Bias of length {size} on input of width {width}"

inductive Fault where
  | connection (block : String) (broken : Broken)
  | unsupported (operation : Unsupported)
  | missingParameter (block name : String)
  | outDimsCount (block : String) (outports : Int) (given : Nat)
  | alreadyDriven (block : String) (inport : Nat)
  | alreadyRecorded (block : String)
  | coefficientColumns (columns monomials : Nat)
  | pointLength (expected got : Nat)
  | outputCount (rows outputs : Int)
  | columnTargets (needed got : Nat)
  | maskLength (got expected : Nat)
  | blockWidth (columns width : Nat)
  | horizonTooShort (steps : Int)
  | horizonNotPositive (given : Value)
  | stepSize (given : Float)
  | defaultHold (given : Value)
  | holdType (given : Value)
  | tableauMissing
  | tableauEmpty
  | tableauCoupling (shape : List Nat) (stages : Nat)
  | tableauTimes (shape : List Nat) (stages : Nat)
  | tableauMismatch
  | blockingPeriod (given : Float)
  | blockingOffset (given : Float)
  | diagnosticKind (given : String)
  | noVariable (name : String)
  /-- A text that is no number where one is needed. -/
  | notANumber
  /-- Nested lists of unequal lengths where an array is needed. -/
  | ragged
  /-- A block with another number of inports than its operation has. -/
  | inportCount
  | columnOutside
  /-- A double that is not a number where an integer is needed. -/
  | noInteger
  | negativeSize
  /-- An array of several entries where one truth value is needed. -/
  | severalTruths
  /-- A value of the wrong kind. -/
  | wrongKind
  /-- A number beyond the range of the kind that is needed. -/
  | tooLarge
  /-- A list of more members than memory can have. -/
  | noRoom
  | indexOutside
  | keyMissing
  | divisionByZero

namespace Fault

/-- The wording of a fault. Those of plain numbers, indices and kinds have none of their own. -/
def message : Fault → Option String
  | connection block broken => some s!"{broken.message} (block {Quoted.encode block})"
  | unsupported operation => some operation.message
  | missingParameter block name =>
    some s!"Block {Quoted.encode block} has no parameter {Quoted.encode name}"
  | outDimsCount block outports given =>
    some s!"Block {Quoted.encode block} has {outports} outports but {given} out_dims"
  | alreadyDriven block n => some s!"Port({Quoted.encode block}, inport, {n}) is already driven"
  | alreadyRecorded block => some s!"Block {Quoted.encode block} already recorded"
  | coefficientColumns columns monomials =>
    some s!"K has {columns} columns but P has {monomials} monomials"
  | pointLength expected got => some s!"Expected {expected} values, got shape {shapeText [got]}"
  | outputCount rows outputs => some s!"Expression system has {rows} rows for {outputs} outputs"
  | columnTargets needed got => some s!"Need {needed} column targets, got {got}"
  | maskLength got expected =>
    some s!"Keep mask has shape {shapeText [got]}, expected {shapeText [expected]}"
  | blockWidth columns width => some s!"Block with {columns} columns exceeds width {width}"
  | horizonTooShort steps => some s!"horizon must be at least 1, got {steps}"
  | horizonNotPositive given => some s!"horizon must be a positive integer, got {given.quoted}"
  | stepSize given => some s!"dt must be positive, got {Numeral.ofFloat given}"
  | defaultHold given => some s!"default_hold must be 'ZOH' or 'FOH', got {given.quoted}"
  | holdType given => some s!"Unknown hold type {given.quoted}"
  | tableauMissing => some "integ_method 'custom' requires a ButcherTableau"
  | tableauEmpty => some "Butcher tableau needs at least one stage"
  | tableauCoupling shape stages =>
    some s!"Tableau A has shape {shapeText shape}, expected {shapeText [stages, stages]}"
  | tableauTimes shape stages =>
    some s!"Tableau c has shape {shapeText shape}, expected {shapeText [stages]}"
  | tableauMismatch => some "Horizon has minor stages but no matching Butcher tableau"
  | blockingPeriod given =>
    some s!"Move-blocking period must be a positive integer or inf, got {Numeral.ofFloat given}"
  | blockingOffset given =>
    some s!"Move-blocking offset must be an integer, got {Numeral.ofFloat given}"
  | diagnosticKind given => some s!"Unknown diagnostic kind: {Quoted.encode given}"
  | noVariable name => some s!"No variable named {Quoted.encode name}"
  | _ => none

end Fault

end Transcription
