import Transcription.Diagram.Scope

namespace Transcription

namespace Dims

def scalar : Dims := [1, 1]

def vector (n : Int) : Dims := [1, n]

/-- The rows times columns of the signals of a frame, added up. -/
def frameWidth : List Int → Int
  | r :: c :: rest => r * c + frameWidth rest
  | _ => 0

/-- The number of scalars that a port carries, which is not held to the 64 bits of an index. -/
def width : Dims → Int
  | [] => 0
  | n :: sizes => if n = -2 then frameWidth (sizes.drop 1) else sizes.foldl (· * ·) 1

/-- The first of the widest dimensions in a list. -/
def widest : List Dims → Option Dims
  | [] => none
  | d :: ds => some (ds.foldl (fun best e => if best.width < e.width then e else best) d)

end Dims

namespace Diagram

abbrev Known := List (Port × Dims)

/-- The dimensions of what drives an inport, as far as they are known. -/
def inputDims (d : Diagram) (known : Known) (inport : Port) : Option Dims :=
  (d.source? inport).bind fun s => known.lookup s

def maxWidth (ws : List Int) : Int := ws.foldl max (ws.headD 0)

def sumWidths (ws : List Int) : Int := ws.foldr (· + ·) 0

/-- The dimensions that an elementwise block takes from its inputs: those of the widest one, or a
vector when a gain is wider. With `partly`, inputs that are not known are passed over. -/
def elementwise (inputs : List (Option Dims)) (gain : Option Int) (partly : Bool) : Option Dims :=
  let given := inputs.filterMap id
  if !partly && given.length < inputs.length then none
  else
    let widths := given.map Dims.width ++ gain.toList
    if inputs.isEmpty then some (if widths.isEmpty then Dims.scalar else Dims.vector (maxWidth widths))
    else if widths.isEmpty then none
    else
      let widest := (Dims.widest given).getD Dims.scalar
      some (if widest.width = maxWidth widths then widest else Dims.vector (maxWidth widths))

/-- The number of rows of a matrix of coefficients; anything but a matrix has one. -/
def coefficientRows (v : Value) : Except Fault Int := do
  let shape ← match v with
    | .sparse m => pure [m.rows.length, m.cols]
    | v => v.shape
  return match shape with
    | [r, _] => r
    | _ => 1

/-- The dimensions of an outport from what is known, if that is enough. -/
def infer (d : Diagram) (known : Known) (partly : Bool) (p : Port) : Except Fault (Option Dims) := do
  let b := d.block p.block
  let inputs := (d.inports p.block).map (d.inputDims known)
  if b.type = "Inport" then
    match b.parent with
    | none => return some Dims.scalar
    | some parent =>
      let n ← (← d.required p.block "Port").toInt
      if (d.block parent).inports < n then return some Dims.scalar
      return d.inputDims known (← d.port .inport parent n)
  else if b.type = "SubSystem" && b.reference.isNone then
    match ← d.innerPort? p.block "Outport" p.number with
    | none => return some Dims.scalar
    | some inner => match d.inports inner with
      | [] => return some Dims.scalar
      | q :: _ => return d.inputDims known q
  else if b.type = "From" then
    match ← d.goto? p.block with
    | none => return some Dims.scalar
    | some goto => match d.inports goto with
      | [] => return some Dims.scalar
      | q :: _ => return d.inputDims known q
  else if b.type = "Mux" then
    return (inputs.mapM id).map fun ds => Dims.vector (sumWidths (ds.map Dims.width))
  else if b.type = "Demux" then
    return inputs.head?.join.map fun ds =>
      Dims.vector (Int.fdiv ds.width (max b.outportCount 1))
  else if b.reference = some polyReference then
    return some (Dims.vector (← coefficientRows (← d.required p.block "K")))
  else if b.type = "Constant" then
    return some (Dims.vector (← (d.param p.block "Value" (.float 1)).size))
  else if !partly && inputs.any Option.isNone then return none
  else
    let gain ← if b.type = "Gain" then
        (fun n : Nat => some (n : Int)) <$> (d.param p.block "Gain" (.float 1)).size
      else pure none
    return elementwise inputs gain partly

/-- One sweep: what is known after it, and the outports still open. With `partly` it stops at the
first outport that it settles. -/
def sweep (d : Diagram) (partly : Bool) : List Port → Known → Except Fault (Known × List Port)
  | [], known => pure (known, [])
  | p :: rest, known => do
    match ← d.infer known partly p with
    | some dims =>
      if partly then return ((p, dims) :: known, rest)
      else sweep d partly rest ((p, dims) :: known)
    | none =>
      let (known, open') ← sweep d partly rest known
      return (known, p :: open')

/-- Sweeps until nothing is open or nothing more can be settled. -/
def settle (d : Diagram) (partly : Bool) (pending : List Port) (known : Known) :
    Except Fault (Known × List Port) :=
  if pending.isEmpty then pure (known, pending)
  else
    match d.sweep partly pending known with
    | .error e => throw e
    | .ok (known', pending') =>
      if _ : pending'.length < pending.length then d.settle false pending' known'
      else if partly then pure (known', pending')
      else d.settle true pending known
termination_by (pending.length, if partly then 0 else 1)
decreasing_by
  · exact Prod.Lex.left _ _ (by assumption)
  · exact Prod.Lex.right _ (by simp_all)

/-- The dimensions of every outport. Declared ones are kept, and the others follow by sweeps that need every
input of a block. When one settles nothing, as in a loop, a single outport is settled from the inputs that
are known; what is still open in the end is scalar. -/
def dimensions (d : Diagram) : Except Fault Known := do
  let declared := d.allOutports.map fun p => (p, ((d.block p.block).outports.getD (p.number - 1) none))
  let known := declared.filterMap fun (p, ds) => ds.map (p, ·)
  let pending := declared.filterMap fun (p, ds) => if ds.isNone then some p else none
  let (known, rest) ← d.settle false pending known
  return rest.map (·, Dims.scalar) ++ known

/-- The diagram with the dimensions of its outports worked out anew. -/
def compile (d : Diagram) : Except Fault Diagram := do
  return { d with compiled := some (← d.dimensions) }

/-- The diagram with dimensions, those worked out before if nothing was drawn since. -/
def measured (d : Diagram) : Except Fault Diagram :=
  if d.compiled.isSome then pure d else d.compile

def outportDims (d : Diagram) (p : Port) : Except Fault Dims := do
  let known := (← d.measured).compiled.getD []
  return (known.lookup p).getD Dims.scalar

/-- The dimensions of a port; an inport has those of the outport that drives it. -/
def portDims (d : Diagram) (p : Port) : Except Fault Dims := do
  match p.side with
  | .inport => d.outportDims (← d.driver p)
  | .outport => d.outportDims p

def portWidth (d : Diagram) (p : Port) : Except Fault Int := do
  return (← d.portDims p).width

/-- The dimensions of a port, and the diagram that remembers them. -/
def queryDims (d : Diagram) (p : Port) : Except Fault (Dims × Diagram) := do
  let dims ← d.portDims p
  return (dims, ← d.measured)

end Diagram

end Transcription
