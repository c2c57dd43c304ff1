import Transcription.Proofs.Diagram.Drawing

namespace Transcription

namespace Diagram

variable {d d' : Diagram} {p : Port}

def feeder (d : Diagram) (p : Port) : Except Fault Port :=
  match p.side with
  | .inport => d.driver p
  | .outport => pure p

def ask (d : Diagram) (p : Port) : Except Fault (Dims × Known) := do
  let q ← d.feeder p
  let known ← d.dimensions
  return ((known.lookup q).getD Dims.scalar, known)

theorem Matches.ask_eq (h : d.Matches d') : d'.ask = d.ask := by
  have hfeeder : d'.feeder = d.feeder := by
    funext p
    rw [feeder, feeder, driver, driver, h.source_eq, path, path, h.block_eq]
  funext p
  rw [ask, ask, hfeeder, h.dimensions_eq]

theorem Current.measured_eq (h : d.Current) :
    d.measured = d.dimensions.map fun known => { d with compiled := some known } := by
  unfold measured compile
  cases hcompiled : d.compiled with
  | some known =>
    rw [h known hcompiled, Option.isSome_some, if_pos rfl, Except.map, ← hcompiled]
    rfl
  | none =>
    rw [Option.isSome_none, if_neg Bool.false_ne_true]
    cases d.dimensions <;> rfl

/-- A diagram that is asked for dimensions gives those that it would work out, and remembers them. -/
theorem Current.queryDims_eq (h : d.Current) (p : Port) : d.queryDims p =
    (d.ask p).map fun r => (r.1, { d with compiled := some r.2 }) := by
  unfold queryDims portDims outportDims ask feeder
  cases p.side with
  | outport =>
    rw [h.measured_eq]
    cases d.dimensions <;> rfl
  | inport =>
    dsimp only
    rw [h.measured_eq]
    cases d.driver p with
    | error e => rfl
    | ok q => cases d.dimensions <;> rfl

theorem port_mem_allOutports {i : Nat} {n : Int} (h : d.port .outport i n = .ok p) :
    p ∈ d.allOutports := by
  obtain ⟨k, hk, h⟩ := except_bind_eq_ok.mp h
  cases h
  have hmem : (⟨i, .outport, k + 1⟩ : Port) ∈ d.outports i :=
    List.mem_map_of_mem (List.mem_range.mpr (position_lt hk))
  refine mem_allOutports.mpr ⟨?_, hmem⟩
  by_contra hlt
  rw [outports, block_eq_default hlt] at hmem
  cases hmem

/-- One more line drives the inport that it leads to. -/
theorem source?_append {out inp : Port} (hout : out.side = .outport) (hinp : inp.side = .inport)
    (hfree : d.source? inp = none) (q : Port) :
    ({ d with lines := d.lines ++ [⟨out, inp⟩], compiled := none } : Diagram).source? q =
      if q = inp ∨ q = out then some out else d.source? q := by
  unfold source? at hfree ⊢
  cases hq : q.side with
  | inport =>
    have hne : q ≠ out := by
      rintro rfl
      cases hq.symm.trans hout
    simp only [hne, or_false, List.find?_append, Option.map_or]
    by_cases hqi : q = inp
    · subst hqi
      rw [hq] at hfree
      simp [hfree]
    · simp [hqi, Ne.symm hqi]
  | outport =>
    have hne : q ≠ inp := by
      rintro rfl
      cases hq.symm.trans hinp
    simp only [hne, false_or, List.any_append, List.any_cons, List.any_nil, Bool.or_false]
    by_cases hqo : q = out
    · simp [hqo]
    · simp [hqo, Ne.symm hqo]

theorem port_side {side : Side} {i : Nat} {n : Int} (h : d.port side i n = .ok p) : p.side = side := by
  obtain ⟨_, _, h⟩ := except_bind_eq_ok.mp h
  cases h
  rfl

end Diagram

namespace Sheet

variable {s : Sheet}

def inquire (f : Dims → Reply) (i : Nat) (side : Side) (number : Int) : Op Reply := do
  let p ← Op.ofExcept ((← get).diagram.port side i number)
  return f (← portDims p)

theorem perform_dims (i : Nat) (side : Side) (number : Int) :
    perform (.dims i side number) = inquire .dims i side number := rfl

theorem perform_width (i : Nat) (side : Side) (number : Int) :
    perform (.width i side number) = inquire (fun ds => .width ds.width) i side number := by
  funext s
  unfold perform inquire portWidth
  simp only [bind, EStateM.bind, get, getThe, MonadStateOf.get, EStateM.get, Op.ofExcept]
  cases s.diagram.port side i number with
  | error e => rfl
  | ok p =>
    dsimp only
    cases portDims p s <;> rfl

theorem Wired.remembered_eq (h : s.Wired) : s.remembered = s.diagram.dimensions := by
  unfold remembered
  cases hcompiled : s.compiled with
  | none => rfl
  | some known => exact (h.current known hcompiled).symm

theorem Wired.outportDims_eq (h : s.Wired) {p : Port} (hp : p ∈ s.diagram.allOutports) :
    outportDims p s = match s.diagram.dimensions with
      | .error e => .error e s
      | .ok known => .ok ((known.lookup p).getD Dims.scalar) { s with compiled := some known } := by
  rw [Sheet.outportDims_eq, h.remembered_eq]
  cases hknown : s.diagram.dimensions with
  | error e => rfl
  | ok known =>
    obtain ⟨κ, _, hfinal⟩ := Diagram.settled_of_dimensions hknown
    simp only [hfinal p hp, Option.getD_some]

/-- A question is answered as if dimensions were worked out for it. -/
theorem Wired.portDims_eq (h : s.Wired) {p : Port}
    (hp : p.side = .outport → p ∈ s.diagram.allOutports) :
    portDims p s = match s.diagram.ask p with
      | .error e => .error e s
      | .ok r => .ok r.1 { s with compiled := some r.2 } := by
  rw [Sheet.portDims_eq]
  unfold Diagram.ask Diagram.feeder
  cases hside : p.side with
  | outport =>
    simp only [h.outportDims_eq (hp hside)]
    cases s.diagram.dimensions <;> rfl
  | inport =>
    cases hsource : s.source? p with
    | none =>
      have hdriver : s.diagram.driver p =
          .error (.connection (s.diagram.path p.block) (.inport p.number)) := by
        rw [Diagram.driver, h.source?_diagram, hsource]
        rfl
      simp only [hdriver]
      rfl
    | some q =>
      have hdriver : s.diagram.driver p = .ok q := by
        rw [Diagram.driver, h.source?_diagram, hsource]
        rfl
      obtain ⟨line, hline, rfl, _⟩ := (h.source?_eq_some hside).mp hsource
      simp only [hdriver, h.outportDims_eq (h.sources line hline)]
      cases s.diagram.dimensions <;> rfl

theorem Wired.inquire_eq (h : s.Wired) (f : Dims → Reply) (i : Nat) (side : Side) (number : Int) :
    inquire f i side number s = match s.diagram.port side i number >>= s.diagram.ask with
      | .error e => .error e s
      | .ok r => .ok (f r.1) { s with compiled := some r.2 } := by
  unfold inquire
  simp only [bind, EStateM.bind, get, getThe, MonadStateOf.get, EStateM.get, Op.ofExcept, Except.bind]
  cases hport : s.diagram.port side i number with
  | error e => rfl
  | ok p =>
    have hp (hout : p.side = .outport) : p ∈ s.diagram.allOutports := by
      rw [Diagram.port_side hport] at hout
      subst hout
      exact Diagram.port_mem_allOutports hport
    simp only [h.portDims_eq hp]
    cases s.diagram.ask p <;> rfl

theorem perform_add (b : Diagram.Draft) (s : Sheet) : perform (.add b) s =
    match b.block s.diagram with
    | .ok block => .ok (.block s.blocks.size) (s.withBlock b.parent block)
    | .error e => .error e s := by
  unfold perform
  simp only [bind, EStateM.bind, add_eq]
  cases b.block s.diagram <;> rfl

theorem Wired.perform_connect (h : s.Wired) (source : Nat) (sourcePort : Int) (target : Nat)
    (targetPort : Int) : perform (.connect source sourcePort target targetPort) s =
      match s.diagram.port .outport source sourcePort, s.diagram.port .inport target targetPort with
      | .ok out, .ok inp =>
        if (s.line? inp).isSome then .error (.alreadyDriven (s.diagram.path target) inp.number) s
        else .ok (.line out (s.targetsFrom out ++ [inp])) (s.withTarget out inp)
      | .ok _, .error e => .error e s
      | .error e, _ => .error e s := by
  unfold perform
  simp only [bind, EStateM.bind, get, getThe, MonadStateOf.get, EStateM.get, connect_eq]
  cases hout : s.diagram.port .outport source sourcePort with
  | error e => rfl
  | ok out =>
    cases s.diagram.port .inport target targetPort with
    | error e => rfl
    | ok inp =>
      cases hfree : (s.line? inp).isSome with
      | true => simp only [hfree, if_true]
      | false =>
        simp only [hfree, Bool.false_eq_true, if_false, h.getElem?_withTarget (Diagram.port_side hout),
          if_true]
        rfl

theorem perform_compile (s : Sheet) : perform .compile s = match s.diagram.dimensions with
    | .ok known => .ok .done { s with compiled := some known }
    | .error e => .error e s := by
  unfold perform
  simp only [bind, EStateM.bind, compile_eq]
  cases s.diagram.dimensions <;> rfl

/-- What a call comes to: it fails and changes nothing, or it adds one block or one line, or it
remembers the dimensions of what is drawn. -/
inductive Calls (s : Sheet) : Call → Except Fault Reply × Sheet → Prop
  | failed {c : Call} (e : Fault) : Calls s c (.error e, s)
  | added {b : Diagram.Draft} {block : Diagram.Block} (hblock : b.block s.diagram = .ok block) :
    Calls s (.add b) (.ok (.block s.blocks.size), s.withBlock b.parent block)
  | connected {source target : Nat} {sourcePort targetPort : Int} {out inp : Port}
    (hout : s.diagram.port .outport source sourcePort = .ok out)
    (hinp : s.diagram.port .inport target targetPort = .ok inp) (hfree : s.line? inp = none) :
    Calls s (.connect source sourcePort target targetPort)
      (.ok (.line out (s.targetsFrom out ++ [inp])), s.withTarget out inp)
  | asked {c : Call} {r : Reply} {known : Diagram.Known} (hc : c.draws = false)
    (hknown : s.diagram.dimensions = .ok known) : Calls s c (.ok r, { s with compiled := some known })

theorem Wired.calls_inquire (h : s.Wired) {c : Call} {f : Dims → Reply} {i : Nat} {side : Side}
    {number : Int} (hc : c.draws = false) (hperform : perform c = inquire f i side number) :
    s.Calls c (s.call c) := by
  unfold Sheet.call
  rw [hperform, h.inquire_eq]
  cases hask : s.diagram.port side i number >>= s.diagram.ask with
  | error e => exact .failed e
  | ok r =>
    obtain ⟨p, _, hask⟩ := except_bind_eq_ok.mp hask
    obtain ⟨q, _, hask⟩ := except_bind_eq_ok.mp hask
    obtain ⟨known, hknown, hask⟩ := except_bind_eq_ok.mp hask
    cases hask
    exact .asked hc hknown

theorem Wired.calls (h : s.Wired) (c : Call) : s.Calls c (s.call c) := by
  cases c with
  | add b =>
    unfold Sheet.call
    rw [perform_add]
    cases hblock : b.block s.diagram with
    | error e => exact .failed e
    | ok block => exact .added hblock
  | connect source sourcePort target targetPort =>
    unfold Sheet.call
    rw [h.perform_connect]
    cases hout : s.diagram.port .outport source sourcePort with
    | error e => exact .failed e
    | ok out =>
      cases hinp : s.diagram.port .inport target targetPort with
      | error e => exact .failed e
      | ok inp =>
        cases hfree : s.line? inp with
        | some l =>
          simp only [hfree, Option.isSome_some, if_true]
          exact .failed _
        | none =>
          simp only [hfree, Option.isSome_none, Bool.false_eq_true, if_false]
          exact .connected hout hinp hfree
  | compile =>
    unfold Sheet.call
    rw [perform_compile]
    cases hknown : s.diagram.dimensions with
    | error e => exact .failed e
    | ok known => exact .asked rfl hknown
  | dims i side number => exact h.calls_inquire rfl (perform_dims i side number)
  | width i side number => exact h.calls_inquire rfl (perform_width i side number)

theorem matches_remember (s : Sheet) (compiled : Option Diagram.Known) :
    s.diagram.Matches ({ s with compiled } : Sheet).diagram := ⟨rfl, rfl, rfl⟩

theorem Wired.remember (h : s.Wired) {known : Diagram.Known}
    (hknown : s.diagram.dimensions = .ok known) : ({ s with compiled := some known } : Sheet).Wired :=
  { h with
    current := fun known' hknown' => by
      cases hknown'
      rw [(matches_remember s _).dimensions_eq, hknown] }

theorem Wired.forget (h : s.Wired) : s.forget.Wired :=
  { h with current := fun _ hknown => nomatch hknown }

theorem parent_of_block {d : Diagram} {b : Diagram.Draft} {block : Diagram.Block}
    (h : b.block d = .ok block) : block.parent = b.parent := by
  obtain ⟨_, _, h⟩ := except_bind_eq_ok.mp h
  cases h
  rfl

/-- No call leaves ports, lines and dimensions at odds. -/
theorem Wired.call (h : s.Wired) (c : Call) : (s.call c).2.Wired := by
  have hcalls := h.calls c
  generalize s.call c = r at hcalls
  cases hcalls with
  | failed e => exact h
  | added hblock => exact h.withBlock (parent_of_block hblock)
  | connected hout hinp hfree =>
    have hmem := Diagram.port_mem_inports hinp
    exact h.withTarget (Diagram.port_mem_allOutports hout)
      (List.mem_flatMap.mpr ⟨_, List.mem_range.mpr (Diagram.lt_size_of_mem hmem), hmem⟩) hfree
  | asked _ hknown => exact h.remember hknown

theorem Wired.after (h : s.Wired) (cs : List Call) : (s.after cs).Wired := by
  induction cs generalizing s with
  | nil => exact h
  | cons c cs ih => exact ih (h.call c)

/-- A question draws nothing. -/
theorem Wired.forget_call (h : s.Wired) {c : Call} (hc : c.draws = false) :
    (s.call c).2.forget = s.forget := by
  have hcalls := h.calls c
  generalize s.call c = r at hcalls
  cases hcalls with
  | failed e => rfl
  | added _ => cases hc
  | connected _ _ _ => cases hc
  | asked _ _ => rfl

theorem Wired.inquire_forget (h : s.Wired) {c : Call} {f : Dims → Reply} {i : Nat} {side : Side}
    {number : Int} (hperform : perform c = inquire f i side number) :
    (s.forget.call c).1 = (s.call c).1 ∧ (s.forget.call c).2.forget = (s.call c).2.forget := by
  have hport : s.forget.diagram.port = s.diagram.port := rfl
  have hask : s.forget.diagram.ask = s.diagram.ask := (matches_remember s none).ask_eq
  unfold Sheet.call
  rw [hperform, h.inquire_eq, h.forget.inquire_eq, hport, hask]
  cases s.diagram.port side i number >>= s.diagram.ask <;> exact ⟨rfl, rfl⟩

/-- What is remembered shows neither in a reply nor in what is drawn. -/
theorem Wired.call_forget (h : s.Wired) (c : Call) :
    (s.forget.call c).1 = (s.call c).1 ∧ (s.forget.call c).2.forget = (s.call c).2.forget := by
  cases c with
  | add b =>
    have hblock : b.block s.forget.diagram = b.block s.diagram := rfl
    unfold Sheet.call
    rw [perform_add, perform_add, hblock]
    cases b.block s.diagram <;> exact ⟨rfl, rfl⟩
  | connect source sourcePort target targetPort =>
    have hport : s.forget.diagram.port = s.diagram.port := rfl
    have hline : s.forget.line? = s.line? := rfl
    unfold Sheet.call
    rw [h.perform_connect, h.forget.perform_connect, hport, hline]
    cases s.diagram.port .outport source sourcePort with
    | error e => exact ⟨rfl, rfl⟩
    | ok out =>
      cases s.diagram.port .inport target targetPort with
      | error e => exact ⟨rfl, rfl⟩
      | ok inp =>
        cases hfree : s.line? inp with
        | some l =>
          simp only [hfree, Option.isSome_some, if_true]
          exact ⟨rfl, rfl⟩
        | none =>
          simp only [hfree, Option.isSome_none, Bool.false_eq_true, if_false]
          exact ⟨rfl, rfl⟩
  | compile =>
    have hdimensions : s.forget.diagram.dimensions = s.diagram.dimensions :=
      (matches_remember s none).dimensions_eq
    unfold Sheet.call
    rw [perform_compile, perform_compile, hdimensions]
    cases s.diagram.dimensions <;> exact ⟨rfl, rfl⟩
  | dims i side number => exact h.inquire_forget (perform_dims i side number)
  | width i side number => exact h.inquire_forget (perform_width i side number)

/-- What is drawn is what the drawing calls alone draw. -/
theorem Wired.after_forget {t : Sheet} (h : s.Wired) (ht : t.Wired) (heq : s.forget = t.forget)
    (cs : List Call) : (s.after cs).forget = (t.after (cs.filter Call.draws)).forget := by
  induction cs generalizing s t with
  | nil => exact heq
  | cons c cs ih =>
    cases hc : c.draws with
    | true =>
      rw [List.filter_cons_of_pos hc]
      refine ih (h.call c) (ht.call c) ?_
      rw [← (h.call_forget c).2, heq, (ht.call_forget c).2]
    | false =>
      rw [List.filter_cons_of_neg (by rw [hc]; exact Bool.false_ne_true)]
      exact ih (h.call c) ht ((h.forget_call hc).trans heq)

/-- A sheet shows a diagram: they have the same blocks and lines, and remember the same. -/
structure Shows (s : Sheet) (d : Diagram) : Prop where
  name_eq : d.name = s.name
  workspace_eq : d.workspace = s.workspace
  blocks_eq : d.blocks = s.blocks
  compiled_eq : d.compiled = s.compiled
  source_eq : d.source? = s.source?
  targets_eq : ∀ p, p.side = .outport →
    (d.lines.filter fun l => l.source = p).map (·.target) = s.targetsFrom p

variable {d : Diagram}

theorem shows_empty (name : String) (workspace : List (String × Value)) :
    (empty name workspace).Shows (Diagram.emptyDiagram name workspace) where
  name_eq := rfl
  workspace_eq := rfl
  blocks_eq := rfl
  compiled_eq := rfl
  source_eq := by
    funext p
    rw [Diagram.source?]
    cases p.side <;> rfl
  targets_eq _ _ := rfl

theorem Shows.matches (hs : s.Shows d) (h : s.Wired) : s.diagram.Matches d :=
  ⟨hs.blocks_eq, hs.workspace_eq, hs.source_eq.trans h.source?_diagram.symm⟩

theorem Shows.block_eq (hs : s.Shows d) (b : Diagram.Draft) : b.block d = b.block s.diagram := by
  obtain ⟨name, workspace, blocks, lines, compiled⟩ := d
  obtain ⟨rfl, rfl, rfl, rfl, _, _⟩ := hs
  rfl

theorem Shows.withBlock (hs : s.Shows d) (parent : Option Nat) (b : Diagram.Block) :
    (s.withBlock parent b).Shows { d with blocks := d.blocks.push b, compiled := none } :=
  { hs with
    blocks_eq := congrArg (·.push b) hs.blocks_eq
    compiled_eq := rfl
    source_eq := hs.source_eq }

theorem Shows.remember (hs : s.Shows d) (known : Diagram.Known) :
    ({ s with compiled := some known } : Sheet).Shows { d with compiled := some known } :=
  { hs with
    compiled_eq := rfl
    source_eq := hs.source_eq }

theorem Shows.withTarget (hs : s.Shows d) (h : s.Wired) {out inp : Port} (hout : out.side = .outport)
    (hinp : inp.side = .inport) (hfree : s.line? inp = none) :
    (s.withTarget out inp).Shows { d with lines := d.lines ++ [⟨out, inp⟩], compiled := none } :=
  { hs with
    compiled_eq := rfl
    source_eq := by
      have hundriven : d.source? inp = none := by rw [hs.source_eq, source?, hfree, Option.bind_none]
      funext q
      rw [Diagram.source?_append hout hinp hundriven, h.source?_withTarget hout, hs.source_eq]
    targets_eq := fun p hp => by
      rw [List.filter_append, List.map_append, hs.targets_eq p hp, h.targetsFrom_withTarget hout hinp hp]
      by_cases hpo : p = out
      · simp [hpo]
      · simp [hpo, Ne.symm hpo] }

theorem Shows.current (hs : s.Shows d) (h : s.Wired) : d.Current := by
  intro known hknown
  rw [hs.compiled_eq] at hknown
  rw [(hs.matches h).dimensions_eq, h.current known hknown]

/-- A question gets the answer that the diagram gives. -/
theorem Shows.queryDims_eq (hs : s.Shows d) (h : s.Wired) (i : Nat) (side : Side) (number : Int) :
    (d.port side i number >>= fun p => d.queryDims p) =
      (s.diagram.port side i number >>= s.diagram.ask).map fun r =>
        (r.1, { d with compiled := some r.2 }) := by
  have hmatches := hs.matches h
  rw [hmatches.port_eq]
  cases s.diagram.port side i number with
  | error e => rfl
  | ok p => exact ((hs.current h).queryDims_eq p).trans (by rw [hmatches.ask_eq]; rfl)

theorem Shows.call_inquire (hs : s.Shows d) (h : s.Wired) {c : Call} {f : Dims → Reply} {i : Nat}
    {side : Side} {number : Int} (hperform : perform c = inquire f i side number)
    (hdiagram : d.perform c = (d.port side i number >>= fun p => d.queryDims p).map fun r =>
      (f r.1, r.2)) : (d.call c).1 = (s.call c).1 ∧ (s.call c).2.Shows (d.call c).2 := by
  unfold Sheet.call Diagram.call
  rw [hperform, hdiagram, h.inquire_eq, hs.queryDims_eq h]
  cases s.diagram.port side i number >>= s.diagram.ask with
  | error e => exact ⟨rfl, hs⟩
  | ok r => exact ⟨rfl, hs.remember r.2⟩

theorem Shows.call_add (hs : s.Shows d) (b : Diagram.Draft) :
    (d.call (.add b)).1 = (s.call (.add b)).1 ∧ (s.call (.add b)).2.Shows (d.call (.add b)).2 := by
  have hperform : d.perform (.add b) = (b.block s.diagram).map fun block =>
      (.block s.blocks.size, { d with blocks := d.blocks.push block, compiled := none }) := by
    rw [← hs.block_eq, ← hs.blocks_eq, Diagram.perform, Diagram.add]
    cases b.block d <;> rfl
  unfold Sheet.call Diagram.call
  rw [perform_add, hperform]
  cases b.block s.diagram with
  | error e => exact ⟨rfl, hs⟩
  | ok block => exact ⟨rfl, hs.withBlock b.parent block⟩

theorem Shows.connect_eq (hs : s.Shows d) (h : s.Wired) (source : Nat) (sourcePort : Int)
    (target : Nat) (targetPort : Int) : d.connect source sourcePort target targetPort =
      match s.diagram.port .outport source sourcePort, s.diagram.port .inport target targetPort with
      | .ok out, .ok inp =>
        if (s.line? inp).isSome then .error (.alreadyDriven (s.diagram.path target) inp.number)
        else .ok (out, { d with lines := d.lines ++ [⟨out, inp⟩], compiled := none })
      | .ok _, .error e => .error e
      | .error e, _ => .error e := by
  have hmatches := hs.matches h
  unfold Diagram.connect
  rw [hmatches.port_eq, Diagram.path, hmatches.block_eq]
  cases s.diagram.port .outport source sourcePort with
  | error e => rfl
  | ok out =>
    cases s.diagram.port .inport target targetPort with
    | error e => rfl
    | ok inp =>
      have hdriven : (d.source? inp).isSome = (s.line? inp).isSome := by
        rw [hs.source_eq, source?]
        cases hl : s.line? inp with
        | none => rfl
        | some l =>
          obtain ⟨line, hline⟩ := h.exists_line hl
          rw [Option.bind_some, hline]
          rfl
      simp only [bind, Except.bind, hdriven]
      split <;> rfl

theorem Shows.call_connect (hs : s.Shows d) (h : s.Wired) (source : Nat) (sourcePort : Int)
    (target : Nat) (targetPort : Int) :
    (d.call (.connect source sourcePort target targetPort)).1 =
        (s.call (.connect source sourcePort target targetPort)).1 ∧
      (s.call (.connect source sourcePort target targetPort)).2.Shows
        (d.call (.connect source sourcePort target targetPort)).2 := by
  unfold Sheet.call Diagram.call
  rw [h.perform_connect, Diagram.perform, hs.connect_eq h]
  cases hout : s.diagram.port .outport source sourcePort with
  | error e => exact ⟨rfl, hs⟩
  | ok out =>
    cases hinp : s.diagram.port .inport target targetPort with
    | error e => exact ⟨rfl, hs⟩
    | ok inp =>
      cases hfree : s.line? inp with
      | some l =>
        simp only [hfree, Option.isSome_some, if_true]
        exact ⟨rfl, hs⟩
      | none =>
        have hside := Diagram.port_side hout
        have hinside := Diagram.port_side hinp
        have hshows := hs.withTarget h hside hinside hfree
        have hsource := congrFun hshows.source_eq out
        rw [h.source?_withTarget hside, if_pos (.inr rfl)] at hsource
        have htargets := hshows.targets_eq out hside
        rw [h.targetsFrom_withTarget hside hinside hside, if_pos rfl] at htargets
        simp only [hfree, Option.isSome_none, Bool.false_eq_true, if_false]
        refine ⟨congrArg (Except.ok ∘ Reply.line out) ?_, hshows⟩
        rw [Diagram.targets, hsource]
        exact htargets

theorem Shows.call_compile (hs : s.Shows d) (h : s.Wired) :
    (d.call .compile).1 = (s.call .compile).1 ∧ (s.call .compile).2.Shows (d.call .compile).2 := by
  unfold Sheet.call Diagram.call
  rw [perform_compile, Diagram.perform, Diagram.compile, (hs.matches h).dimensions_eq]
  cases s.diagram.dimensions with
  | error e => exact ⟨rfl, hs⟩
  | ok known => exact ⟨rfl, hs.remember known⟩

/-- Calls on a sheet and on the diagram that it shows are answered alike and leave both alike. -/
theorem Shows.call (hs : s.Shows d) (h : s.Wired) (c : Call) :
    (d.call c).1 = (s.call c).1 ∧ (s.call c).2.Shows (d.call c).2 := by
  cases c with
  | add b => exact hs.call_add b
  | connect source sourcePort target targetPort =>
    exact hs.call_connect h source sourcePort target targetPort
  | compile => exact hs.call_compile h
  | dims i side number =>
    refine hs.call_inquire h (perform_dims i side number) ?_
    rw [Diagram.perform]
    cases d.port side i number with
    | error e => rfl
    | ok p =>
      simp only [bind, Except.bind]
      cases d.queryDims p <;> rfl
  | width i side number =>
    refine hs.call_inquire h (perform_width i side number) ?_
    rw [Diagram.perform]
    cases d.port side i number with
    | error e => rfl
    | ok p =>
      simp only [bind, Except.bind]
      cases d.queryDims p <;> rfl

theorem Shows.after (hs : s.Shows d) (h : s.Wired) (cs : List Call) :
    (s.after cs).Shows (d.after cs) := by
  induction cs generalizing s d with
  | nil => exact hs
  | cons c cs ih => exact ih (hs.call h c).2 (h.call c)

structure Joined (s : Sheet) : Prop where
  /-- An inport is on a line exactly when the line leads to it. -/
  inport : ∀ q, q.side = .inport → ∀ l,
    s.line? q = some l ↔ ∃ line, s.lines[l]? = some line ∧ q ∈ line.targets
  /-- A line leads to each of its inports once. -/
  once : ∀ line ∈ s.lines, ∀ q ∈ line.targets, line.targets.count q = 1
  /-- No two lines lead to one inport. -/
  alone : ∀ (l l' : Nat) line line', s.lines[l]? = some line → s.lines[l']? = some line' →
    ∀ q ∈ line.targets, q ∈ line'.targets → l = l'
  /-- The outport that a line leaves is on that line. -/
  source : ∀ (l : Nat) line, s.lines[l]? = some line → s.line? line.source = some l

theorem Wired.joined (h : s.Wired) : s.Joined where
  inport := h.inport
  once line hline q hq := List.count_eq_one_of_mem (h.once line hline) hq
  alone l l' line line' hl hl' q hq hq' := by
    have hside := side_of_mem_inports (h.targets line (List.mem_of_getElem? hl) q hq)
    have hon := (h.inport q hside l).mpr ⟨line, hl, hq⟩
    have hon' := (h.inport q hside l').mpr ⟨line', hl', hq'⟩
    exact Option.some.inj (hon.symm.trans hon')
  source l line hl := by
    have hside := Diagram.side_of_mem (h.sources line (List.mem_of_getElem? hl))
    exact (h.outport _ hside l).mpr ⟨line, hl, rfl⟩

/-- A drawing call that fails changes nothing. -/
theorem Wired.call_error (h : s.Wired) {c : Call} (hc : c.draws = true) {e : Fault}
    (herror : (s.call c).1 = .error e) : (s.call c).2 = s := by
  have hcalls := h.calls c
  generalize s.call c = r at hcalls herror
  cases hcalls with
  | failed e => rfl
  | added _ => cases herror
  | connected _ _ _ => cases herror
  | asked hq _ => cases hc.symm.trans hq

/-- What was asked before does not show in a reply. -/
theorem Wired.call_drawn (h : s.Wired) (cs : List Call) (c : Call) :
    ((s.after cs).call c).1 = ((s.after (cs.filter Call.draws)).call c).1 := by
  have hforget := h.after_forget h rfl cs
  rw [← ((h.after cs).call_forget c).1, hforget,
    ((h.after (cs.filter Call.draws)).call_forget c).1]

/-- Whatever is called on a new sheet, and whichever calls fail, ports and lines agree afterwards. A
block or a line that cannot be drawn leaves everything as it was. A question for dimensions gets the
answer that it gets when nothing was asked before, and every call the reply that a diagram edited as a
whole gives. -/
theorem calls_coherent (name : String) (workspace : List (String × Value)) (cs : List Call) :
    let s := (empty name workspace).after cs
    s.Joined ∧
    (∀ c e, c.draws = true → (s.call c).1 = .error e → (s.call c).2 = s) ∧
    (∀ c, c.draws = false →
      (s.call c).1 = (((empty name workspace).after (cs.filter Call.draws)).call c).1) ∧
    ∀ c, (((Diagram.emptyDiagram name workspace).after cs).call c).1 = (s.call c).1 := by
  have hempty := wired_empty name workspace
  have hwired := hempty.after cs
  have hshows := (shows_empty name workspace).after hempty cs
  refine ⟨hwired.joined, fun c e hc herror => hwired.call_error hc herror, fun c _ => ?_, fun c => ?_⟩
  · exact hempty.call_drawn cs c
  · exact (hshows.call hwired c).1

def gainCalls : List Call :=
  [.add { name := "one", type := "Constant", params := [("Value", .int 1)], outDims := some [.int 2] },
    .add { name := "twice", type := "Gain", params := [("Gain", .int 2)] },
    .dims 1 .outport 1, .connect 0 1 1 1, .compile]

theorem calls_coherent_gain :
    ((((empty "m" []).after gainCalls).call (.connect 0 1 1 1)).2 = (empty "m" []).after gainCalls) ∧
    (((empty "m" []).after gainCalls).call (.dims 1 .outport 1)).1 =
      (((empty "m" []).after (gainCalls.filter Call.draws)).call (.dims 1 .outport 1)).1 := by
  obtain ⟨_, hfailed, hasked, _⟩ := calls_coherent "m" [] gainCalls
  refine ⟨hfailed (.connect 0 1 1 1) (.alreadyDriven "m/twice" 1) rfl ?_, hasked _ rfl⟩
  cbv

end Sheet

end Transcription
