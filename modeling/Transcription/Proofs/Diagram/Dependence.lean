import Transcription.Proofs.Diagram.Settling

namespace Transcription

namespace Diagram

def Undeclared (d : Diagram) (p : Port) : Prop := p ∈ d.allOutports ∧ d.declared? p = none

/-- The dimensions of one outport depend on those of another, and neither has declared ones: the other
one drives an inport that the rule of the first reads, its own, one around it or inside it, or that of a
`Goto` block. -/
def Needs (d : Diagram) (p q : Port) : Prop :=
  d.Undeclared p ∧ d.Undeclared q ∧ ∃ r, d.rule p = .ok r ∧ ∃ i ∈ r.reads, d.source? i = some q

def Connected (d : Diagram) : Prop :=
  ∀ i < d.blocks.size, ∀ q ∈ d.inports i, ∃ p ∈ d.allOutports, d.source? q = some p

/-- An outport depends on no outport that depends on itself, and on none of a `Demux` block without
inports. -/
def Clear (d : Diagram) (p : Port) : Prop :=
  ∀ q, Relation.ReflTransGen d.Needs p q →
    (d.Undeclared q → d.FedAt q.block) ∧ ¬ Relation.TransGen d.Needs q q

def Keeps (d : Diagram) (f : Port → Option Dims) : Prop :=
  ∀ p ∈ d.allOutports, ∀ ds, d.declared? p = some ds → f p = some ds

/-- Dimensions that keep what is declared and obey the rules, with all inputs of every block. -/
structure Solves (d : Diagram) (f : Port → Option Dims) : Prop where
  keeps : d.Keeps f
  rules : ∀ p, d.Undeclared p → f p = d.inferred f false p

variable {d : Diagram} {p q : Port} {κ κ' : Port → Option Dims} {ds : Dims} {partly : Bool}

/-- An inference asks for nothing but what drives the inports of the rule. -/
theorem inferred_congr (h : ∀ r, d.rule p = .ok r → ∀ i ∈ r.reads, ∀ s, d.source? i = some s →
    κ s = κ' s) : d.inferred κ partly p = d.inferred κ' partly p := by
  unfold inferred
  cases hr : d.rule p with
  | error e => rfl
  | ok r =>
    refine DimsRule.value_congr fun i hi => ?_
    cases hs : d.source? i with
    | none => rfl
    | some s => exact h r hr i hi s hs

/-- What follows from all inputs of a block follows from inputs that are known. -/
theorem known_of_inferred (h : d.inferred κ false p = some ds) {r : DimsRule} (hr : d.rule p = .ok r)
    {i : Port} (hi : i ∈ r.reads) {s : Port} (hs : d.source? i = some s) : (κ s).isSome = true := by
  obtain ⟨r', hr', h⟩ := inferred_eq_some.mp h
  cases hr.symm.trans hr'
  have hknown := DimsRule.known_of_value h i hi
  rwa [hs] at hknown

/-- It goes on following when more is known. -/
theorem inferred_extends (h : d.inferred κ false p = some ds)
    (hextends : ∀ s, (κ s).isSome = true → κ' s = κ s) : d.inferred κ' false p = some ds := by
  rw [← h]
  refine inferred_congr fun r hr i hi s hs => hextends s ?_
  exact known_of_inferred h hr hi hs

/-- It follows from the inputs that are known as well. -/
theorem inferred_partly (h : d.inferred κ false p = some ds) : d.inferred κ true p = some ds := by
  obtain ⟨r, hr, h⟩ := inferred_eq_some.mp h
  exact inferred_eq_some.mpr ⟨r, hr, DimsRule.value_partly h⟩

/-- Something goes on following from the inputs that are known when more is known. -/
theorem inferred_grows (h : d.inferred κ partly p = some ds)
    (hgrows : ∀ s, (κ s).isSome = true → (κ' s).isSome = true) :
    (d.inferred κ' true p).isSome = true := by
  obtain ⟨r, hr, h⟩ := inferred_eq_some.mp h
  have hvalue := DimsRule.value_grows (g := fun q => (d.source? q).bind κ') (fun q hq => by
    cases hs : d.source? q with
    | none =>
      rw [hs] at hq
      cases hq
    | some s =>
      rw [hs] at hq
      exact hgrows s hq) h
  rwa [inferred, hr]

/-- What is known is about outports of the diagram. -/
theorem Derived.mem (h : d.Derived κ) (hp : (κ p).isSome = true) : p ∈ d.allOutports := by
  induction h with
  | given =>
    by_contra hout
    simp [Diagram.given, hout] at hp
  | @settle κ _ q _ _ hq _ _ _ ih =>
    by_cases hpq : p = q
    · rwa [hpq]
    · rw [Function.update_of_ne hpq] at hp
      exact ih hp

/-- What is declared is kept. -/
theorem Derived.keeps (h : d.Derived κ) : d.Keeps κ := by
  intro p hp ds hds
  induction h with
  | given => simp [Diagram.given, hp, hds]
  | @settle κ _ q _ _ _ hopen _ _ ih =>
    have hpq : p ≠ q := by
      rintro rfl
      rw [hopen] at ih
      cases ih
    rw [Function.update_of_ne hpq, ih]

/-- What is known of an outport without declared dimensions follows from all inputs of its block, if a
guess never says anything else. -/
theorem Derived.inferred_of_guess (hderived : d.Derived κ) (hp : d.Undeclared p)
    (hguess : ∀ κ ds, d.Derived κ → d.Stalled κ → κ p = none → d.inferred κ true p = some ds →
      d.inferred κ false p = some ds)
    (hds : κ p = some ds) : d.inferred κ false p = some ds := by
  induction hderived generalizing ds with
  | given => simp [Diagram.given, hp.1, hp.2] at hds
  | @settle κ partly q es hbefore hq hnone hpartly hes ih =>
    have hextends (s : Port) (hs : (κ s).isSome = true) : Function.update κ q (some es) s = κ s := by
      refine Function.update_of_ne ?_ _ _
      rintro rfl
      rw [hnone] at hs
      cases hs
    by_cases hpq : p = q
    · subst hpq
      obtain rfl : es = ds := by simpa using hds
      refine inferred_extends ?_ hextends
      cases partly with
      | false => exact hes
      | true => exact hguess κ es hbefore (hpartly rfl) hnone hes
    · rw [Function.update_of_ne hpq] at hds
      exact inferred_extends (ih hds) hextends

theorem Clear.of_needs (h : d.Clear p) (hneeds : d.Needs p q) : d.Clear q :=
  fun r hr => h r (hr.head hneeds)

/-- What a rule reads comes from outports of the diagram. -/
theorem Connected.exists_source (h : d.Connected) {r : DimsRule} (hr : d.rule p = .ok r) {i : Port}
    (hi : i ∈ r.reads) : ∃ s ∈ d.allOutports, d.source? i = some s := by
  obtain ⟨j, hj, hmem⟩ := reads_inports hr hi
  exact h j hj i hmem

/-- Clear outports can be taken one after the other, each after those that it needs. -/
theorem clear_induction {P : Port → Prop}
    (h : ∀ p ∈ d.allOutports, d.Clear p → (∀ q, d.Needs p q → P q) → P p)
    (hp : p ∈ d.allOutports) (hclear : d.Clear p) : P p := by
  let Below (a b : {q // q ∈ d.allOutports ∧ d.Clear q}) : Prop := Relation.TransGen d.Needs b a
  have : IsTrans _ Below := ⟨fun _ _ _ hab hbc => hbc.trans hab⟩
  have : Std.Irrefl Below := ⟨fun a => (a.2.2 a .refl).2⟩
  have : Finite {q // q ∈ d.allOutports ∧ d.Clear q} :=
    (d.allOutports.finite_toSet.subset fun q hq => hq.1).to_subtype
  have hwf : WellFounded Below := Finite.wellFounded_of_trans_of_irrefl Below
  refine hwf.induction (C := fun a => P a) ⟨p, hp, hclear⟩ fun a ih => ?_
  exact h a a.2.1 a.2.2 fun q hq => ih ⟨q, hq.2.1.1, a.2.2.of_needs hq⟩ (.single hq)

section Clear

variable (h : d.Evaluable) (hplaced : d.Placed) (hconnected : d.Connected)

include h hplaced hconnected

/-- An outport follows once all outports that it needs are known. -/
theorem exists_inferred (hkeeps : d.Keeps κ) (hfed : d.FedAt p.block) (hp : d.Undeclared p)
    (hneeds : ∀ q, d.Needs p q → (κ q).isSome = true) : ∃ ds, d.inferred κ false p = some ds := by
  obtain ⟨r, hr⟩ := exists_rule h hplaced hp.1
  have hknown : ∀ i ∈ r.reads, ((d.source? i).bind κ).isSome = true := by
    intro i hi
    obtain ⟨s, hs, hsource⟩ := hconnected.exists_source hr hi
    rw [hsource]
    cases hds : d.declared? s with
    | none => exact hneeds s ⟨hp, ⟨hs, hds⟩, r, hr, i, hi, hsource⟩
    | some ds =>
      rw [Option.bind_some, hkeeps s hs ds hds]
      rfl
  obtain ⟨ds, hds⟩ := DimsRule.exists_value (rule_fed hr hfed) hknown
  exact ⟨ds, inferred_eq_some.mpr ⟨r, hr, hds⟩⟩

/-- When nothing can be settled from all of its inputs, all clear outports are known. -/
theorem Stalled.known (hstalled : d.Stalled κ) (hkeeps : d.Keeps κ)
    (hp : p ∈ d.allOutports) (hclear : d.Clear p) : (κ p).isSome = true := by
  refine clear_induction (P := fun p => (κ p).isSome = true) ?_ hp hclear
  intro p hp hclear ih
  cases hds : d.declared? p with
  | some ds =>
    rw [hkeeps p hp ds hds]
    rfl
  | none =>
    have hundeclared : d.Undeclared p := ⟨hp, hds⟩
    have hfed := (hclear p .refl).1 hundeclared
    obtain ⟨ds, hds⟩ := exists_inferred h hplaced hconnected hkeeps hfed hundeclared ih
    by_contra hopen
    rw [hstalled p hp (by simpa using hopen)] at hds
    cases hds

/-- A clear outport that is known follows from all inputs of its block. -/
theorem Derived.inferred_eq (hderived : d.Derived κ) (hp : d.Undeclared p) (hclear : d.Clear p)
    (hds : κ p = some ds) : d.inferred κ false p = some ds := by
  refine hderived.inferred_of_guess hp (fun κ ds hbefore hstalled hnone _ => ?_) hds
  -- a guess would have found the outport known already
  have hknown := hstalled.known h hplaced hconnected hbefore.keeps hp.1 hclear
  rw [hnone] at hknown
  cases hknown

/-- Once nothing more follows, clear outports are known. -/
theorem Settled.known (hsettled : d.Settled κ) (hp : p ∈ d.allOutports) (hclear : d.Clear p) :
    (κ p).isSome = true := by
  refine Stalled.known h hplaced hconnected (fun q hq hopen => ?_) hsettled.derived.keeps hp hclear
  by_contra hsome
  obtain ⟨ds, hds⟩ := Option.ne_none_iff_exists'.mp hsome
  have hpartly := hsettled.exhausted q hq hopen
  rw [inferred_partly hds] at hpartly
  cases hpartly

/-- Dimensions that obey the rules are those that follow, at clear outports. -/
theorem Solves.eq {f : Port → Option Dims} (hsolves : d.Solves f) (hsettled : d.Settled κ)
    (hp : p ∈ d.allOutports) (hclear : d.Clear p) : f p = κ p := by
  refine clear_induction (P := fun p => f p = κ p) ?_ hp hclear
  intro p hp hclear ih
  cases hopen : d.declared? p with
  | some ds => rw [hsolves.keeps p hp ds hopen, hsettled.derived.keeps p hp ds hopen]
  | none =>
    obtain ⟨ds, hds⟩ := Option.isSome_iff_exists.mp (hsettled.known h hplaced hconnected hp hclear)
    have hinferred := hsettled.derived.inferred_eq h hplaced hconnected ⟨hp, hopen⟩ hclear hds
    rw [hsolves.rules p ⟨hp, hopen⟩, hds, ← hinferred]
    refine inferred_congr fun r hr i hi s hsource => ?_
    obtain ⟨t, ht, htsource⟩ := hconnected.exists_source hr hi
    cases hsource.symm.trans htsource
    cases hdeclared : d.declared? s with
    | some es => rw [hsolves.keeps s ht es hdeclared, hsettled.derived.keeps s ht es hdeclared]
    | none => exact ih s ⟨⟨hp, hopen⟩, ⟨ht, hdeclared⟩, r, hr, i, hi, hsource⟩

end Clear

theorem clear_of_acyclic (hfed : ∀ i < d.blocks.size, d.FedAt i)
    (hacyclic : ∀ q, ¬ Relation.TransGen d.Needs q q) (p : Port) : d.Clear p := by
  intro q _
  exact ⟨fun hq => hfed q.block (mem_allOutports.mp hq.1).1, hacyclic q⟩

/-- If parameters evaluate, compiling ends with dimensions for all outports and keeps those declared. If
inports are connected, `Demux` blocks have one and no outport depends on itself, they are the one solution
of the rules: every other outport has what its rule gives for the dimensions of the outports it needs. -/
theorem compile_solves (h : d.Evaluable) (hplaced : d.Placed) :
    ∃ known, d.compile = .ok { d with compiled := some known } ∧
      (∀ p ∈ d.allOutports, (assigned known p).isSome = true) ∧ d.Keeps (assigned known) ∧
      (d.Connected → (∀ i < d.blocks.size, d.FedAt i) → (∀ q, ¬ Relation.TransGen d.Needs q q) →
        (∀ p, d.Undeclared p → d.infer known false p = .ok (assigned known p)) ∧
        d.Solves (assigned known) ∧
        ∀ f, d.Solves f → ∀ p ∈ d.allOutports, f p = assigned known p) := by
  obtain ⟨known, κ, hknown, hsettled, hfinal⟩ := exists_dimensions h hplaced
  have hassigned (p : Port) (hp : p ∈ d.allOutports) :
      assigned known p = some ((κ p).getD Dims.scalar) := hfinal p hp
  have hkept (p : Port) (hsome : (κ p).isSome = true) : assigned known p = κ p := by
    obtain ⟨ds, hds⟩ := Option.isSome_iff_exists.mp hsome
    rw [hassigned p (hsettled.derived.mem hsome), hds]
    rfl
  have hkeeps : d.Keeps (assigned known) := by
    intro p hp ds hds
    have hκ := hsettled.derived.keeps p hp ds hds
    rw [hkept p (by rw [hκ]; rfl), hκ]
  refine ⟨known, ?_, ?_, hkeeps, ?_⟩
  · rw [compile, hknown]
    rfl
  · intro p hp
    rw [hassigned p hp]
    rfl
  intro hconnected hfed hacyclic
  have hclear := clear_of_acyclic hfed hacyclic
  have hrules (p : Port) (hp : d.Undeclared p) :
      d.inferred (assigned known) false p = assigned known p := by
    have hsome := hsettled.known h hplaced hconnected hp.1 (hclear p)
    obtain ⟨ds, hds⟩ := Option.isSome_iff_exists.mp hsome
    rw [hkept p hsome, hds]
    exact inferred_extends (hsettled.derived.inferred_eq h hplaced hconnected hp (hclear p) hds) hkept
  refine ⟨?_, ⟨hkeeps, fun p hp => (hrules p hp).symm⟩, ?_⟩
  · intro p hp
    rw [infer_eq_inferred h hplaced hp.1, hrules p hp]
  · intro f hf p hp
    rw [hf.eq h hplaced hconnected hsettled hp (hclear p),
      hkept p (hsettled.known h hplaced hconnected hp (hclear p))]

end Diagram

namespace Nested

/-- A frame goes into a subsystem, by a `Goto` and a `From` block there, and out again. -/
def drawn : Diagram where
  name := "m"
  workspace := []
  blocks := #[⟨"u", "SubSystem", "m/u", some "InputFromWorkspace", none, [], 0, [some [2, 2, 2]]⟩,
    ⟨"sub", "SubSystem", "m/sub", none, none, [], 1, [none]⟩,
    ⟨"in", "Inport", "m/sub/in", none, some 1, [("Port", .int 1)], 0, [none]⟩,
    ⟨"goto", "Goto", "m/sub/goto", none, some 1, [("GotoTag", .text "t")], 1, []⟩,
    ⟨"from", "From", "m/sub/from", none, some 1, [("GotoTag", .text "t")], 0, [none]⟩,
    ⟨"out", "Outport", "m/sub/out", none, some 1, [("Port", .int 1)], 1, []⟩]
  lines := [⟨⟨0, .outport, 1⟩, ⟨1, .inport, 1⟩⟩, ⟨⟨2, .outport, 1⟩, ⟨3, .inport, 1⟩⟩,
    ⟨⟨4, .outport, 1⟩, ⟨5, .inport, 1⟩⟩]

def inp (i : Nat) : Port := ⟨i, .inport, 1⟩

def out (i : Nat) : Port := ⟨i, .outport, 1⟩

theorem number_in : drawn.required 2 "Port" = .ok (.int 1) := by cbv

theorem evaluable : drawn.Evaluable := by
  refine .of_scopes (by decide) (fun i hi htype _ => ?_) fun i hi htype => ?_
  · obtain rfl | rfl := (by decide : ∀ i < 6, (drawn.block i).type ∈ ["Inport", "Outport"] →
      i = 2 ∨ i = 5) i hi htype
    · exact ⟨1, .int 1, number_in, rfl⟩
    · exact ⟨1, .int 1, by cbv, rfl⟩
  · obtain rfl | rfl := (by decide : ∀ i < 6, (drawn.block i).type ∈ ["From", "Goto"] →
      i = 3 ∨ i = 4) i hi htype
    · exact ⟨.text "t", by cbv, rfl⟩
    · exact ⟨.text "t", by cbv, rfl⟩

theorem placed : drawn.Placed := by
  intro i hi htype parent n hparent hnumber
  obtain rfl := (by decide : ∀ i < 6, (drawn.block i).type = "Inport" → i = 2) i hi htype
  obtain ⟨v, hv, hn⟩ := hnumber
  cases number_in.symm.trans hv
  cases hn
  cases hparent
  decide

theorem connected : drawn.Connected := by
  unfold Diagram.Connected
  decide

theorem fedAt (i : Nat) (hi : i < drawn.blocks.size) : drawn.FedAt i := fun htype =>
  absurd htype ((by decide : ∀ i < 6, (drawn.block i).type ≠ "Demux") i hi)

/-- The rules of the outports that have no declared dimensions, and what drives the inports they read. -/
theorem undeclared {p : Port} (hp : drawn.Undeclared p) :
    ∃ i s, drawn.rule p = .ok (.copied i) ∧ drawn.source? i = some s ∧
      ((p = out 1 ∧ s = out 4) ∨ (p = out 2 ∧ s = out 0) ∨ (p = out 4 ∧ s = out 2)) := by
  have hall : ∀ p ∈ drawn.allOutports, p = out 0 ∨ p = out 1 ∨ p = out 2 ∨ p = out 4 := by decide
  obtain rfl | rfl | rfl | rfl := hall p hp.1
  · cases hp.2
  · exact ⟨inp 5, out 4, by cbv, rfl, .inl ⟨rfl, rfl⟩⟩
  · exact ⟨inp 1, out 0, by cbv, rfl, .inr (.inl ⟨rfl, rfl⟩)⟩
  · exact ⟨inp 3, out 2, by cbv, rfl, .inr (.inr ⟨rfl, rfl⟩)⟩

theorem acyclic (q : Port) : ¬ Relation.TransGen drawn.Needs q q := by
  let depth (p : Port) : Nat := [0, 3, 1, 0, 2].getD p.block 0
  have hdepth (p q : Port) (h : drawn.Needs p q) : depth q < depth p := by
    obtain ⟨hp, _, r, hr, i, hi, hq⟩ := h
    obtain ⟨j, s, hrule, hs, hcases⟩ := undeclared hp
    cases hrule.symm.trans hr
    cases List.mem_singleton.mp hi
    cases hs.symm.trans hq
    obtain ⟨rfl, rfl⟩ | ⟨rfl, rfl⟩ | ⟨rfl, rfl⟩ := hcases <;> decide
  intro hcycle
  have hlt : Relation.TransGen (fun a b : Nat => b < a) (depth q) (depth q) := hcycle.lift depth hdepth
  rw [Relation.transGen_eq_self] at hlt
  exact Nat.lt_irrefl _ hlt

/-- All outports carry the frame. -/
theorem solves : drawn.Solves fun _ => some [2, 2, 2] where
  keeps p hp ds hds := by
    have hall : ∀ p ∈ drawn.allOutports, ∀ ds ∈ drawn.declared? p, ds = [2, 2, 2] := by decide
    rw [hall p hp ds hds]
  rules p hp := by
    obtain ⟨i, s, hrule, hs, _⟩ := undeclared hp
    simp [Diagram.inferred, hrule, DimsRule.value, hs]

end Nested

/-- The frame reaches the outport of the subsystem. -/
theorem compile_solves_nested :
    Nested.drawn.Evaluable ∧ Nested.drawn.Placed ∧ Nested.drawn.Connected ∧
      (∀ i < Nested.drawn.blocks.size, Nested.drawn.FedAt i) ∧
      (∀ q, ¬ Relation.TransGen Nested.drawn.Needs q q) ∧
      ∃ known, Nested.drawn.compile = .ok { Nested.drawn with compiled := some known } ∧
        Diagram.assigned known (Nested.out 1) = some [2, 2, 2] ∧
        Nested.drawn.infer known false (Nested.out 1) = .ok (some [2, 2, 2]) := by
  obtain ⟨known, hcompile, _, _, hsolution⟩ := Diagram.compile_solves Nested.evaluable Nested.placed
  obtain ⟨hrules, _, hunique⟩ := hsolution Nested.connected Nested.fedAt Nested.acyclic
  have hmem : Nested.out 1 ∈ Nested.drawn.allOutports := by decide
  have hframe := hunique _ Nested.solves (Nested.out 1) hmem
  refine ⟨Nested.evaluable, Nested.placed, Nested.connected, Nested.fedAt, Nested.acyclic, known, hcompile,
    hframe.symm, ?_⟩
  rw [hrules (Nested.out 1) ⟨hmem, rfl⟩, ← hframe]

namespace Unplaced

/-- A subsystem without inports around an `Inport` block that has the number 0. -/
def drawn : Diagram where
  name := "m"
  workspace := []
  blocks := #[⟨"s", "SubSystem", "m/s", none, none, [], 0, []⟩,
    ⟨"in", "Inport", "m/s/in", none, some 0, [("Port", .int 0)], 0, [none]⟩]

theorem evaluable : drawn.Evaluable := by
  refine .of_scopes (by decide) (fun i hi htype _ => ?_) fun i hi htype => ?_
  · obtain rfl := (by decide : ∀ i < 2, (drawn.block i).type ∈ ["Inport", "Outport"] → i = 1) i hi htype
    exact ⟨0, .int 0, by cbv, rfl⟩
  · exact absurd htype ((by decide : ∀ i < 2, (drawn.block i).type ∉ ["From", "Goto"]) i hi)

theorem connected : drawn.Connected := by
  unfold Diagram.Connected
  decide

end Unplaced

namespace Blurred

def pair : Value := .tensor ⟨[2], [5, 6]⟩

/-- A frame that goes through a tag. The tag names two numbers. -/
def drawn : Diagram where
  name := "m"
  workspace := [("A", pair)]
  blocks := #[⟨"u", "SubSystem", "m/u", some "InputFromWorkspace", none, [], 0, [some [2, 2, 2]]⟩,
    ⟨"goto", "Goto", "m/goto", none, none, [("GotoTag", .text "A")], 1, []⟩,
    ⟨"from", "From", "m/from", none, none, [("GotoTag", .text "A")], 0, [none]⟩]
  lines := [⟨⟨0, .outport, 1⟩, ⟨1, .inport, 1⟩⟩]

theorem tagged : drawn.required 1 "GotoTag" = .ok pair ∧ drawn.required 2 "GotoTag" = .ok pair := by
  constructor <;> cbv

theorem placed : drawn.Placed := fun i hi htype =>
  absurd htype ((by decide : ∀ i < 3, (drawn.block i).type ≠ "Inport") i hi)

theorem connected : drawn.Connected := by
  unfold Diagram.Connected
  decide

end Blurred

/-- The number of an `Inport` block that stands for no inport around it stops compiling, and so do tags of
which it cannot be said whether they are equal. -/
theorem compile_stops_at_parameters :
    (Unplaced.drawn.Evaluable ∧ Unplaced.drawn.compile = .error .indexOutside) ∧
      Blurred.drawn.Placed ∧
      (∀ i < 3, (Blurred.drawn.block i).type ∈ ["From", "Goto"] →
        Blurred.drawn.required i "GotoTag" = .ok Blurred.pair) ∧
      Blurred.drawn.compile = .error .severalTruths := by
  refine ⟨⟨Unplaced.evaluable, by cbv⟩, Blurred.placed, fun i hi htype => ?_, by cbv⟩
  obtain rfl | rfl := (by decide : ∀ i < 3, (Blurred.drawn.block i).type ∈ ["From", "Goto"] →
    i = 1 ∨ i = 2) i hi htype
  · exact Blurred.tagged.1
  · exact Blurred.tagged.2

end Transcription
