import Transcription.Proofs.Diagram.Dependence

namespace Transcription

def Port.moved (p : Port) (π : Equiv.Perm Nat) : Port := { p with block := π p.block }

@[simp]
theorem Port.block_moved (p : Port) (π : Equiv.Perm Nat) : (p.moved π).block = π p.block := rfl

@[simp]
theorem Port.number_moved (p : Port) (π : Equiv.Perm Nat) : (p.moved π).number = p.number := rfl

def DimsRule.moved (r : DimsRule) (π : Equiv.Perm Nat) : DimsRule :=
  match r with
  | .fixed ds => .fixed ds
  | .copied q => .copied (q.moved π)
  | .joined qs => .joined (qs.map (Port.moved · π))
  | .shared q parts => .shared (q.map (Port.moved · π)) parts
  | .elementwise qs gain => .elementwise (qs.map (Port.moved · π)) gain

theorem DimsRule.value_moved (r : DimsRule) (π : Equiv.Perm Nat) (f : Port → Option Dims)
    (partly : Bool) : (r.moved π).value f partly = r.value (fun q => f (q.moved π)) partly := by
  cases r with
  | fixed | copied => rfl
  | joined qs => simp [moved, value, Function.comp_def]
  | shared q parts => cases q <;> rfl
  | elementwise qs gain => simp [moved, value, Function.comp_def]

def Line.moved (l : Line) (π : Equiv.Perm Nat) : Line := ⟨l.source.moved π, l.target.moved π⟩

namespace Diagram

/-- Two diagrams have the same blocks and lines, in an order of their own. -/
structure Reorders (d d' : Diagram) (π : Equiv.Perm Nat) : Prop where
  size_eq : d'.blocks.size = d.blocks.size
  inside : ∀ i, π i < d.blocks.size ↔ i < d.blocks.size
  block_eq : ∀ i, d'.block (π i) = { d.block i with parent := (d.block i).parent.map π }
  lines_perm : d'.lines.Perm (d.lines.map (Line.moved · π))
  workspace_eq : d'.workspace = d.workspace

def DrivenOnce (d : Diagram) : Prop := (d.lines.map Line.target).Nodup

def NumberedApart (d : Diagram) : Prop :=
  ∀ subsystem n i j, d.StandsFor subsystem "Outport" n i → d.StandsFor subsystem "Outport" n j → i = j

def TaggedApart (d : Diagram) : Prop :=
  ∀ i, (d.block i).type = "From" → ∀ j k, d.Tagged i j → d.Tagged i k → j = k

variable {d d' : Diagram} {π : Equiv.Perm Nat} {i j : Nat} {p q s : Port}

theorem moved_injective : Function.Injective (Port.moved · π) := by
  intro p q h
  obtain ⟨hblock, hside, hnumber⟩ := Port.mk.inj h
  cases p
  cases q
  cases π.injective hblock
  cases hside
  cases hnumber
  rfl

theorem moved_symm (p : Port) : (p.moved π.symm).moved π = p := by
  simp [Port.moved]

section Reorders

variable (h : d.Reorders d' π)

include h

theorem Reorders.inports_eq (i : Nat) : d'.inports (π i) = (d.inports i).map (Port.moved · π) := by
  simp [inports, h.block_eq, Port.moved, Function.comp_def]

theorem Reorders.outports_eq (i : Nat) : d'.outports (π i) = (d.outports i).map (Port.moved · π) := by
  simp [outports, h.block_eq, Block.outportCount, Port.moved, Function.comp_def]

theorem Reorders.mem_allOutports : p.moved π ∈ d'.allOutports ↔ p ∈ d.allOutports := by
  rw [Diagram.mem_allOutports, Diagram.mem_allOutports, h.size_eq]
  refine and_congr (h.inside p.block) ?_
  change p.moved π ∈ d'.outports (π p.block) ↔ _
  rw [h.outports_eq]
  exact List.mem_map_of_injective moved_injective

theorem Reorders.declared?_eq (p : Port) : d'.declared? (p.moved π) = d.declared? p := by
  simp [declared?, Port.moved, h.block_eq]

theorem Reorders.param?_eq (i : Nat) (name : String) : d'.param? (π i) name = d.param? i name := by
  simp only [param?, h.block_eq, h.workspace_eq]
  rfl

theorem Reorders.param_eq (i : Nat) (name : String) (v : Value) :
    d'.param (π i) name v = d.param i name v := by
  rw [param, param, h.param?_eq]

theorem Reorders.required_eq (i : Nat) (name : String) : d'.required (π i) name = d.required i name := by
  simp only [required, h.param?_eq, path, h.block_eq]

theorem Reorders.numbered_iff (i : Nat) (n : Int) : d'.Numbered (π i) n ↔ d.Numbered i n := by
  rw [Numbered, Numbered, h.required_eq]

theorem Reorders.port_eq (side : Side) (i : Nat) (n : Int) :
    d'.port side (π i) n = (Port.moved · π) <$> d.port side i n := by
  have hcount : d'.count (π i) side = d.count i side := by
    cases side <;> simp [count, h.block_eq, Block.outportCount]
  rw [port, port, hcount]
  cases position (d.count i side) (n - 1) <;> rfl

omit h in
/-- The outport of the one line to an inport. -/
theorem source?_eq_some (hd : d.DrivenOnce) (hq : q.side = .inport) :
    d.source? q = some s ↔ ∃ l ∈ d.lines, l.source = s ∧ l.target = q := by
  rw [source?, hq]
  constructor
  · intro hs
    obtain ⟨l, hl, hsource⟩ := Option.map_eq_some_iff.mp hs
    exact ⟨l, List.mem_of_find?_eq_some hl, hsource, by simpa using List.find?_some hl⟩
  · intro hline
    obtain ⟨l, hl, hsource, htarget⟩ := hline
    have hsome : (d.lines.find? fun l => l.target = q).isSome = true :=
      List.find?_isSome.mpr ⟨l, hl, by simpa using htarget⟩
    obtain ⟨m, hm⟩ := Option.isSome_iff_exists.mp hsome
    have hmq : m.target = q := by simpa using List.find?_some hm
    obtain rfl : m = l := List.inj_on_of_nodup_map hd (List.mem_of_find?_eq_some hm) hl
      (hmq.trans htarget.symm)
    exact Option.map_eq_some_iff.mpr ⟨m, hm, hsource⟩

theorem Reorders.drivenOnce (hd : d.DrivenOnce) : d'.DrivenOnce := by
  have hperm := h.lines_perm.map Line.target
  have hmap : (d.lines.map (Line.moved · π)).map Line.target =
      (d.lines.map Line.target).map (Port.moved · π) := by simp [Function.comp_def, Line.moved]
  rw [hmap] at hperm
  exact hperm.nodup_iff.mpr (hd.map moved_injective)

theorem Reorders.source?_eq (hd : d.DrivenOnce) (hq : q.side = .inport) :
    d'.source? (q.moved π) = (d.source? q).map (Port.moved · π) := by
  have hmoved : (q.moved π).side = .inport := hq
  refine Option.ext fun s => ?_
  rw [source?_eq_some (h.drivenOnce hd) hmoved, Option.map_eq_some_iff]
  constructor
  · intro hline
    obtain ⟨l', hl', hsource, htarget⟩ := hline
    obtain ⟨l, hl, rfl⟩ := List.mem_map.mp (h.lines_perm.mem_iff.mp hl')
    exact ⟨l.source, (source?_eq_some hd hq).mpr ⟨l, hl, rfl, moved_injective htarget⟩, hsource⟩
  · intro hline
    obtain ⟨s, hs, rfl⟩ := hline
    obtain ⟨l, hl, rfl, rfl⟩ := (source?_eq_some hd hq).mp hs
    exact ⟨l.moved π, h.lines_perm.mem_iff.mpr (List.mem_map_of_mem hl), rfl, rfl⟩

theorem Reorders.outerInport_eq (i : Nat) :
    d'.outerInport (π i) = (DimsRule.moved · π) <$> d.outerInport i := by
  unfold outerInport
  rw [h.required_eq]
  simp only [h.block_eq]
  cases (d.block i).parent with
  | none => rfl
  | some parent =>
    simp only [Option.map_some, h.block_eq, h.port_eq]
    cases d.required i "Port" with
    | error e => rfl
    | ok v =>
      simp only [bind, Except.bind]
      cases v.toInt with
      | error e => rfl
      | ok n =>
        by_cases hlt : ((d.block parent).inports : Int) < n
        · simp only [if_pos hlt]
          rfl
        · simp only [if_neg hlt]
          cases d.port .inport parent n <;> rfl

theorem Reorders.firstInport_eq (o : Option Nat) :
    d'.firstInport (o.map π) = (d.firstInport o).moved π := by
  cases o with
  | none => rfl
  | some i =>
    simp only [Option.map_some, firstInport, h.inports_eq]
    cases d.inports i <;> rfl

theorem Reorders.standsFor_iff (subsystem : Nat) (type : String) (n : Int) (i : Nat) :
    d'.StandsFor (π subsystem) type n (π i) ↔ d.StandsFor subsystem type n i := by
  simp [StandsFor, h.size_eq, h.inside, h.block_eq, h.numbered_iff]

theorem Reorders.hasTag_eq (i j : Nat) (tag : Value) :
    d'.hasTag (π i) (π j) tag = d.hasTag i j tag := by
  simp only [hasTag, sharesTag, h.required_eq, h.block_eq, h.workspace_eq]
  rfl

theorem Reorders.tagged_iff (i j : Nat) : d'.Tagged (π i) (π j) ↔ d.Tagged i j := by
  simp [Tagged, h.size_eq, h.inside, h.block_eq, h.required_eq, h.hasTag_eq]

omit h in
/-- Searches for what there is once find the same in both orders. -/
theorem Finds.moved {P P' : Nat → Prop} {o o' : Option Nat} (ho : Finds P o) (ho' : Finds P' o')
    (hiff : ∀ i, P' (π i) ↔ P i) (honce : ∀ i j, P i → P j → i = j) : o' = o.map π := by
  have hback (i : Nat) (hi : P' i) : P (π.symm i) := by
    rw [← hiff, π.apply_symm_apply]
    exact hi
  cases o with
  | none =>
    cases o' with
    | none => rfl
    | some j => exact absurd (hback j (ho'.sound j rfl)) (ho.complete rfl _)
  | some i =>
    have hi := ho.sound i rfl
    cases o' with
    | none => exact absurd ((hiff i).mpr hi) (ho'.complete rfl _)
    | some j =>
      rw [honce i _ hi (hback j (ho'.sound j rfl)), Option.map_some, π.apply_symm_apply]

/-- Parameters evaluate in one order if they do in the other. -/
theorem Reorders.evaluable (hd : d.Evaluable) : d'.Evaluable := by
  have hback {P : Nat → Prop} (hP : ∀ i < d.blocks.size, P (π i)) : ∀ i < d'.blocks.size, P i := by
    intro i hi
    rw [← π.apply_symm_apply i]
    refine hP _ ((h.inside _).mp ?_)
    rwa [π.apply_symm_apply, ← h.size_eq]
  exact {
    numbered := hback fun i hi => by
      simpa [h.block_eq, h.numbered_iff] using hd.numbered i hi
    tagged := hback fun i hi => by
      simpa [h.block_eq, h.required_eq] using hd.tagged i hi
    comparable := hback fun i hi htype tag htag => hback fun j hj htype' => by
      rw [h.block_eq] at htype htype'
      rw [h.hasTag_eq]
      exact hd.comparable i hi htype tag (h.required_eq i _ ▸ htag) j hj htype'
    coefficients := hback fun i hi => by
      simpa [h.block_eq, h.required_eq] using hd.coefficients i hi
    constants := hback fun i hi => by
      simpa [h.block_eq, h.param_eq] using hd.constants i hi
    gains := hback fun i hi => by
      simpa [h.block_eq, h.param_eq] using hd.gains i hi }

theorem Reorders.placed (hd : d.Placed) : d'.Placed := by
  intro i hi htype parent n hparent hnumber
  obtain ⟨i, rfl⟩ := π.surjective i
  rw [h.size_eq, h.inside] at hi
  rw [h.block_eq] at htype hparent
  obtain ⟨parent, hinner, rfl⟩ := Option.map_eq_some_iff.mp hparent
  rw [h.block_eq]
  exact hd i hi htype parent n hinner ((h.numbered_iff i n).mp hnumber)

theorem Reorders.innerPort?_eq (hd : d.Evaluable) (hapart : d.NumberedApart) (subsystem : Nat) (n : Int) :
    d'.innerPort? (π subsystem) "Outport" n = Option.map π <$> d.innerPort? subsystem "Outport" n := by
  have hd' := h.evaluable hd
  obtain ⟨o, ho, hfinds⟩ := innerPort?_ok (fun i hi (htype : (d.block i).type = "Outport") =>
    hd.numbered i hi (by simp [htype])) subsystem n
  obtain ⟨o', ho', hfinds'⟩ := innerPort?_ok (fun i hi (htype : (d'.block i).type = "Outport") =>
    hd'.numbered i hi (by simp [htype])) (π subsystem) n
  rw [ho, ho', hfinds.moved hfinds' (h.standsFor_iff _ _ _) (hapart subsystem n)]
  rfl

theorem Reorders.goto?_eq (hd : d.Evaluable) (hapart : d.TaggedApart) (hi : i < d.blocks.size)
    (htype : (d.block i).type = "From") : d'.goto? (π i) = Option.map π <$> d.goto? i := by
  obtain ⟨tag, htag⟩ := hd.tagged i hi (by simp [htype])
  obtain ⟨o, ho, hfinds⟩ := goto?_ok hd.comparable hi htype htag
  obtain ⟨o', ho', hfinds'⟩ := goto?_ok (h.evaluable hd).comparable (i := π i)
    (by rwa [h.size_eq, h.inside]) (by rwa [h.block_eq]) ((h.required_eq i _).trans htag)
  rw [ho, ho', hfinds.moved hfinds' (h.tagged_iff i) (hapart i htype)]
  rfl

/-- A rule is the same in both orders, with its inports moved. -/
theorem Reorders.rule_eq (hd : d.Evaluable) (hnumbers : d.NumberedApart) (htags : d.TaggedApart)
    (hp : p ∈ d.allOutports) : d'.rule (p.moved π) = (DimsRule.moved · π) <$> d.rule p := by
  have hlt := (Diagram.mem_allOutports.mp hp).1
  unfold rule
  simp only [Port.block_moved, Port.number_moved, h.block_eq]
  split_ifs with hinport hsubsystem hfrom
  · exact h.outerInport_eq p.block
  · rw [h.innerPort?_eq hd hnumbers]
    cases d.innerPort? p.block "Outport" p.number with
    | error e => rfl
    | ok o => exact congrArg Except.ok (h.firstInport_eq o)
  · rw [h.goto?_eq hd htags hlt hfrom]
    cases d.goto? p.block with
    | error e => rfl
    | ok o => exact congrArg Except.ok (h.firstInport_eq o)
  · rw [h.inports_eq]
    rfl
  · rw [h.inports_eq, List.head?_map]
    rfl
  · rw [h.required_eq]
    cases d.required p.block "K" with
    | error e => rfl
    | ok K =>
      simp only [bind, Except.bind]
      cases coefficientRows K <;> rfl
  · rw [h.param_eq]
    cases (d.param p.block "Value" (.float 1)).size <;> rfl
  · rw [h.param_eq, h.inports_eq]
    cases (d.param p.block "Gain" (.float 1)).size <;> rfl
  · rw [h.inports_eq]
    rfl

end Reorders

/-- Parameters evaluate, and lines, port numbers and tags lead to one block each. -/
structure Unambiguous (d : Diagram) : Prop where
  evaluable : d.Evaluable
  placed : d.Placed
  drivenOnce : d.DrivenOnce
  numberedApart : d.NumberedApart
  taggedApart : d.TaggedApart

/-- What all inferences about some outports agree on, if anything follows. They are those from dimensions
that keep what is declared and that are, at these outports, among the ones agreed on; guesses are made from
such dimensions once nothing follows from all inputs of a block. -/
structure Agreed (d : Diagram) (S : Set Port) (σ : Port → Option Dims) : Prop where
  declared : ∀ p ∈ d.allOutports, p ∈ S → ∀ ds, d.declared? p = some ds → σ p = some ds
  inferred : ∀ κ partly, d.Keeps κ → (∀ q ∈ S, ∀ ds, κ q = some ds → σ q = some ds) →
    (partly = true → d.Stalled κ) → ∀ p ∈ S, d.Undeclared p → κ p = none →
      ∀ ds, d.inferred κ partly p = some ds → σ p = some ds

section Settling

variable {κ κ' : Port → Option Dims} {partly : Bool} {ds : Dims} {S : Set Port} {σ : Port → Option Dims}

section Reorders

variable (h : d.Reorders d' π) (hd : d.Unambiguous)

include h hd

theorem Reorders.inferred_eq (hp : p ∈ d.allOutports) :
    d'.inferred κ partly (p.moved π) = d.inferred (fun q => κ (q.moved π)) partly p := by
  unfold inferred
  rw [h.rule_eq hd.evaluable hd.numberedApart hd.taggedApart hp]
  cases hr : d.rule p with
  | error e => rfl
  | ok r =>
    refine (DimsRule.value_moved r π _ _).trans (DimsRule.value_congr fun q hq => ?_)
    obtain ⟨i, _, hmem⟩ := reads_inports hr hq
    rw [h.source?_eq hd.drivenOnce (side_inports hmem)]
    cases d.source? q <;> rfl

theorem Reorders.stalled (hstalled : d'.Stalled κ) : d.Stalled fun q => κ (q.moved π) := by
  intro p hp hopen
  rw [← h.inferred_eq hd hp]
  exact hstalled (p.moved π) (h.mem_allOutports.mpr hp) hopen

/-- What can be known in one order can be known in the other. -/
theorem Reorders.derived (hderived : d'.Derived κ) : d.Derived fun q => κ (q.moved π) := by
  induction hderived with
  | given =>
    have hgiven : (fun q => d'.given (q.moved π)) = d.given := by
      funext q
      simp only [given, h.mem_allOutports, h.declared?_eq]
    rw [hgiven]
    exact .given
  | @settle κ partly p ds _ hp hopen hpartly hds ih =>
    obtain ⟨p, rfl⟩ : ∃ q : Port, q.moved π = p := ⟨_, moved_symm p⟩
    have hp := h.mem_allOutports.mp hp
    have hupdate : (fun q => Function.update κ (Port.moved p π) (some ds) (Port.moved q π)) =
        Function.update (fun q => κ (Port.moved q π)) p (some ds) :=
      Function.update_comp_eq_of_injective κ moved_injective p (some ds)
    rw [hupdate]
    rw [h.inferred_eq hd hp] at hds
    exact ih.settle hp hopen (fun hpartly' => h.stalled hd (hpartly hpartly')) hds

theorem Reorders.settled (hsettled : d'.Settled κ) : d.Settled fun q => κ (q.moved π) where
  derived := h.derived hd hsettled.derived
  exhausted p hp hopen := by
    rw [← h.inferred_eq hd hp]
    exact hsettled.exhausted (p.moved π) (h.mem_allOutports.mpr hp) hopen

end Reorders

/-- When nothing more follows, all is known that can be known. -/
theorem Settled.known_of_derived (hsettled : d.Settled κ) (hderived : d.Derived κ') (p : Port)
    (hp : (κ' p).isSome = true) : (κ p).isSome = true := by
  induction hderived generalizing p with
  | given =>
    have hmem := Derived.given.mem hp
    obtain ⟨ds, hds⟩ := Option.isSome_iff_exists.mp hp
    rw [given, if_pos hmem] at hds
    rw [hsettled.derived.keeps p hmem ds hds]
    rfl
  | @settle κ' partly q ds _ hq _ _ hds ih =>
    by_cases hpq : p = q
    · subst hpq
      by_contra hopen
      have hmore := inferred_grows hds ih
      rw [hsettled.exhausted p hq (by simpa using hopen)] at hmore
      cases hmore
    · rw [Function.update_of_ne hpq] at hp
      exact ih p hp

/-- Outports that all inferences agree on have no other dimensions. -/
theorem Agreed.eq_of_derived (h : d.Agreed S σ) (hderived : d.Derived κ) (p : Port) (hp : p ∈ S)
    (ds : Dims) (hds : κ p = some ds) : σ p = some ds := by
  induction hderived generalizing p ds with
  | given =>
    have hmem := Derived.given.mem (d := d) (p := p) (by rw [hds]; rfl)
    rw [given, if_pos hmem] at hds
    exact h.declared p hmem hp ds hds
  | @settle κ partly q es hderived hq hopen hpartly hes ih =>
    by_cases hpq : p = q
    · subst hpq
      obtain rfl : es = ds := by simpa using hds
      refine h.inferred κ partly hderived.keeps ih hpartly p hp ⟨hq, ?_⟩ hopen es hes
      by_contra hdeclared
      obtain ⟨fs, hfs⟩ := Option.ne_none_iff_exists'.mp hdeclared
      rw [hderived.keeps p hq fs hfs] at hopen
      cases hopen
    · rw [Function.update_of_ne hpq] at hds
      exact ih p hp ds hds

/-- All inferences agree on clear outports. -/
theorem agreed_clear (hd : d.Evaluable) (hplaced : d.Placed) (hconnected : d.Connected)
    (hsettled : d.Settled κ) : d.Agreed {p | d.Clear p} κ where
  declared p hp _ ds hds := hsettled.derived.keeps p hp ds hds
  inferred κ' partly hkeeps hagree hpartly p hclear hp hopen ds hds := by
    cases partly with
    | true =>
      -- guesses find clear outports known already
      have hknown := (hpartly rfl).known hd hplaced hconnected hkeeps hp.1 hclear
      rw [hopen] at hknown
      cases hknown
    | false =>
      obtain ⟨es, hes⟩ := Option.isSome_iff_exists.mp
        (hsettled.known hd hplaced hconnected hp.1 hclear)
      have hrule := hsettled.derived.inferred_eq hd hplaced hconnected hp hclear hes
      have hsame : d.inferred κ' false p = d.inferred κ false p := by
        refine inferred_congr fun r hr i hi s hs => ?_
        obtain ⟨t, ht, hsource⟩ := hconnected.exists_source hr hi
        cases hs.symm.trans hsource
        cases hdeclared : d.declared? s with
        | some fs => rw [hkeeps s ht fs hdeclared, hsettled.derived.keeps s ht fs hdeclared]
        | none =>
          have hneeds : d.Needs p s := ⟨hp, ⟨ht, hdeclared⟩, r, hr, i, hi, hs⟩
          obtain ⟨fs, hfs⟩ := Option.isSome_iff_exists.mp (known_of_inferred hds hr hi hs)
          rw [hfs, hagree s (hclear.of_needs hneeds) fs hfs]
      rw [hes, ← hrule, ← hsame, hds]

/-- Where all inferences agree, the end does not depend on the way there. -/
theorem Agreed.eq_of_settled (h : d.Agreed S σ) (hκ : d.Settled κ) (hκ' : d.Settled κ') (hp : p ∈ S) :
    κ' p = κ p := by
  cases hds : κ p with
  | some ds =>
    have hknown := hκ'.known_of_derived hκ.derived p (by rw [hds]; rfl)
    obtain ⟨es, hes⟩ := Option.isSome_iff_exists.mp hknown
    rw [hes, ← h.eq_of_derived hκ'.derived p hp es hes, h.eq_of_derived hκ.derived p hp ds hds]
  | none =>
    by_contra hsome
    obtain ⟨es, hes⟩ := Option.ne_none_iff_exists'.mp hsome
    have hknown := hκ.known_of_derived hκ'.derived p (by rw [hes]; rfl)
    rw [hds] at hknown
    cases hknown

end Settling

/-- Compiling a diagram in another order gives dimensions to all outports, and the same ones wherever all
inferences agree. So it does for clear outports, which depend on no outport that depends on itself. -/
theorem compile_reordered (h : d.Reorders d' π) (hd : d.Unambiguous) (hconnected : d.Connected) :
    ∃ known known', d.compile = .ok { d with compiled := some known } ∧
      d'.compile = .ok { d' with compiled := some known' } ∧
      (∀ p ∈ d.allOutports, (assigned known p).isSome = true ∧
        (assigned known' (p.moved π)).isSome = true) ∧
      (∀ p ∈ d.allOutports, d.Clear p → assigned known' (p.moved π) = assigned known p) ∧
      ∀ S σ, d.Agreed S σ → ∀ p ∈ d.allOutports, p ∈ S →
        assigned known' (p.moved π) = assigned known p := by
  obtain ⟨known, κ, hknown, hκ, hfinal⟩ := exists_dimensions hd.evaluable hd.placed
  obtain ⟨known', κ', hknown', hκ', hfinal'⟩ :=
    exists_dimensions (h.evaluable hd.evaluable) (h.placed hd.placed)
  have hassigned (p : Port) (hp : p ∈ d.allOutports) :
      assigned known p = some ((κ p).getD Dims.scalar) := hfinal p hp
  have hassigned' (p : Port) (hp : p ∈ d.allOutports) :
      assigned known' (p.moved π) = some ((κ' (p.moved π)).getD Dims.scalar) :=
    hfinal' _ (h.mem_allOutports.mpr hp)
  have hagreed (S : Set Port) (σ : Port → Option Dims) (hS : d.Agreed S σ) (p : Port) (hp : p ∈ d.allOutports)
      (hmem : p ∈ S) : assigned known' (p.moved π) = assigned known p := by
    have hsame : κ' (p.moved π) = κ p := hS.eq_of_settled hκ (h.settled hd hκ') hmem
    rw [hassigned' p hp, hassigned p hp, hsame]
  refine ⟨known, known', ?_, ?_, ?_, ?_, hagreed⟩
  · rw [compile, hknown]
    rfl
  · rw [compile, hknown']
    rfl
  · intro p hp
    simp [hassigned p hp, hassigned' p hp]
  · intro p hp hclear
    exact hagreed _ _ (agreed_clear hd.evaluable hd.placed hconnected hκ) p hp hclear

end Diagram

namespace Loops

def source (name : String) (width : Int) : Diagram.Block :=
  ⟨name, "SubSystem", "m/" ++ name, some "InputFromWorkspace", none, [], 0, [some [1, width]]⟩

def sum (name : String) : Diagram.Block := ⟨name, "Sum", "m/" ++ name, none, none, [], 2, [none]⟩

def delay (name : String) : Diagram.Block := ⟨name, "UnitDelay", "m/" ++ name, none, none, [], 1, [none]⟩

def line (i j k : Nat) : Line := ⟨⟨i, .outport, 1⟩, ⟨j, .inport, k⟩⟩

def out (i : Nat) : Port := ⟨i, .outport, 1⟩

def running : Diagram where
  name := "m"
  workspace := []
  blocks := #[source "u" 2, sum "sum", delay "delay"]
  lines := [line 0 1 1, line 2 1 2, line 1 2 1]

def runningBack : Diagram where
  name := "m"
  workspace := []
  blocks := #[source "u" 2, delay "delay", sum "sum"]
  lines := [line 0 2 1, line 1 2 2, line 2 1 1]

/-- Two sums that are added to each other, of inputs that are one and three wide. -/
def crossed : Diagram where
  name := "m"
  workspace := []
  blocks := #[source "u" 1, source "v" 3, sum "a", sum "b"]
  lines := [line 0 2 1, line 3 2 2, line 1 3 1, line 2 3 2]

def crossedBack : Diagram where
  name := "m"
  workspace := []
  blocks := #[source "u" 1, source "v" 3, sum "b", sum "a"]
  lines := [line 0 3 1, line 2 3 2, line 1 2 1, line 3 2 2]

def widths (w : Int) : Diagram.Known :=
  [(out 3, [1, 3]), (out 2, [1, w]), (out 0, [1, 1]), (out 1, [1, 3])]

/-- A diagram without parameters and subsystems has nothing that could be read wrongly. -/
theorem unambiguous {d : Diagram} (hplain : ∀ i < d.blocks.size,
      (d.block i).reference ≠ some "Polyblock" ∧ (d.block i).type ∉ ["Constant", "Gain"])
    (htypes : ∀ i < d.blocks.size, (d.block i).type ∉ ["Inport", "Outport", "From", "Goto"])
    (hlines : d.DrivenOnce) : d.Unambiguous where
  evaluable := .of_scopes hplain (fun i hi htype => absurd htype fun h => htypes i hi (by simp_all))
    fun i hi htype => absurd htype fun h => htypes i hi (by simp_all)
  placed i hi htype := absurd htype fun h => htypes i hi (by simp [h])
  drivenOnce := hlines
  numberedApart _ _ i _ hi _ := absurd hi.2.2.1 fun h => htypes i hi.1 (by simp [h])
  taggedApart _ _ j _ hj _ := absurd hj.2.1 fun h => htypes j hj.1 (by simp [h])

/-- Two blocks change places. -/
theorem reorders_swap {d d' : Diagram} {a b : Nat} (ha : a < d.blocks.size) (hb : b < d.blocks.size)
    (hsize : d'.blocks.size = d.blocks.size) (hblocks : ∀ i < d.blocks.size,
      d'.block (Equiv.swap a b i) = { d.block i with parent := (d.block i).parent.map (Equiv.swap a b) })
    (hlines : d'.lines = d.lines.map (Line.moved · (Equiv.swap a b)))
    (hworkspace : d'.workspace = d.workspace) : d.Reorders d' (Equiv.swap a b) where
  size_eq := hsize
  inside i := by
    rw [Equiv.swap_apply_def]
    split_ifs <;> omega
  block_eq i := by
    by_cases hi : i < d.blocks.size
    · exact hblocks i hi
    · have hplace : Equiv.swap a b i = i := Equiv.swap_apply_of_ne_of_ne (by omega) (by omega)
      rw [hplace, Diagram.block_eq_default hi, Diagram.block_eq_default (hsize ▸ hi)]
      rfl
  lines_perm := .of_eq hlines
  workspace_eq := hworkspace

theorem reorders_running : running.Reorders runningBack (Equiv.swap 1 2) := by
  refine reorders_swap (by decide) (by decide) rfl (fun i hi => ?_) rfl rfl
  obtain rfl | rfl | rfl : i = 0 ∨ i = 1 ∨ i = 2 := by
    have : i < 3 := hi
    omega
  all_goals rfl

theorem reorders_crossed : crossed.Reorders crossedBack (Equiv.swap 2 3) := by
  refine reorders_swap (by decide) (by decide) rfl (fun i hi => ?_) rfl rfl
  obtain rfl | rfl | rfl | rfl : i = 0 ∨ i = 1 ∨ i = 2 ∨ i = 3 := by
    have : i < 4 := hi
    omega
  all_goals rfl

theorem unambiguous_running : running.Unambiguous := unambiguous (by decide) (by decide) (by
  unfold Diagram.DrivenOnce
  decide)

theorem unambiguous_crossed : crossed.Unambiguous := unambiguous (by decide) (by decide) (by
  unfold Diagram.DrivenOnce
  decide)

theorem connected_running : running.Connected := by
  unfold Diagram.Connected
  decide

theorem connected_crossed : crossed.Connected := by
  unfold Diagram.Connected
  decide

/-- Both ports of the loop are as wide as the input, whatever is settled first. -/
theorem agreed_running : running.Agreed Set.univ fun _ => some [1, 2] where
  declared p hp _ ds hds := by
    have hall : ∀ p ∈ running.allOutports, ∀ ds ∈ running.declared? p, ds = [1, 2] := by decide
    rw [hall p hp ds hds]
  inferred κ partly hkeeps hagree _ p _ hp _ ds hds := by
    have hknown (q : Port) : κ q = none ∨ κ q = some [1, 2] := by
      cases hq : κ q with
      | none => exact .inl rfl
      | some es => exact .inr (hagree q trivial es hq).symm
    have hinput : κ (out 0) = some [1, 2] := hkeeps (out 0) (by decide) [1, 2] rfl
    have hall : ∀ p ∈ running.allOutports, p = out 0 ∨ p = out 1 ∨ p = out 2 := by decide
    obtain rfl | rfl | rfl := hall p hp.1
    · cases hp.2
    · have hsum : Diagram.elementwise [κ (out 0), κ (out 2)] none partly = some ds := hds
      rw [hinput] at hsum
      obtain hback | hback := hknown (out 2) <;> rw [hback] at hsum <;> cases partly <;> cases hsum <;> rfl
    · have hdelay : Diagram.elementwise [κ (out 1)] none partly = some ds := hds
      obtain hback | hback := hknown (out 1) <;> rw [hback] at hdelay <;> cases partly <;>
        cases hdelay <;> rfl

end Loops

/-- The loop of a sum and a delay has the dimensions of its input in either order. -/
theorem compile_reordered_running :
    Loops.running.Reorders Loops.runningBack (Equiv.swap 1 2) ∧ Loops.running.Unambiguous ∧
      Loops.running.Connected ∧ Loops.running.Agreed Set.univ (fun _ => some [1, 2]) ∧
      ∃ known known', Loops.running.compile = .ok { Loops.running with compiled := some known } ∧
        Loops.runningBack.compile = .ok { Loops.runningBack with compiled := some known' } ∧
        Diagram.assigned known' (Loops.out 2) = Diagram.assigned known (Loops.out 1) ∧
        Diagram.assigned known' (Loops.out 1) = Diagram.assigned known (Loops.out 2) := by
  obtain ⟨known, known', hknown, hknown', _, _, hagreed⟩ := Diagram.compile_reordered
    Loops.reorders_running Loops.unambiguous_running Loops.connected_running
  have hsame := hagreed Set.univ _ Loops.agreed_running
  refine ⟨Loops.reorders_running, Loops.unambiguous_running, Loops.connected_running,
    Loops.agreed_running, known, known', hknown, hknown', ?_, ?_⟩
  · exact hsame (Loops.out 1) (by decide) trivial
  · exact hsame (Loops.out 2) (by decide) trivial

/-- A guess about two loops depends on the order of their blocks: the sum that is settled first, without
the other one, is as wide as its input. In no order are there dimensions where the number of an `Inport`
block stands for no inport around it, or where tags cannot be compared. -/
theorem compile_out_of_order :
    (Loops.crossed.Reorders Loops.crossedBack (Equiv.swap 2 3) ∧ Loops.crossed.Unambiguous ∧
      Loops.crossed.Connected ∧
      Loops.crossed.compile = .ok { Loops.crossed with compiled := some (Loops.widths 1) } ∧
      Loops.crossedBack.compile = .ok { Loops.crossedBack with compiled := some (Loops.widths 3) } ∧
      Diagram.assigned (Loops.widths 3) ((Loops.out 2).moved (Equiv.swap 2 3)) ≠
        Diagram.assigned (Loops.widths 1) (Loops.out 2)) ∧
      (Unplaced.drawn.Evaluable ∧ Unplaced.drawn.Connected ∧
        Unplaced.drawn.compile = .error .indexOutside) ∧
      Blurred.drawn.Placed ∧ Blurred.drawn.Connected ∧
        Blurred.drawn.compile = .error .severalTruths := by
  have hknown : Loops.crossed.dimensions = .ok (Loops.widths 1) := by cbv
  have hknown' : Loops.crossedBack.dimensions = .ok (Loops.widths 3) := by cbv
  refine ⟨⟨Loops.reorders_crossed, Loops.unambiguous_crossed, Loops.connected_crossed, ?_, ?_,
    by decide⟩, ⟨Unplaced.evaluable, Unplaced.connected, by cbv⟩, Blurred.placed, Blurred.connected,
    by cbv⟩
  · rw [Diagram.compile, hknown]
    rfl
  · rw [Diagram.compile, hknown']
    rfl

end Transcription
