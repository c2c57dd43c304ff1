import Transcription.Proofs.Diagram.Inference

namespace Transcription

namespace Diagram

def declared? (d : Diagram) (p : Port) : Option Dims := (d.block p.block).outports.getD (p.number - 1) none

def given (d : Diagram) (p : Port) : Option Dims := if p ∈ d.allOutports then d.declared? p else none

def assigned (known : Known) (p : Port) : Option Dims := known.lookup p

def inferred (d : Diagram) (κ : Port → Option Dims) (partly : Bool) (p : Port) : Option Dims :=
  match d.rule p with
  | .ok r => r.value (fun q => (d.source? q).bind κ) partly
  | .error _ => none

def Stalled (d : Diagram) (κ : Port → Option Dims) : Prop :=
  ∀ p ∈ d.allOutports, κ p = none → d.inferred κ false p = none

/-- What can be known of a diagram: what is declared, and further dimensions that follow one by one. They
follow from all inputs of a block, or from some when nothing follows from all. -/
inductive Derived (d : Diagram) : (Port → Option Dims) → Prop
  | given : Derived d d.given
  | settle {κ : Port → Option Dims} {partly : Bool} {p : Port} {ds : Dims} (h : Derived d κ)
    (hp : p ∈ d.allOutports) (hopen : κ p = none) (hpartly : partly = true → d.Stalled κ)
    (hds : d.inferred κ partly p = some ds) : Derived d (Function.update κ p (some ds))

structure Settled (d : Diagram) (κ : Port → Option Dims) : Prop where
  derived : d.Derived κ
  exhausted : ∀ p ∈ d.allOutports, κ p = none → d.inferred κ true p = none

structure Pending (d : Diagram) (κ : Port → Option Dims) (ps : List Port) : Prop where
  nodup : ps.Nodup
  mem_iff : ∀ p, p ∈ ps ↔ p ∈ d.allOutports ∧ κ p = none

structure Swept (d : Diagram) (partly : Bool) (ps : List Port) (known : Known) (r : Known × List Port) :
    Prop where
  derived : d.Derived (assigned r.1)
  sublist : r.2.Sublist ps
  others : ∀ p ∉ ps, assigned r.1 p = assigned known p
  mem_iff : ∀ p ∈ ps, p ∈ r.2 ↔ assigned r.1 p = none
  idle : ps.length ≤ r.2.length → r.1 = known ∧ ∀ p ∈ ps, d.inferred (assigned known) partly p = none

variable {d : Diagram} {p q : Port} {κ : Port → Option Dims} {ds : Dims} {partly : Bool} {known : Known}
  {ps : List Port}

theorem inferred_eq_some : d.inferred κ partly p = some ds ↔
    ∃ r, d.rule p = .ok r ∧ r.value (fun q => (d.source? q).bind κ) partly = some ds := by
  unfold inferred
  cases d.rule p <;> simp

theorem infer_eq_inferred (h : d.Evaluable) (hplaced : d.Placed) (hp : p ∈ d.allOutports)
    (known : Known) (partly : Bool) :
    d.infer known partly p = .ok (d.inferred (assigned known) partly p) := by
  obtain ⟨r, hr⟩ := exists_rule h hplaced hp
  rw [infer_eq hr, inferred, hr]
  rfl

/-- What inference finds, or does not find, is what the rule says. -/
theorem inferred_of_infer {o : Option Dims} (h : d.infer known partly p = .ok o) :
    d.inferred (assigned known) partly p = o := by
  rw [inferred]
  cases hr : d.rule p with
  | ok r => exact Except.ok.inj ((infer_eq hr known partly).symm.trans h)
  | error e =>
    cases o with
    | none => rfl
    | some ds =>
      obtain ⟨r, hr'⟩ := exists_rule_of_infer h
      cases hr.symm.trans hr'

@[simp]
theorem assigned_cons (known : Known) (p : Port) (ds : Dims) :
    assigned ((p, ds) :: known) = Function.update (assigned known) p (some ds) := by
  funext q
  by_cases hq : q = p
  · simp [assigned, hq]
  · have hne : (q == p) = false := by simpa using hq
    simp [assigned, List.lookup_cons, hne, hq]

/-- A sweep passes over an outport that it cannot settle. -/
theorem Swept.skip {r : Known × List Port} (h : d.Swept partly ps known r) (hfresh : p ∉ ps)
    (hopen : assigned known p = none) (hds : d.inferred (assigned known) partly p = none) :
    d.Swept partly (p :: ps) known (r.1, p :: r.2) where
  derived := h.derived
  sublist := h.sublist.cons_cons p
  others q hq := h.others q fun hmem => hq (List.mem_cons_of_mem _ hmem)
  mem_iff := by
    refine List.forall_mem_cons.mpr ⟨?_, fun q hq => ?_⟩
    · simp [h.others p hfresh, hopen]
    · have hne : q ≠ p := by
        rintro rfl
        exact hfresh hq
      simpa [hne] using h.mem_iff q hq
  idle hlength := by
    obtain ⟨hknown, hidle⟩ := h.idle (Nat.le_of_succ_le_succ hlength)
    exact ⟨hknown, List.forall_mem_cons.mpr ⟨hds, hidle⟩⟩

/-- A sweep goes on after an outport that it has settled. -/
theorem Swept.next {r : Known × List Port} (h : d.Swept partly ps ((p, ds) :: known) r)
    (hfresh : p ∉ ps) : d.Swept partly (p :: ps) known r where
  derived := h.derived
  sublist := h.sublist.cons p
  others q hq := by
    rw [h.others q (List.not_mem_of_not_mem_cons hq), assigned_cons,
      Function.update_of_ne (List.ne_of_not_mem_cons hq)]
  mem_iff := by
    refine List.forall_mem_cons.mpr ⟨?_, h.mem_iff⟩
    have hgone : p ∉ r.2 := fun hmem => hfresh (h.sublist.subset hmem)
    simp [hgone, h.others p hfresh]
  idle hlength := absurd (h.sublist.length_le) (Nat.not_le.mpr hlength)

/-- A sweep may stop at an outport that it has settled. -/
theorem swept_first (hderived : d.Derived (assigned ((p, ds) :: known))) (hfresh : p ∉ ps)
    (hopen : ∀ q ∈ ps, assigned known q = none) :
    d.Swept partly (p :: ps) known ((p, ds) :: known, ps) where
  derived := hderived
  sublist := List.sublist_cons_self p ps
  others q hq := by simp [List.ne_of_not_mem_cons hq]
  mem_iff := by
    refine List.forall_mem_cons.mpr ⟨by simp [hfresh], fun q hq => ?_⟩
    have hne : q ≠ p := by
      rintro rfl
      exact hfresh hq
    simp [hq, hne, hopen q hq]
  idle hlength := absurd hlength (Nat.not_succ_le_self _)

/-- What a sweep over all outports that are open leaves is what is open after it. -/
theorem Swept.pending {r : Known × List Port} (h : d.Swept partly ps known r)
    (hpending : d.Pending (assigned known) ps) : d.Pending (assigned r.1) r.2 where
  nodup := hpending.nodup.sublist h.sublist
  mem_iff p := by
    by_cases hp : p ∈ ps
    · rw [h.mem_iff p hp, iff_and_self]
      exact fun _ => ((hpending.mem_iff p).mp hp).1
    · have hgone : p ∉ r.2 := fun hmem => hp (h.sublist.subset hmem)
      simpa [hgone, h.others p hp] using mt (hpending.mem_iff p).mpr hp

/-- A sweep over outports that are open settles some of them, or finds that none can be settled. -/
theorem swept_of_sweep (hpartly : partly = true → d.Stalled (assigned known))
    (hderived : d.Derived (assigned known)) (hnodup : ps.Nodup)
    (hopen : ∀ p ∈ ps, p ∈ d.allOutports ∧ assigned known p = none) {r : Known × List Port}
    (hr : d.sweep partly ps known = .ok r) : d.Swept partly ps known r := by
  induction ps generalizing known r with
  | nil =>
    cases hr
    refine ⟨hderived, .slnil, fun _ _ => rfl, List.forall_mem_nil _, fun _ => ?_⟩
    exact ⟨rfl, List.forall_mem_nil _⟩
  | cons p ps ih =>
    obtain ⟨⟨hp, hnone⟩, hrest⟩ := List.forall_mem_cons.mp hopen
    obtain ⟨hfresh, hnodup⟩ := List.nodup_cons.mp hnodup
    obtain ⟨o, ho, hr⟩ := except_bind_eq_ok.mp hr
    have hds := inferred_of_infer ho
    cases o with
    | none =>
      obtain ⟨r', hr', hr⟩ := except_bind_eq_ok.mp hr
      cases hr
      exact (ih hpartly hderived hnodup hrest hr').skip hfresh hnone hds
    | some ds =>
      have hnext : d.Derived (assigned ((p, ds) :: known)) := by
        rw [assigned_cons]
        exact hderived.settle hp hnone hpartly hds
      cases partly with
      | true =>
        cases hr
        exact swept_first hnext hfresh fun q hq => (hrest q hq).2
      | false =>
        refine (ih nofun hnext hnodup (fun q hq => ?_) hr).next hfresh
        have hne : q ≠ p := by
          rintro rfl
          exact hfresh hq
        simpa [hne] using hrest q hq

theorem Pending.swept (hpending : d.Pending (assigned known) ps)
    (hpartly : partly = true → d.Stalled (assigned known)) (hderived : d.Derived (assigned known))
    {r : Known × List Port} (hr : d.sweep partly ps known = .ok r) : d.Swept partly ps known r :=
  swept_of_sweep hpartly hderived hpending.nodup (fun p => (hpending.mem_iff p).mp) hr

/-- Sweeps end with nothing more that follows. -/
theorem settled_of_settle (hpartly : partly = true → d.Stalled (assigned known))
    (hderived : d.Derived (assigned known)) (hpending : d.Pending (assigned known) ps)
    {r : Known × List Port} (hr : d.settle partly ps known = .ok r) :
    d.Settled (assigned r.1) ∧ d.Pending (assigned r.1) r.2 := by
  fun_induction d.settle partly ps known with
  | case1 partly ps known hempty =>
    have hnil : ps = [] := List.isEmpty_iff.mp hempty
    cases hr
    refine ⟨⟨hderived, fun p hp hnone => ?_⟩, hpending⟩
    have hmem : p ∈ ps := (hpending.mem_iff p).mpr ⟨hp, hnone⟩
    rw [hnil] at hmem
    cases hmem
  | case2 => cases hr
  | case3 partly ps known _ known' ps' hsweep _ ih =>
    have hswept := hpending.swept hpartly hderived hsweep
    exact ih nofun hswept.derived (hswept.pending hpending) hr
  | case4 ps known _ known' ps' hlength hsweep =>
    have hswept := hpending.swept hpartly hderived hsweep
    obtain ⟨rfl, hidle⟩ := hswept.idle (Nat.not_lt.mp hlength)
    cases hr
    refine ⟨⟨hderived, fun p hp hnone => ?_⟩, hswept.pending hpending⟩
    exact hidle p ((hpending.mem_iff p).mpr ⟨hp, hnone⟩)
  | case5 partly ps known _ known' ps' hsweep hlength hstrict ih =>
    obtain rfl : partly = false := by simpa using hstrict
    have hswept := hpending.swept hpartly hderived hsweep
    obtain ⟨rfl, hidle⟩ := hswept.idle (Nat.not_lt.mp hlength)
    refine ih (fun _ p hp hnone => ?_) hderived hpending hr
    exact hidle p ((hpending.mem_iff p).mpr ⟨hp, hnone⟩)

section Evaluable

variable (h : d.Evaluable) (hplaced : d.Placed)

include h hplaced

theorem exists_sweep (hps : ∀ p ∈ ps, p ∈ d.allOutports) (partly : Bool) (known : Known) :
    ∃ r, d.sweep partly ps known = .ok r := by
  induction ps generalizing known with
  | nil => exact ⟨_, rfl⟩
  | cons p ps ih =>
    obtain ⟨hp, hrest⟩ := List.forall_mem_cons.mp hps
    rw [sweep, infer_eq_inferred h hplaced hp]
    cases d.inferred (assigned known) partly p with
    | none =>
      obtain ⟨r, hr⟩ := ih hrest known
      exact ⟨(r.1, p :: r.2), by simp only [bind, Except.bind, hr]; rfl⟩
    | some ds =>
      cases partly with
      | true => exact ⟨_, rfl⟩
      | false => exact ih hrest ((p, ds) :: known)

/-- Sweeps succeed if parameters evaluate. -/
theorem exists_settle (hpartly : partly = true → d.Stalled (assigned known))
    (hderived : d.Derived (assigned known)) (hpending : d.Pending (assigned known) ps) :
    ∃ r, d.settle partly ps known = .ok r := by
  fun_induction d.settle partly ps known with
  | case1 => exact ⟨_, rfl⟩
  | case2 partly ps known _ e hsweep =>
    obtain ⟨r, hr⟩ := exists_sweep h hplaced (fun p hp => ((hpending.mem_iff p).mp hp).1) partly known
    cases hsweep.symm.trans hr
  | case3 partly ps known _ known' ps' hsweep _ ih =>
    have hswept := hpending.swept hpartly hderived hsweep
    exact ih nofun hswept.derived (hswept.pending hpending)
  | case4 => exact ⟨_, rfl⟩
  | case5 partly ps known _ known' ps' hsweep hlength hstrict ih =>
    obtain rfl : partly = false := by simpa using hstrict
    obtain ⟨rfl, hidle⟩ := (hpending.swept hpartly hderived hsweep).idle (Nat.not_lt.mp hlength)
    refine ih (fun _ p hp hnone => ?_) hderived hpending
    exact hidle p ((hpending.mem_iff p).mpr ⟨hp, hnone⟩)

end Evaluable

theorem nodup_allOutports (d : Diagram) : d.allOutports.Nodup := by
  refine List.nodup_flatMap.mpr ⟨fun i _ => Network.nodup_outports d i, ?_⟩
  refine List.nodup_range.imp fun {i j} hne p hi hj => hne ?_
  rw [← mem_outports hi, ← mem_outports hj]

/-- A list made of what a function says says the same, about the ports that it was asked for. -/
theorem assigned_filterMap (f : Port → Option Dims) (ps : List Port) (p : Port) :
    assigned (ps.filterMap fun q => (f q).map (q, ·)) p = if p ∈ ps then f p else none := by
  induction ps with
  | nil => rfl
  | cons q ps ih =>
    cases hq : f q with
    | none =>
      rw [List.filterMap_cons_none (by simp [hq]), ih]
      by_cases hp : p = q
      · simp [hp, hq]
      · simp [hp]
    | some ds =>
      rw [List.filterMap_cons_some (by rw [hq]; rfl), assigned_cons]
      by_cases hp : p = q
      · simp [hp, hq]
      · simp [hp, ih]

theorem assigned_given (d : Diagram) :
    assigned (d.allOutports.filterMap fun p => (d.declared? p).map (p, ·)) = d.given :=
  funext (assigned_filterMap d.declared? d.allOutports)

/-- What is still open in the end is scalar. -/
theorem assigned_rest {rest : List Port} (h : d.Pending (assigned known) rest)
    (hp : p ∈ d.allOutports) :
    assigned (rest.map (·, Dims.scalar) ++ known) p = some ((assigned known p).getD Dims.scalar) := by
  have hrest : assigned (rest.map (·, Dims.scalar)) p = if p ∈ rest then some Dims.scalar else none := by
    rw [← assigned_filterMap (fun _ => some Dims.scalar), ← List.filterMap_eq_map]
    rfl
  have happend : assigned (rest.map (·, Dims.scalar) ++ known) p =
      (assigned (rest.map (·, Dims.scalar)) p).or (assigned known p) := List.lookup_append
  rw [happend, hrest]
  by_cases hmem : p ∈ rest
  · rw [if_pos hmem, ((h.mem_iff p).mp hmem).2]
    rfl
  · rw [if_neg hmem]
    obtain ⟨ds, hds⟩ := Option.ne_none_iff_exists'.mp fun hnone => hmem ((h.mem_iff p).mpr ⟨hp, hnone⟩)
    rw [hds]
    rfl

/-- What is worked out first is what is declared, and what is open are the other outports. -/
theorem dimensions_eq (d : Diagram) : d.dimensions = (do
    let r ← d.settle false (d.allOutports.filter fun p => (d.declared? p).isNone)
      (d.allOutports.filterMap fun p => (d.declared? p).map (p, ·))
    return r.2.map (·, Dims.scalar) ++ r.1) := by
  have hopen : d.allOutports.filterMap (fun p => if (d.declared? p).isNone then some p else none) =
      d.allOutports.filter fun p => (d.declared? p).isNone := congrFun List.filterMap_eq_filter _
  rw [← hopen]
  unfold dimensions
  simp only [List.filterMap_map]
  rfl

theorem pending_given (d : Diagram) :
    d.Pending d.given (d.allOutports.filter fun p => (d.declared? p).isNone) := by
  refine ⟨(nodup_allOutports d).filter _, fun p => ?_⟩
  rw [List.mem_filter, Option.isNone_iff_eq_none]
  refine and_congr_right fun hp => ?_
  rw [Diagram.given, if_pos hp]

/-- Dimensions are what follows from what is declared, and scalar ones where nothing does. -/
theorem settled_of_dimensions (h : d.dimensions = .ok known) :
    ∃ κ, d.Settled κ ∧ ∀ p ∈ d.allOutports, known.lookup p = some ((κ p).getD Dims.scalar) := by
  have hpending := pending_given d
  have hderived := Derived.given (d := d)
  rw [← assigned_given] at hpending hderived
  rw [dimensions_eq] at h
  obtain ⟨r, hr, h⟩ := except_bind_eq_ok.mp h
  cases h
  obtain ⟨hsettled, hrest⟩ := settled_of_settle (by nofun) hderived hpending hr
  exact ⟨assigned r.1, hsettled, fun p => assigned_rest hrest⟩

/-- Dimensions are worked out for all outports if parameters evaluate: what follows from what is declared,
and scalar ones where nothing does. -/
theorem exists_dimensions (h : d.Evaluable) (hplaced : d.Placed) :
    ∃ known κ, d.dimensions = .ok known ∧ d.Settled κ ∧
      ∀ p ∈ d.allOutports, known.lookup p = some ((κ p).getD Dims.scalar) := by
  have hpending := pending_given d
  have hderived := Derived.given (d := d)
  rw [← assigned_given] at hpending hderived
  obtain ⟨r, hr⟩ : ∃ r, d.settle false _ _ = .ok r :=
    exists_settle h hplaced (by nofun) hderived hpending
  have hdimensions : d.dimensions = .ok (r.2.map (·, Dims.scalar) ++ r.1) := by
    rw [dimensions_eq, hr]
    rfl
  obtain ⟨κ, hsettled, hfinal⟩ := settled_of_dimensions hdimensions
  exact ⟨_, κ, hdimensions, hsettled, hfinal⟩

end Diagram

end Transcription
