import Transcription.Proofs.Program.Emptiness
import Transcription.Proofs.Program.Entries
import Transcription.Proofs.Program.Rows

namespace Transcription

section Limits

variable {α : Type} [Scalar α] {lb ub : Float}

theorem Limit.ofFloat_finite {free : Limit α} {v : Float} (h : Binary64.isFinite v = true) :
    Limit.ofFloat free v = .finite (Scalar.ofFloat v) := by
  obtain ⟨hnan, hinf⟩ : v.isNaN = false ∧ v.isInf = false := by simpa [Binary64.isFinite] using h
  rw [Limit.ofFloat, hnan, hinf]
  rfl

theorem Limit.ofFloat_infinity (free : Limit α) :
    Limit.ofFloat free Numeral.infinity = .posInf ∧
      Limit.ofFloat free (-Numeral.infinity) = .negInf := ⟨rfl, rfl⟩

theorem Limit.ofFloat_ne_posInf (h : Binary64.isFinite lb = true ∨ lb = -Numeral.infinity)
    (free : Limit α) : Limit.ofFloat free lb ≠ .posInf := by
  rcases h with h | rfl
  · rw [Limit.ofFloat_finite h]
    exact nofun
  · rw [(Limit.ofFloat_infinity free).2]
    exact nofun

theorem Limit.ofFloat_ne_negInf (h : Binary64.isFinite ub = true ∨ ub = Numeral.infinity)
    (free : Limit α) : Limit.ofFloat free ub ≠ .negInf := by
  rcases h with h | rfl
  · rw [Limit.ofFloat_finite h]
    exact nofun
  · rw [(Limit.ofFloat_infinity free).1]
    exact nofun

end Limits

section Declared

variable {α : Type} [LinearOrder α] [ExactScalar α] {lb ub : Float} {x : α}

/-- A number is not below one declared value and not above the other. What is not finite bounds
nothing. -/
def Within (lb ub : Float) (x : α) : Prop :=
  (Binary64.isFinite lb = true → Scalar.ofFloat lb ≤ x) ∧
    (Binary64.isFinite ub = true → x ≤ Scalar.ofFloat ub)

theorem below_ofFloat (h : Binary64.isFinite lb = true ∨ lb = -Numeral.infinity) (free : Limit α) :
    (Limit.ofFloat free lb).Below x ↔ (Binary64.isFinite lb = true → Scalar.ofFloat lb ≤ x) := by
  rcases h with h | rfl
  · rw [Limit.ofFloat_finite h, Limit.Below]
    exact ⟨fun hle _ => hle, fun hle => hle h⟩
  · rw [(Limit.ofFloat_infinity free).2]
    exact ⟨fun _ hfinite => absurd hfinite (by decide), fun _ => trivial⟩

theorem above_ofFloat (h : Binary64.isFinite ub = true ∨ ub = Numeral.infinity) (free : Limit α) :
    (Limit.ofFloat free ub).Above x ↔ (Binary64.isFinite ub = true → x ≤ Scalar.ofFloat ub) := by
  rcases h with h | rfl
  · rw [Limit.ofFloat_finite h, Limit.Above]
    exact ⟨fun hle _ => hle, fun hle => hle h⟩
  · rw [(Limit.ofFloat_infinity free).1]
    exact ⟨fun _ hfinite => absurd hfinite (by decide), fun _ => trivial⟩

end Declared

namespace Network

section Restraints

variable {α : Type} [Scalar α] {n : Network α} {b : TracedBlock α}

/-- What a bound declares: a lower and an upper value for every wire that leads into its block, each of
them finite or an infinity that bounds nothing. -/
structure Declares (n : Network α) (b : TracedBlock α) (lower upper : List Float) : Prop where
  lower_eq : n.declared? b "lb" (-Numeral.infinity) = some lower
  upper_eq : n.declared? b "ub" Numeral.infinity = some upper
  lower_values : ∀ v ∈ lower, Binary64.isFinite v = true ∨ v = -Numeral.infinity
  upper_values : ∀ v ∈ upper, Binary64.isFinite v = true ∨ v = Numeral.infinity

variable {lower upper : List Float} {r : Restraint α}

theorem Declares.mem_restraintsOf (h : n.Declares b lower upper) : r ∈ n.restraintsOf b ↔
    ∃ (j i : Nat) (lb ub : Float), b.inputs[j]? = some i ∧ lower[j]? = some lb ∧ upper[j]? = some ub ∧
      r = ⟨i, b.sinkPhases, .ofFloat .negInf lb, .ofFloat .posInf ub⟩ := by
  rw [restraintsOf, h.lower_eq, h.upper_eq]
  dsimp only
  rw [List.mem_map]
  constructor
  · rintro ⟨⟨i, lb, ub⟩, hzip, rfl⟩
    obtain ⟨j, hj⟩ := List.mem_iff_getElem?.mp hzip
    obtain ⟨hi, hvalues⟩ := List.getElem?_zip_eq_some.mp hj
    obtain ⟨hl, hu⟩ := List.getElem?_zip_eq_some.mp hvalues
    exact ⟨j, i, lb, ub, hi, hl, hu, rfl⟩
  · rintro ⟨j, i, lb, ub, hi, hl, hu, rfl⟩
    refine ⟨(i, lb, ub), List.mem_of_getElem? (i := j) ?_, rfl⟩
    exact List.getElem?_zip_eq_some.mpr ⟨hi, List.getElem?_zip_eq_some.mpr ⟨hl, hu⟩⟩

theorem Declares.open_of_mem (h : n.Declares b lower upper) (hr : r ∈ n.restraintsOf b) : r.Open := by
  obtain ⟨j, i, lb, ub, _, hl, hu, rfl⟩ := h.mem_restraintsOf.mp hr
  exact ⟨Limit.ofFloat_ne_posInf (h.lower_values lb (List.mem_of_getElem? hl)) _,
    Limit.ofFloat_ne_negInf (h.upper_values ub (List.mem_of_getElem? hu)) _⟩

end Restraints

section Variables

variable {α : Type} [LinearOrder α] [ExactScalar α] {n : Network α} {live : List PhaseSet}
  {steps stages : Nat} {g : Grid α} {e : Entry α} {w : Wire α} {x : α}

def Admits (e : Entry α) (x : α) : Prop := e.lower.Below x ∧ e.upper.Above x

theorem Entered.admits_iff (h : n.Entered steps e w) :
    Admits e x ↔ ∀ p ∈ (stepPhases e.step steps).majorList, w.Admits p x := by
  rw [Admits, h.lower_eq, h.upper_eq, Limit.below_foldl, Limit.above_foldl]
  simp only [List.forall_mem_map, Limit.Below, Limit.Above, true_and, ← forall_and]
  rfl

theorem Entered.isOpen (h : n.Entered steps e w) (hw : w.Open) :
    e.lower ≠ .posInf ∧ e.upper ≠ .negInf := by
  rw [h.lower_eq, h.upper_eq]
  constructor
  · exact Limit.foldl_max_ne_posInf (List.forall_mem_map.mpr fun p _ => (hw p).1)
  · exact Limit.foldl_min_ne_negInf (List.forall_mem_map.mpr fun p _ => (hw p).2)

/-- An entry lets through what all limits on its net do that are there in the phases of its step. -/
theorem Entered.admits_restraints (h : n.Entered steps e w) (hn : n.NetsBurdened) :
    Admits e x ↔ ∀ r ∈ n.restraints, n.wires.netOf r.wire = e.net →
      r.phases.meets (stepPhases e.step steps) = true → r.Admits x := by
  rw [h.admits_iff]
  constructor
  · intro hall r hr hnet hmeets
    obtain ⟨p, hp, hphase⟩ := meets_stepPhases.mp hmeets
    exact (hn.admits e.net w h.first p x).mp (hall p hp) r hr hnet hphase
  · intro hall p hp
    refine (hn.admits e.net w h.first p x).mpr fun r hr hnet hphase => hall r hr hnet ?_
    exact meets_stepPhases.mpr ⟨p, hp, hphase⟩

/-- The limits of a variable are those of its entries. -/
theorem Laid.admits_variables (h : n.Laid live steps stages g) {x : Nat → α} :
    ((∀ (i : Nat) l, g.lower[i]? = some l → l.Below (x i)) ∧
      ∀ (i : Nat) u, g.upper[i]? = some u → u.Above (x i)) ↔ ∀ e ∈ g.majors, Admits e (x e.index) := by
  have hshared (i : Nat) : ((sharedLower (sharing g.majors i)).Below (x i) ∧
      (sharedUpper (sharing g.majors i)).Above (x i)) ↔
        ∀ e ∈ g.majors, e.index = i → Admits e (x e.index) := by
    rw [sharedLower, sharedUpper, Limit.below_foldl, Limit.above_foldl]
    simp only [List.forall_mem_map, Limit.Below, Limit.Above, true_and, ← forall_and, sharing,
      List.mem_filter, decide_eq_true_eq, and_imp]
    constructor
    · rintro hall e he rfl
      exact hall e he rfl
    · rintro hall e he rfl
      exact hall e he rfl
  constructor
  · rintro ⟨hlower, hupper⟩ e he
    have hlt := (h.expands.index?_major he).2
    have hvariable := And.intro (hlower _ _ (h.weighs.lower_eq _ hlt))
      (hupper _ _ (h.weighs.upper_eq _ hlt))
    exact (hshared e.index).mp hvariable e he rfl
  · intro hall
    constructor
    · intro i l hl
      obtain rfl | rfl := h.weighs.lower_cases hl
      · exact ((hshared i).mpr fun e he _ => hall e he).1
      · trivial
    · intro i u hu
      obtain rfl | rfl := h.weighs.upper_cases hu
      · exact ((hshared i).mpr fun e he _ => hall e he).2
      · trivial

/-- Where no limit of an entry excludes all numbers by itself, none of a variable does. -/
theorem Laid.open_variables (h : n.Laid live steps stages g)
    (hopen : ∀ e ∈ g.majors, e.lower ≠ .posInf ∧ e.upper ≠ .negInf) :
    (∀ l ∈ g.lower, l ≠ .posInf) ∧ ∀ u ∈ g.upper, u ≠ .negInf := by
  constructor
  · intro l hl
    obtain ⟨i, hi⟩ := List.mem_iff_getElem?.mp hl
    obtain rfl | rfl := h.weighs.lower_cases hi
    · apply Limit.foldl_max_ne_posInf
      exact List.forall_mem_map.mpr fun e he => (hopen e (List.mem_of_mem_filter he)).1
    · exact nofun
  · intro u hu
    obtain ⟨i, hi⟩ := List.mem_iff_getElem?.mp hu
    obtain rfl | rfl := h.weighs.upper_cases hi
    · apply Limit.foldl_min_ne_negInf
      exact List.forall_mem_map.mpr fun e he => (hopen e (List.mem_of_mem_filter he)).2
    · exact nofun

/-- The entries of a point are within their limits exactly when all restraints are met. -/
theorem Laid.admits_entries {minor : Bool} (h : n.Laid (n.liveness minor) steps stages g)
    (hn : n.NetsBurdened) {z : List α} (hz : z.length = g.size) :
    (∀ e ∈ g.majors, Admits e (System.point z e.index)) ↔
      ∀ r ∈ n.restraints, ∀ t, 1 ≤ t → t ≤ steps → r.phases.meets (stepPhases t steps) = true →
        ∃ x, g.reading z t (n.wires.netOf r.wire) = some x ∧ r.Admits x := by
  constructor
  · intro hall r hr t h₁ ht hmeets
    obtain ⟨k, b, hb, hkind, hrb⟩ := mem_restraints.mp hr
    obtain ⟨hwire, hphases⟩ := wire_of_mem_restraintsOf hrb
    have hlive := h.liveAt_sink hb (by rw [hkind]; rfl) hwire h₁ ht (hphases ▸ hmeets)
    obtain ⟨e, he, hstep, hnet⟩ := h.expands.exists_major hlive
    obtain ⟨w, hw⟩ := h.weighs.entered e he
    subst hstep
    rw [← hnet]
    exact ⟨_, h.expands.reading_major hz he,
      (hw.admits_restraints hn).mp (hall e he) r hr hnet.symm hmeets⟩
  · intro hall e he
    obtain ⟨w, hw⟩ := h.weighs.entered e he
    obtain ⟨h₁, ht, _⟩ := h.expands.liveAt_major he
    refine (hw.admits_restraints hn).mpr fun r hr hnet hmeets => ?_
    obtain ⟨x, hx, hadmits⟩ := hall r hr e.step h₁ ht hmeets
    rw [hnet, h.expands.reading_major hz he] at hx
    cases hx
    exact hadmits

end Variables

section Points

variable {α : Type} [LinearOrder α] [ExactScalar α] {n : Network α} {steps stages : Nat} {g : Grid α}

def WithinBounds (n : Network α) (g : Grid α) (steps : Nat) (z : List α) : Prop :=
  ∀ k b lower upper, n.block? k = some b → b.kind = .bound → n.Declares b lower upper →
    ∀ (j i : Nat) (lb ub : Float), b.inputs[j]? = some i → lower[j]? = some lb →
      upper[j]? = some ub → ∀ t, 1 ≤ t → t ≤ steps → b.sinkPhases.meets (stepPhases t steps) = true →
        ∃ x, g.reading z t (n.wires.netOf i) = some x ∧ Within lb ub x

def BoundsDeclared (n : Network α) : Prop :=
  ∀ k b, n.block? k = some b → b.kind = .bound → ∃ lower upper, n.Declares b lower upper

theorem withinBounds_iff (hdeclared : n.BoundsDeclared) {z : List α} : n.WithinBounds g steps z ↔
    ∀ r ∈ n.restraints, ∀ t, 1 ≤ t → t ≤ steps → r.phases.meets (stepPhases t steps) = true →
      ∃ x, g.reading z t (n.wires.netOf r.wire) = some x ∧ r.Admits x := by
  have hadmits {b : TracedBlock α} {lower upper : List Float} (hd : n.Declares b lower upper) {j : Nat}
      {lb ub : Float} (hl : lower[j]? = some lb) (hu : upper[j]? = some ub) (i : Nat) (x : α) :
      (⟨i, b.sinkPhases, .ofFloat .negInf lb, .ofFloat .posInf ub⟩ : Restraint α).Admits x ↔
        Within lb ub x :=
    and_congr (below_ofFloat (hd.lower_values lb (List.mem_of_getElem? hl)) _)
      (above_ofFloat (hd.upper_values ub (List.mem_of_getElem? hu)) _)
  constructor
  · intro h r hr t h₁ ht hmeets
    obtain ⟨k, b, hb, hkind, hrb⟩ := mem_restraints.mp hr
    obtain ⟨lower, upper, hd⟩ := hdeclared k b hb hkind
    obtain ⟨j, i, lb, ub, hi, hl, hu, rfl⟩ := hd.mem_restraintsOf.mp hrb
    obtain ⟨x, hx, hwithin⟩ := h k b lower upper hb hkind hd j i lb ub hi hl hu t h₁ ht hmeets
    exact ⟨x, hx, (hadmits hd hl hu i x).mpr hwithin⟩
  · intro h k b lower upper hb hkind hd j i lb ub hi hl hu t h₁ ht hmeets
    have hr := mem_restraints.mpr
      ⟨k, b, hb, hkind, hd.mem_restraintsOf.mpr ⟨j, i, lb, ub, hi, hl, hu, rfl⟩⟩
    obtain ⟨x, hx, hrx⟩ := h _ hr t h₁ ht hmeets
    exact ⟨x, hx, (hadmits hd hl hu i x).mp hrx⟩

/-- The inequalities of a program hold at the points that are within all bounds. -/
theorem Laid.inequalities_iff {minor : Bool} (h : n.Laid (n.liveness minor) steps stages g)
    (hn : n.NetsBurdened) (hdeclared : n.BoundsDeclared) {eqs : Equalities α} {p : Program α}
    (hp : Builds g eqs p) {z : List α} (hz : z.length = g.size) :
    ∃ rs, p.inequalities.residual z = .ok rs ∧ ((∀ r ∈ rs, r ≤ 0) ↔ n.WithinBounds g steps z) := by
  have hwidth : p.inequalities.width = g.size := by
    rw [hp.inequalities_eq, Program.width_boundRows, h.weighs.length_lower]
  have hrestraints : ∀ r ∈ n.restraints, r.Open := by
    intro r hr
    obtain ⟨k, b, hb, hkind, hrb⟩ := mem_restraints.mp hr
    obtain ⟨_, _, hd⟩ := hdeclared k b hb hkind
    exact hd.open_of_mem hrb
  have hentries : ∀ e ∈ g.majors, e.lower ≠ .posInf ∧ e.upper ≠ .negInf := by
    intro e he
    obtain ⟨w, hw⟩ := h.weighs.entered e he
    exact hw.isOpen (hn.isOpen hrestraints _ w hw.first)
  obtain ⟨hlower, hupper⟩ := h.open_variables hentries
  refine ⟨_, residual_of_proper (hz.trans hwidth.symm), ?_⟩
  rw [hp.inequalities_eq, Program.residualAt_boundRows_nonpos hlower hupper, h.admits_variables,
    h.admits_entries hn hz, withinBounds_iff hdeclared]

end Points

end Network

section Runs

variable {α : Type} [LinearOrder α] [ExactScalar α] {d : Diagram} {hold : Hold} {steps count : Nat}
  {dt : α} {tableau : Option (Tableau α)} {n : Network α}

/-- The inequalities of a run mean exactly what the bounds of its diagram declare. -/
theorem Run.bounds_exact
    (hmerged : (ofDiagram (.full steps dt hold tableau) d).merged = some (count, n))
    (h₁ : 1 ≤ steps) (hdeclared : n.BoundsDeclared) : ∃ g p,
      (ofDiagram (.full steps dt hold tableau) d).grid = some g ∧
      (ofDiagram (.full steps dt hold tableau) d).program = some p ∧
      n.diagram = d.prepared ∧ n.Represents .bound Diagram.boundReference ∧
      ∀ z : List α, z.length = g.size → ∃ rs, p.inequalities.residual z = .ok rs ∧
        ((∀ r ∈ rs, r ≤ 0) ↔ n.WithinBounds g steps z) := by
  obtain ⟨g, e, p, hrun⟩ := exists_completion hmerged h₁
  obtain ⟨hdiagram, hlinked, hsinks, hnets⟩ := burdens_merged hmerged
  exact ⟨g, p, hrun.grid_eq, hrun.program_eq, hdiagram, hsinks.represents hlinked rfl,
    fun z hz => hrun.laid.inequalities_iff hnets hdeclared hrun.builds hz⟩

end Runs

/-- The bounds of the squeezed input have one finite value on either side. -/
theorem Squeeze.boundsDeclared (apart : Bool) : (network apart).BoundsDeclared := by
  intro k b hb hkind
  have hplaces : k = 0 ∨ k = 1 ∨ k = 2 := by
    have hlt : k < 3 := (List.getElem?_eq_some_iff.mp hb).1
    omega
  rcases hplaces with rfl | rfl | rfl
  · cases hb
    exact ⟨[5], [10], rfl, rfl, List.forall_mem_singleton.mpr (.inl rfl),
      List.forall_mem_singleton.mpr (.inl rfl)⟩
  · cases hb
    exact ⟨[0], [1], rfl, rfl, List.forall_mem_singleton.mpr (.inl rfl),
      List.forall_mem_singleton.mpr (.inl rfl)⟩
  · cases hb
    cases hkind

/-- An input from 5 to 10 at the first of two steps and from 0 to 1 at the second. -/
theorem Run.bounds_exact_squeezed :
    (ofDiagram (.full 2 (1 : ℚ) .zeroOrder none) (Squeeze.diagram true)).merged =
      some (1, Squeeze.network true) ∧ 1 ≤ 2 ∧ (Squeeze.network true).BoundsDeclared ∧
    ∃ (g : Grid ℚ) (p : Program ℚ),
      (ofDiagram (.full 2 (1 : ℚ) .zeroOrder none) (Squeeze.diagram true)).grid = some g ∧
      (ofDiagram (.full 2 (1 : ℚ) .zeroOrder none) (Squeeze.diagram true)).program = some p ∧
      (Squeeze.network true).diagram = (Squeeze.diagram true).prepared ∧
      (Squeeze.network true).Represents .bound Diagram.boundReference ∧
      ∀ z : List ℚ, z.length = g.size → ∃ rs, p.inequalities.residual z = .ok rs ∧
        ((∀ r ∈ rs, r ≤ 0) ↔ (Squeeze.network true).WithinBounds g 2 z) :=
  ⟨Squeeze.merged_diagram true 2 1 none, by decide, Squeeze.boundsDeclared true,
    bounds_exact (Squeeze.merged_diagram true 2 1 none) (by decide) (Squeeze.boundsDeclared true)⟩

end Transcription
