import Transcription.Proofs.Poly.Vanishing

namespace Transcription

variable {α : Type}

namespace System

section Masks

variable {β : Type}

def narrow : List Bool → List Bool → List Bool
  | [], _ => []
  | false :: ks, ls => false :: narrow ks ls
  | true :: ks, [] => false :: narrow ks []
  | true :: ks, l :: ls => l :: narrow ks ls

@[simp]
theorem length_narrow (ks ls : List Bool) : (narrow ks ls).length = ks.length := by
  induction ks, ls using narrow.induct with
  | case1 => rfl
  | case2 _ _ ih | case3 _ ih | case4 _ _ _ ih => simp [narrow, ih]

theorem select_narrow (ks ls : List Bool) (as : List β) :
    select (narrow ks ls) as = select ls (select ks as) := by
  induction ks, ls using narrow.induct generalizing as with
  | case1 => simp [narrow, select]
  | case2 ks ls ih =>
    cases as with
    | nil => simp [select]
    | cons a as => simp [narrow, select_cons, ih]
  | case3 ks ih =>
    cases as with
    | nil => simp [select]
    | cons a as => simpa [narrow, select_cons, select] using ih as
  | case4 ks l ls ih =>
    cases as with
    | nil => simp [select]
    | cons a as => simp [narrow, select_cons, ih]

/-- A place is kept by both masks if the first keeps it, and the second its number among those kept. -/
theorem kept_narrow (ks ls : List Bool) (c : Nat) :
    Kept (narrow ks ls) c ↔ Kept ks c ∧ Kept ls ((ks.take c).count true) := by
  induction ks, ls using narrow.induct generalizing c with
  | case1 => simp [narrow, Kept]
  | case2 ks ls ih | case3 ks ih | case4 ks l ls ih =>
    cases c with
    | zero => simp [narrow, Kept]
    | succ c => simpa [narrow, Kept] using ih c

theorem count_take_narrow (ks ls : List Bool) (c : Nat) :
    ((narrow ks ls).take c).count true = (ls.take ((ks.take c).count true)).count true := by
  induction ks, ls using narrow.induct generalizing c with
  | case1 => simp [narrow]
  | case2 ks ls ih | case3 ks ih =>
    cases c with
    | zero => simp
    | succ c => simpa [narrow] using ih c
  | case4 ks l ls ih =>
    cases c with
    | zero => simp
    | succ c => simp [narrow, List.count_cons, ih]

theorem count_narrow {ks ls : List Bool} (h : ls.length = ks.count true) :
    (narrow ks ls).count true = ls.count true := by
  have hall := count_take_narrow ks ls ks.length
  rwa [List.take_of_length_le (by simp), List.take_length, List.take_of_length_le (by omega)] at hall

/-- Masks of one length that keep the same places are equal. -/
theorem mask_ext {ks ls : List Bool} (hlength : ks.length = ls.length)
    (h : ∀ c, Kept ks c ↔ Kept ls c) : ks = ls := by
  apply List.ext_getElem hlength
  intro c hk hl
  have hc := h c
  rwa [Kept, Kept, List.getD_eq_getElem _ _ hk, List.getD_eq_getElem _ _ hl, ← Bool.eq_iff_iff] at hc

/-- Every number below that of the kept places is the number of one of them. -/
theorem exists_kept {ks : List Bool} {i : Nat} (h : i < ks.count true) :
    ∃ c, Kept ks c ∧ (ks.take c).count true = i := by
  induction ks generalizing i with
  | nil => simp at h
  | cons k ks ih =>
    cases k with
    | false =>
      obtain ⟨c, hc, hi⟩ := ih (by simpa using h)
      exact ⟨c + 1, by simpa [Kept] using hc, by simpa using hi⟩
    | true =>
      cases i with
      | zero => exact ⟨0, by simp [Kept], by simp⟩
      | succ i =>
        obtain ⟨c, hc, hi⟩ := ih (by simpa using h)
        exact ⟨c + 1, by simpa [Kept] using hc, by simpa using hi⟩

/-- Kept places are told apart by their numbers. -/
theorem eq_of_count_take {ks : List Bool} {c d : Nat} (hc : Kept ks c) (hd : Kept ks d)
    (h : (ks.take c).count true = (ks.take d).count true) : c = d := by
  have hlength : ks.length = (List.range ks.length).length := List.length_range.symm
  have hcd := getElem?_select hlength hc
  have hdd := getElem?_select hlength hd
  rw [h, hdd] at hcd
  have hlt {e : Nat} (he : Kept ks e) : e < ks.length := by
    by_contra hn
    rw [Kept, List.getD_eq_default _ _ (Nat.le_of_not_lt hn)] at he
    cases he
  simpa [hlt hc, hlt hd] using hcd.symm

theorem select_filter (p : β → Bool) (as : List β) : select (as.map p) as = as.filter p := by
  induction as with
  | nil => rfl
  | cons a as ih => simp [select_cons, ih, List.filter_cons]

end Masks

end System

namespace Row

/-- Picking twice is picking once by both masks. -/
theorem pick_pick (ks ls : List Bool) (r : Row α) :
    pick ls (pick ks r) = pick (System.narrow ks ls) r := by
  have hkept : r.filter (fun t => (System.narrow ks ls).getD t.1 false) =
      (r.filter fun t => ks.getD t.1 false).filter
        fun t => ls.getD ((ks.take t.1).count true) false := by
    rw [List.filter_filter]
    apply List.filter_congr
    intro t _
    rw [Bool.eq_iff_iff, Bool.and_eq_true, and_comm]
    exact System.kept_narrow ks ls t.1
  rw [pick, pick, List.filter_map, List.map_map, pick, hkept]
  apply List.map_congr_left
  intro t _
  simp [System.count_take_narrow]

end Row

namespace System

variable [LinearOrder α] [ExactScalar α] {s : System α} {ks ls : List Bool}

/-- A monomial is kept exactly if an equation that is kept has weight on it. -/
theorem kept_usedMonomials (hs : s.Proper) {i : Nat} :
    Kept (usedMonomials s ks) i ↔ ∃ r ∈ keptEquations s ks, ∃ t ∈ r, t.1 = i ∧ t.2 ≠ 0 := by
  constructor
  · intro h
    have hlt : i < s.monomials.length := by
      by_contra hn
      rw [Kept, List.getD_eq_default _ _ (by simpa [length_usedMonomials] using hn)] at h
      cases h
    have htouched : touches (· = i) (keptEquations s ks).flatten = true := by
      rw [Kept, List.getD_eq_getElem _ _ (by simpa [length_usedMonomials] using hlt)] at h
      simp only [usedMonomials, usedColumns, List.getElem_zipWith, List.getElem_map,
        List.getElem_range, Bool.and_eq_true] at h
      exact h.1
    obtain ⟨t, ht, hti, hz⟩ := (touches_iff _ _).mp htouched
    obtain ⟨r, hr, htr⟩ := List.mem_flatten.mp ht
    exact ⟨r, hr, t, htr, by simpa using hti, hz⟩
  · rintro ⟨r, hr, t, ht, hti, hz⟩
    exact hti ▸ used_of_mem hs hr ht hz

/-- A system without equations keeps no monomials either. -/
theorem trimmed_eq_cut (hs : s.Proper) : s.trimmed ks = s.cut ks := by
  unfold trimmed
  split
  case isFalse => rfl
  case isTrue he =>
    have hnone : keptEquations s ks = [] := by
      rw [keptEquations, List.isEmpty_iff.mp he]
      rfl
    have hcount : (usedMonomials s ks).count true = 0 := by
      by_contra hne
      obtain ⟨c, hc, _⟩ := exists_kept (Nat.pos_of_ne_zero hne)
      obtain ⟨r, hr, _⟩ := (kept_usedMonomials hs).mp hc
      simp [hnone] at hr
    have hselect : select (usedMonomials s ks) s.monomials = [] :=
      List.eq_nil_of_length_eq_zero ((length_select (length_usedMonomials s ks)).trans hcount)
    simp [cut, empty, hnone, hselect]

theorem proper_cut (hs : s.Proper) : (s.cut ks).Proper := trimmed_eq_cut hs ▸ proper_trimmed s ks

theorem over_narrow {p : Poly α} (h : p.Over (Kept (narrow ks ls))) : p.Over (Kept ks) :=
  fun t ht hk e he hz => ((kept_narrow ks ls e.1).mp (h t ht hk e he hz)).1

/-- An equation that one mask keeps is kept by a second one if the masks together keep it. -/
theorem over_cut_iff (hs : s.Proper) {r : Row α} (hr : r ∈ keptEquations s ks) :
    ((s.cut ks).terms (Row.pick (usedMonomials s ks) r)).Over (Kept ls) ↔
      (s.terms r).Over (Kept (narrow ks ls)) := by
  rw [terms_cut]
  constructor
  · intro h t ht hk e he hz
    obtain ⟨i, hi, hm⟩ := mem_terms.mp ht
    have hkept : Kept ks e.1 := (mem_keptEquations.mp hr).2 t ht hk e he hz
    have hused : t ∈ s.terms (r.filter fun t => (usedMonomials s ks).getD t.1 false) :=
      mem_terms.mpr ⟨i, List.mem_filter.mpr ⟨hi, used_of_mem hs hr hi hk⟩, hm⟩
    have hpick : ((ks.take e.1).count true, e.2) ∈ Row.pick ks t.2 :=
      List.mem_map.mpr ⟨e, List.mem_filter.mpr ⟨he, hkept⟩, rfl⟩
    exact (kept_narrow ks ls e.1).mpr
      ⟨hkept, h _ (List.mem_map_of_mem hused) hk _ hpick hz⟩
  · intro h u hu hk e he hz
    obtain ⟨t, ht, rfl⟩ := List.mem_map.mp hu
    obtain ⟨i, hi, hm⟩ := mem_terms.mp ht
    obtain ⟨v, hv, rfl⟩ := List.mem_map.mp he
    have ht' : t ∈ s.terms r := mem_terms.mpr ⟨i, (List.mem_filter.mp hi).1, hm⟩
    exact ((kept_narrow ks ls v.1).mp (h t ht' hk v (List.mem_filter.mp hv).1 hz)).2

theorem keptEquations_cut (hs : s.Proper) :
    keptEquations (s.cut ks) ls =
      (keptEquations s (narrow ks ls)).map (Row.pick (usedMonomials s ks)) := by
  rw [keptEquations, show (s.cut ks).equations = (keptEquations s ks).map
    (Row.pick (usedMonomials s ks)) from rfl, List.filter_map]
  congr 1
  rw [keptEquations, List.filter_filter, keptEquations]
  apply List.filter_congr
  intro r hr
  rw [Bool.eq_iff_iff, Bool.and_eq_true, Function.comp_apply]
  simp only [touches_removed]
  constructor
  · intro h
    exact (over_cut_iff hs (mem_keptEquations.mpr ⟨hr, h.2⟩)).mp h.1
  · intro h
    have hfirst := over_narrow h
    exact ⟨(over_cut_iff hs (mem_keptEquations.mpr ⟨hr, hfirst⟩)).mpr h, hfirst⟩

theorem usedMonomials_cut (hs : s.Proper) :
    narrow (usedMonomials s ks) (usedMonomials (s.cut ks) ls) = usedMonomials s (narrow ks ls) := by
  apply mask_ext
  · simp [length_usedMonomials]
  intro i
  rw [kept_narrow, kept_usedMonomials (proper_cut hs), kept_usedMonomials hs,
    kept_usedMonomials hs, keptEquations_cut hs]
  constructor
  · rintro ⟨hi, q, hq, t, ht, hti, hz⟩
    obtain ⟨r, hr, rfl⟩ := List.mem_map.mp hq
    obtain ⟨u, hu, rfl⟩ := List.mem_map.mp ht
    obtain ⟨hmem, hused⟩ := List.mem_filter.mp hu
    exact ⟨r, hr, u, hmem, eq_of_count_take hused ((kept_usedMonomials hs).mpr hi) hti, hz⟩
  · rintro ⟨r, hr, t, ht, hti, hz⟩
    have hfirst : r ∈ keptEquations s ks := by
      obtain ⟨hmem, hover⟩ := mem_keptEquations.mp hr
      exact mem_keptEquations.mpr ⟨hmem, over_narrow hover⟩
    have hused := used_of_mem hs hfirst ht hz
    refine ⟨⟨r, hfirst, t, ht, hti, hz⟩, _, List.mem_map_of_mem hr, _,
      List.mem_map_of_mem (List.mem_filter.mpr ⟨ht, hused⟩), ?_, hz⟩
    rw [hti]

/-- Restricting twice is restricting once by the two masks together. -/
theorem cut_cut (hs : s.Proper) (h : ls.length = ks.count true) :
    (s.cut ks).cut ls = s.cut (narrow ks ls) := by
  rw [cut, keptEquations_cut hs, cut, cut, mk.injEq]
  refine ⟨(count_narrow h).symm, ?_, ?_⟩
  · rw [select_map, List.map_map, ← usedMonomials_cut hs, select_narrow]
    apply List.map_congr_left
    intro r _
    exact Row.pick_pick ks ls r
  · rw [List.map_map, ← usedMonomials_cut hs]
    apply List.map_congr_left
    intro r _
    exact Row.pick_pick _ _ r

/-- The equation has no weight on a monomial that has weight on a variable that goes. -/
def Spares (s : System α) (keep : List Bool) (r : Row α) : Prop :=
  ∀ t ∈ r, t.2 ≠ 0 → ∀ m, s.monomials[t.1]? = some m → ∀ e ∈ m, e.2 ≠ 0 → Kept keep e.1

/-- `t` is `s` cut down to masks of its variables, equations and monomials: the equations that spare the
variables that go, and the monomials that those equations have weight on. -/
structure Restricts (s t : System α) (keep kept used : List Bool) : Prop where
  width : t.width = keep.count true
  monomials : t.monomials = (select used s.monomials).map (Row.pick keep)
  equations : t.equations = (select kept s.equations).map (Row.pick used)
  length_used : used.length = s.monomials.length
  length_kept : kept.length = s.equations.length
  spares : ∀ i r, s.equations[i]? = some r → (Kept kept i ↔ s.Spares keep r)
  uses : ∀ i, Kept used i ↔ ∃ r ∈ select kept s.equations, ∃ t ∈ r, t.1 = i ∧ t.2 ≠ 0

theorem spares_iff_over {keep : List Bool} {r : Row α} :
    s.Spares keep r ↔ (s.terms r).Over (Kept keep) := by
  constructor
  · intro h t ht hk e he hz
    obtain ⟨i, hi, hm⟩ := mem_terms.mp ht
    exact h (i, t.1) hi hk t.2 hm e he hz
  · intro h t ht hk m hm e he hz
    exact h (t.2, m) (mem_terms.mpr ⟨t.1, ht, hm⟩) hk e he hz

def keptMask (s : System α) (keep : List Bool) : List Bool :=
  s.equations.map fun r => !touches (fun m => (removed s keep).getD m false) r

theorem select_keptMask (s : System α) (keep : List Bool) :
    select (keptMask s keep) s.equations = keptEquations s keep := select_filter _ _

theorem restricts_cut (hs : s.Proper) (keep : List Bool) :
    s.Restricts (s.cut keep) keep (keptMask s keep) (usedMonomials s keep) where
  width := rfl
  monomials := rfl
  equations := by
    rw [select_keptMask]
    rfl
  length_used := length_usedMonomials s keep
  length_kept := List.length_map _
  spares i r hr := by
    rw [Kept, keptMask, List.getD_eq_getElem?_getD, List.getElem?_map, hr, spares_iff_over]
    exact touches_removed
  uses i := by
    rw [select_keptMask]
    exact kept_usedMonomials hs

/-- Every monomial of a restriction is in use. -/
theorem Restricts.in_use {t : System α} {keep kept used : List Bool}
    (h : s.Restricts t keep kept used) {i : Nat} (hi : i < t.monomials.length) :
    ∃ r ∈ t.equations, ∃ e ∈ r, e.1 = i ∧ e.2 ≠ 0 := by
  rw [h.monomials, List.length_map, length_select h.length_used] at hi
  obtain ⟨c, hc, hrank⟩ := exists_kept hi
  obtain ⟨r, hr, e, he, hec, hz⟩ := (h.uses c).mp hc
  rw [h.equations]
  refine ⟨_, List.mem_map_of_mem hr, _, List.mem_map_of_mem (List.mem_filter.mpr ⟨he, ?_⟩), ?_, hz⟩
  · rw [hec]
    exact hc
  · rw [hec]
    exact hrank

/-- At the coordinates that are kept, the equations that are kept have the residuals they had. -/
theorem residualAt_cut (hs : s.Proper) {keep : List Bool} (h : keep.length = s.width) {xs : List α}
    (hx : xs.length = s.width) :
    (s.cut keep).residualAt (point (select keep xs)) =
      select (keptMask s keep) (s.residualAt (point xs)) := by
  have hxy (c : Nat) (hc : Kept keep c) :
      point (select keep xs) ((keep.take c).count true) = point xs c := by
    rw [point_eq_getD, point_eq_getD, List.getD_eq_getElem?_getD, List.getD_eq_getElem?_getD,
      getElem?_select (h.trans hx.symm) hc]
  have hequations : (s.cut keep).polynomials =
      (keptEquations s keep).map fun r => (s.cut keep).terms (Row.pick (usedMonomials s keep) r) :=
    List.map_map
  rw [residualAt_polynomials, hequations, List.map_map, residualAt_polynomials, polynomials,
    List.map_map, select_map, select_keptMask]
  apply List.map_congr_left
  intro r hr
  rw [Function.comp_apply, terms_cut]
  exact valueAt_kept hs hxy hr

/-- A restriction keeps, in order, the equations that spare what goes, with the residuals they have, and
the monomials that these use. Restricting once more is restricting at once by both masks. -/
theorem trim_restricts (hs : s.Proper) {keep : List Bool} (h : keep.length = s.width) :
    ∃ t kept used, s.trim keep = .ok t ∧ s.Restricts t keep kept used ∧
      (∀ xs : List α, xs.length = s.width → ∃ values, s.residual xs = .ok values ∧
        t.residual (select keep xs) = .ok (select kept values)) ∧
      (∀ i < t.monomials.length, ∃ r ∈ t.equations, ∃ e ∈ r, e.1 = i ∧ e.2 ≠ 0) ∧
      ∀ next : List Bool, next.length = t.width → t.trim next = s.trim (narrow keep next) := by
  have hcut := restricts_cut hs keep
  refine ⟨s.cut keep, _, _, (trim_eq h).trans (congrArg _ (trimmed_eq_cut hs)), hcut, ?_, ?_, ?_⟩
  · intro xs hx
    refine ⟨_, residual_of_length hx, ?_⟩
    have hlength : (select keep xs).length = (s.cut keep).width := length_select (h.trans hx.symm)
    rw [residual_of_length hlength, residualAt_cut hs h hx]
  · intro i hi
    exact hcut.in_use hi
  · intro next hnext
    rw [trim_eq hnext, trim_eq (by simpa using h), trimmed_eq_cut (proper_cut hs), trimmed_eq_cut hs,
      cut_cut hs hnext]

def sharing : System ℚ where
  width := 3
  monomials := [[(0, 1)], [(1, 1)], [(2, 1)], [], [(0, 1), (1, 1)]]
  equations := [[(0, 1), (1, 1), (3, -1)], [(2, 1), (4, 1)], [(0, 1), (3, -1)]]

theorem proper_sharing : sharing.Proper := by
  constructor
  · unfold Row.Within
    decide
  · unfold Row.Within
    decide

theorem trimmed_sharing : sharing.trimmed [true, false, true] =
    ⟨2, [[(0, 1)], []], [[(0, 1), (1, -1)]]⟩ := by
  have hmonomials : (sharing.trimmed [true, false, true]).monomials = [[(0, 1)], []] := by
    decide +kernel
  have hequations : (sharing.trimmed [true, false, true]).equations = [[(0, 1), (1, -1)]] := by
    decide +kernel
  rw [← hmonomials, ← hequations]
  rfl

/-- Without `b` only the last equation is left, on `a` and the constant; `c` is in no use any more. -/
theorem trim_restricts_sharing :
    sharing.Proper ∧ [true, false, true].length = sharing.width ∧
      sharing.trim [true, false, true] = .ok ⟨2, [[(0, 1)], []], [[(0, 1), (1, -1)]]⟩ ∧
      ∃ t kept used, sharing.trim [true, false, true] = .ok t ∧
        sharing.Restricts t [true, false, true] kept used ∧
        (∃ values, sharing.residual [5, 6, 7] = .ok values ∧
          t.residual [5, 7] = .ok (select kept values)) ∧
        (∀ i < t.monomials.length, ∃ r ∈ t.equations, ∃ e ∈ r, e.1 = i ∧ e.2 ≠ 0) ∧
        t.trim [false, true] = sharing.trim [false, false, true] := by
  have hlength : [true, false, true].length = sharing.width := rfl
  obtain ⟨t, kept, used, ht, hrestricts, hvalues, huse, htwice⟩ :=
    trim_restricts proper_sharing hlength
  refine ⟨proper_sharing, rfl, ?_, t, kept, used, ht, hrestricts, ?_, huse, ?_⟩
  · rw [trim_eq hlength, trimmed_sharing]
  · exact hvalues [5, 6, 7] rfl
  · exact htwice [false, true] hrestricts.width.symm

end System

end Transcription
