import Transcription.Proofs.Poly.Vanishing

namespace Transcription

variable {α : Type}

namespace System

theorem length_directSum (ss : List (System α)) :
    (directSum ss).equations.length = (ss.map fun s => s.equations.length).sum := by
  induction ss with
  | nil => rfl
  | cons s ss ih =>
    have hjoin : (s.join (directSum ss)).equations.length =
        s.equations.length + (directSum ss).equations.length := by
      simp [join]
    rw [directSum_cons, hjoin, ih, List.map_cons, List.sum_cons]

theorem length_replicate (s : System α) (n : Nat) :
    (s.replicate n).equations.length = n * s.equations.length := by
  rw [replicate_eq_directSum, length_directSum, List.map_replicate, List.sum_replicate, smul_eq_mul]

theorem length_polynomials (s : System α) : s.polynomials.length = s.equations.length :=
  List.length_map _

end System

namespace Poly

theorem shift_zero (p : Poly α) : shift 0 p = p := by
  simp [shift, Row.shift_zero]

theorem shift_shift (j k : Nat) (p : Poly α) : shift j (shift k p) = shift (j + k) p := by
  simp [shift, Row.shift_shift]

variable [LinearOrder α] [ExactScalar α] {keep : Nat → Prop} {ρ : Nat → Nat} {p q : Poly α}

/-- `q` is `p` with the variables that `keep` holds of moved by `ρ`. It has the same values, as long as
`p` is regular, and the same variables by themselves. -/
structure Moves (keep : Nat → Prop) (ρ : Nat → Nat) (p q : Poly α) : Prop where
  value : ∀ x y : Nat → α, (∀ c, keep c → y (ρ c) = x c) → p.Regular x →
    q.Regular y ∧ q.valueAt y = p.valueAt x
  single : ∀ a c, a ≠ 0 → keep c → (a, [(c, 1)]) ∈ p → (a, [(ρ c, 1)]) ∈ q

theorem valueAt_shift (x : Nat → α) (k : Nat) (p : Poly α) :
    valueAt x (shift k p) = valueAt (fun c => x (c + k)) p := by
  rw [valueAt, shift, List.map_map, valueAt]
  refine congrArg List.sum (List.map_congr_left fun t _ => ?_)
  rw [Function.comp_apply, System.monomialAt_shift]

theorem Moves.shift (h : Moves keep ρ p q) (k : Nat) :
    Moves keep (fun c => ρ c + k) p (Poly.shift k q) where
  value x y hxy hr := by
    rw [regular_shift, valueAt_shift]
    exact h.value x (fun c => y (c + k)) hxy hr
  single a c ha hc hmem := List.mem_map.mpr ⟨_, h.single a c ha hc hmem, rfl⟩

theorem Moves.relabel (h : Moves keep ρ p q) (f : Nat → Nat) :
    Moves keep (fun c => f (ρ c)) p (q.relabel f) where
  value x y hxy hr := by
    obtain ⟨hregular, hvalue⟩ := h.value x (fun c => y (f c)) hxy hr
    exact ⟨hregular.relabel, (valueAt_relabel hregular).trans hvalue⟩
  single a c ha hc hmem := by
    refine List.mem_map.mpr ⟨_, h.single a c ha hc hmem, ?_⟩
    rw [Row.relabel_single]

end Poly

namespace System

variable [LinearOrder α] [ExactScalar α] {β : Type}

/-- Of a list that is related to all equations, the members that go with those that are kept. -/
theorem forall₂_keptEquations {s : System α} {keep : List Bool} {R : β → Row α → Prop} {f : β → Bool}
    {bs : List β} (h : List.Forall₂ R bs s.equations)
    (hf : ∀ b r, R b r → ((s.terms r).Over (Kept keep) ↔ f b = true)) :
    List.Forall₂ R (bs.filter f) (keptEquations s keep) :=
  List.rel_filter (fun b r hr => (touches_removed.trans (hf b r hr)).symm) h

/-- What is kept of an equation has its variables where only the kept ones are counted. -/
theorem moves_kept {s : System α} (hs : s.Proper) {keep : List Bool} {r : Row α}
    (hr : r ∈ keptEquations s keep) :
    Poly.Moves (Kept keep) (fun c => (keep.take c).count true) (s.terms r)
      ((s.cut keep).terms (Row.pick (usedMonomials s keep) r)) := by
  rw [terms_cut]
  refine ⟨fun x y hxy hregular => ⟨fun t ht => ?_, valueAt_kept hs hxy hr⟩, fun a c ha hc hmem => ?_⟩
  · obtain ⟨u, hu, rfl⟩ := List.mem_map.mp ht
    obtain ⟨i, hi, hm⟩ := mem_terms.mp hu
    exact regular_pick hxy (hregular u (mem_terms.mpr ⟨i, (List.mem_filter.mp hi).1, hm⟩))
  · obtain ⟨i, hi, hm⟩ := mem_terms.mp hmem
    have hused := used_of_mem hs hr hi ha
    have hpick : Row.pick keep [(c, (1 : α))] = [((keep.take c).count true, 1)] := by
      rw [Row.pick, List.filter_cons, if_pos hc]
      rfl
    exact List.mem_map.mpr ⟨(a, [(c, 1)]), mem_terms.mpr ⟨i, List.mem_filter.mpr ⟨hi, hused⟩, hm⟩,
      congrArg (Prod.mk a) hpick⟩

/-- A restriction has the polynomials of the equations that it keeps. -/
theorem forall₂_polynomials_trimmed {s : System α} (hs : s.Proper) (keep : List Bool) :
    List.Forall₂ (fun r p => Poly.Moves (Kept keep) (fun c => (keep.take c).count true) (s.terms r) p)
      (keptEquations s keep) (s.trimmed keep).polynomials := by
  unfold trimmed
  split
  case isTrue he =>
    have hnone : s.equations = [] := List.isEmpty_iff.mp he
    rw [keptEquations, hnone]
    exact .nil
  case isFalse =>
    rw [polynomials, show (s.cut keep).equations =
      (keptEquations s keep).map (Row.pick (usedMonomials s keep)) from rfl, List.map_map,
      List.forall₂_map_right_iff]
    exact List.forall₂_same.mpr fun r hr => moves_kept hs hr

omit [LinearOrder α] [ExactScalar α] in
/-- Side by side, the polynomials of every system are related to the members of a list of its own. -/
theorem forall₂_directSum {R : β → Poly α → Prop} {ss : List (System α)} {bss : List (List β)}
    (hlength : bss.length = ss.length) (h : ∀ s ∈ ss, s.Proper)
    (hr : ∀ (i : Nat) (s : System α) (bs : List β), ss[i]? = some s → bss[i]? = some bs →
      List.Forall₂ (fun b p => R b (Poly.shift (offset ss i) p)) bs s.polynomials) :
    List.Forall₂ R bss.flatten (directSum ss).polynomials := by
  induction ss generalizing bss R with
  | nil =>
    obtain rfl := List.eq_nil_of_length_eq_zero hlength
    exact .nil
  | cons s ss ih =>
    obtain ⟨hs, hss⟩ := List.forall_mem_cons.mp h
    cases bss with
    | nil => cases hlength
    | cons bs bss =>
      rw [directSum_cons, polynomials_join hs, List.flatten_cons]
      refine List.rel_append ?_ (List.forall₂_map_right_iff.mpr
        (ih (Nat.succ.inj hlength) hss fun i t ts ht hts => ?_))
      · have hfirst := hr 0 s bs rfl rfl
        simpa only [offset, List.take_zero, List.map_nil, List.sum_nil, Poly.shift_zero] using hfirst
      · have hnext := hr (i + 1) t ts ht hts
        simpa only [offset_cons_succ, Poly.shift_shift, Nat.add_comm] using hnext

omit [LinearOrder α] [ExactScalar α] in
theorem forall₂_replicate {R : β → Poly α → Prop} {s : System α} (hs : s.Proper) {m : Nat}
    {bs : Nat → List β}
    (hr : ∀ i < m, List.Forall₂ (fun b p => R b (Poly.shift (i * s.width) p)) (bs i) s.polynomials) :
    List.Forall₂ R ((List.range m).flatMap bs) (s.replicate m).polynomials := by
  rw [replicate_eq_directSum, List.flatMap_def]
  refine forall₂_directSum (by simp) (fun t ht => List.eq_of_mem_replicate ht ▸ hs) ?_
  intro i t ts ht hts
  rw [List.getElem?_replicate] at ht
  split at ht
  case isFalse => cases ht
  case isTrue hi =>
    cases ht
    rw [List.getElem?_map, List.getElem?_range hi] at hts
    cases hts
    rw [offset_replicate s hi]
    exact hr i hi

end System

end Transcription
