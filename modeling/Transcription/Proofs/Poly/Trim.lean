import Transcription.Proofs.Poly.Blocks

namespace Transcription

variable {α : Type}

namespace Row

def pick (keep : List Bool) (r : Row α) : Row α :=
  (r.filter fun t => keep.getD t.1 false).map fun t => ((keep.take t.1).count true, t.2)

theorem pick_append_left {ks ls : List Bool} {r : Row α} (h : Within ks.length r) :
    pick (ks ++ ls) r = pick ks r := by
  have hf : r.filter (fun t => (ks ++ ls).getD t.1 false) = r.filter fun t => ks.getD t.1 false :=
    List.filter_congr fun t ht => List.getD_append _ _ _ _ (h t ht)
  unfold pick
  rw [hf]
  refine List.map_congr_left fun t ht => ?_
  have := h t (List.mem_filter.mp ht).1
  rw [List.take_append_of_le_length (Nat.le_of_lt this)]

theorem pick_append_shift (ks ls : List Bool) (r : Row α) :
    pick (ks ++ ls) (shift ks.length r) = shift (ks.count true) (pick ls r) := by
  have hf : (fun t : Nat × α => (ks ++ ls).getD t.1 false) ∘ (fun t => (t.1 + ks.length, t.2)) =
      fun t : Nat × α => ls.getD t.1 false := by
    funext t
    simp only [Function.comp_apply]
    rw [List.getD_append_right _ _ _ _ (Nat.le_add_left _ _), Nat.add_sub_cancel]
  simp only [pick, shift, List.filter_map, hf, List.map_map]
  refine List.map_congr_left fun t _ => ?_
  simp [List.take_append, Nat.add_comm, List.take_of_length_le]

theorem within_pick (keep : List Bool) (r : Row α) : Within (keep.count true) (pick keep r) := by
  intro t ht
  obtain ⟨u, hu, rfl⟩ := List.mem_map.mp ht
  have hk := (List.mem_filter.mp hu).2
  have hlt : u.1 < keep.length := by
    by_contra hn
    rw [List.getD_eq_default _ _ (Nat.le_of_not_lt hn)] at hk
    cases hk
  rw [List.getD_eq_getElem _ _ hlt] at hk
  have hsplit : (keep.take u.1).count true + (keep.drop u.1).count true = keep.count true := by
    rw [← List.count_append, List.take_append_drop]
  rw [List.drop_eq_getElem_cons hlt, hk, List.count_cons_self] at hsplit
  change (keep.take u.1).count true < keep.count true
  omega

end Row

namespace System

theorem getD_toArray {β : Type} (as : List β) (i : Nat) (d : β) :
    as.toArray.getD i d = as.getD i d := by simp

theorem ranks_eq (keep : List Bool) :
    ranks keep = ((List.range keep.length).map fun c => (keep.take c).count true).toArray := by
  have gather (acc : Array Nat) (n : Nat) :
      (keep.foldl (fun (acc : Array Nat × Nat) k =>
        (acc.1.push acc.2, if k then acc.2 + 1 else acc.2)) (acc, n)).1 =
      acc ++ ((List.range keep.length).map fun c => n + (keep.take c).count true).toArray := by
    induction keep generalizing acc n with
    | nil => simp
    | cons k keep ih =>
      rw [List.foldl_cons, ih]
      have hc (c : Nat) : (if k = true then n + 1 else n) + (keep.take c).count true =
          n + ((k :: keep).take (c + 1)).count true := by
        cases k
        · simp
        · simp only [if_true, List.take_succ_cons, List.count_cons_self]
          omega
      simp [List.range_succ_eq_map, Function.comp_def, hc]
  exact (gather #[] 0).trans (by simp)

theorem restrict_eq (keep : List Bool) :
    (restrict keep.toArray (ranks keep) : Row α → Row α) = Row.pick keep := by
  funext r
  unfold restrict Row.pick
  simp only [getD_toArray]
  refine List.map_congr_left fun t ht => ?_
  have hk : keep.getD t.1 false = true := (List.mem_filter.mp ht).2
  have hlt : t.1 < keep.length := by
    by_contra hn
    rw [List.getD_eq_default _ _ (Nat.le_of_not_lt hn)] at hk
    cases hk
  rw [ranks_eq, getD_toArray]
  simp [hlt]

theorem select_cons {β : Type} (k : Bool) (keep : List Bool) (a : β) (as : List β) :
    select (k :: keep) (a :: as) = if k then a :: select keep as else select keep as := by
  cases k <;> simp [select]

theorem select_append {β : Type} {ks ls : List Bool} {as bs : List β} (h : ks.length = as.length) :
    select (ks ++ ls) (as ++ bs) = select ks as ++ select ls bs := by
  simp [select, List.zip_append h.symm]

theorem select_map {β γ : Type} (f : β → γ) (keep : List Bool) (as : List β) :
    select keep (as.map f) = (select keep as).map f := by
  induction as generalizing keep with
  | nil => simp [select]
  | cons a as ih =>
    cases keep with
    | nil => simp [select]
    | cons k keep =>
      rw [List.map_cons, select_cons, select_cons, ih]
      cases k <;> rfl

theorem length_select {β : Type} {keep : List Bool} {as : List β} (h : keep.length = as.length) :
    (select keep as).length = keep.count true := by
  induction as generalizing keep with
  | nil => simp [List.eq_nil_of_length_eq_zero h, select]
  | cons a as ih =>
    cases keep with
    | nil => simp at h
    | cons k keep =>
      rw [select_cons]
      have := ih (by simpa using h)
      cases k <;> simp [this]

theorem mem_of_mem_select {β : Type} {keep : List Bool} {as : List β} {a : β}
    (h : a ∈ select keep as) : a ∈ as := by
  obtain ⟨⟨b, k⟩, hm, hb⟩ := List.mem_filterMap.mp h
  cases k with
  | false => simp at hb
  | true =>
    obtain rfl : b = a := by simpa using hb
    exact (List.of_mem_zip hm).1

/-- The member at a kept place moves to the number of kept places before it. -/
theorem getElem?_select {β : Type} {keep : List Bool} {as : List β} (h : keep.length = as.length)
    {i : Nat} (hi : keep.getD i false = true) :
    (select keep as)[(keep.take i).count true]? = as[i]? := by
  induction as generalizing keep i with
  | nil => simp [List.eq_nil_of_length_eq_zero h] at hi
  | cons a as ih =>
    cases keep with
    | nil => simp at h
    | cons k keep =>
      rw [select_cons]
      cases i with
      | zero => simp_all
      | succ i =>
        have := ih (by simpa using h) (by simpa using hi)
        cases k <;> simpa using this

variable [Scalar α]

theorem touches_congr {p q : Nat → Bool} {r : Row α} (h : ∀ t ∈ r, p t.1 = q t.1) :
    touches p r = touches q r := by
  unfold touches
  rw [List.filter_congr h]

theorem touches_shift (p : Nat → Bool) (k : Nat) (r : Row α) :
    touches p (Row.shift k r) = touches (fun c => p (c + k)) r := by
  simp [touches, Row.shift, List.filter_map, Function.comp_def]

def removed (s : System α) (keep : List Bool) : List Bool :=
  s.monomials.map (touches fun c => !keep.getD c false)

def keptEquations (s : System α) (keep : List Bool) : List (Row α) :=
  s.equations.filter fun r => !touches (fun m => (removed s keep).getD m false) r

/-- The monomials that are kept: those in use by an equation that is. -/
def usedMonomials (s : System α) (keep : List Bool) : List Bool :=
  List.zipWith (fun u r => u && !r) (usedColumns s.monomials.length (keptEquations s keep))
    (removed s keep)

def cut (s : System α) (keep : List Bool) : System α :=
  ⟨keep.count true, (select (usedMonomials s keep) s.monomials).map (Row.pick keep),
    (keptEquations s keep).map (Row.pick (usedMonomials s keep))⟩

def trimmed (s : System α) (keep : List Bool) : System α :=
  if s.isEmpty then empty (keep.count true) else s.cut keep

theorem trim_eq {s : System α} {keep : List Bool} (h : keep.length = s.width) :
    s.trim keep = .ok (s.trimmed keep) := by
  have hc : (keep.filter id).length = keep.count true := by
    rw [List.count_eq_length_filter]
    exact congrArg List.length (List.filter_congr fun b _ => by cases b <;> rfl)
  unfold trim trimmed
  rw [if_pos h]
  simp only [hc]
  split
  · rfl
  · simp only [cut, keptEquations, usedMonomials, removed, getD_toArray, restrict_eq]
    rfl

theorem width_trimmed (s : System α) (keep : List Bool) :
    (s.trimmed keep).width = keep.count true := by
  unfold trimmed
  split <;> rfl

theorem length_removed (s : System α) (keep : List Bool) :
    (removed s keep).length = s.monomials.length := by simp [removed]

theorem length_usedMonomials (s : System α) (keep : List Bool) :
    (usedMonomials s keep).length = s.monomials.length := by
  simp [usedMonomials, usedColumns, removed]

theorem proper_trimmed (s : System α) (keep : List Bool) : (s.trimmed keep).Proper := by
  unfold trimmed
  split
  · exact proper_empty _
  · refine ⟨fun r hr => ?_, fun r hr => ?_⟩
    · obtain ⟨m, _, rfl⟩ := List.mem_map.mp hr
      exact Row.within_pick keep m
    · obtain ⟨e, _, rfl⟩ := List.mem_map.mp hr
      have hlen : (s.cut keep).monomials.length = (usedMonomials s keep).count true := by
        rw [cut, List.length_map, length_select (length_usedMonomials s keep)]
      rw [hlen]
      exact Row.within_pick _ e

variable {s t : System α} {ks ls : List Bool}

theorem removed_join (hs : s.Proper) (hk : ks.length = s.width) :
    removed (s.join t) (ks ++ ls) = removed s ks ++ removed t ls := by
  simp only [removed, join, List.map_append, List.map_map]
  congr 1
  · refine List.map_congr_left fun r hr => touches_congr fun e he => ?_
    have := hs.monomials r hr e he
    rw [List.getD_append _ _ _ _ (by omega)]
  · refine List.map_congr_left fun r _ => (touches_shift _ _ r).trans ?_
    refine touches_congr fun e _ => ?_
    rw [List.getD_append_right _ _ _ _ (by omega), hk, Nat.add_sub_cancel]

theorem keptEquations_join (hs : s.Proper) (hk : ks.length = s.width) :
    keptEquations (s.join t) (ks ++ ls) =
      keptEquations s ks ++ (keptEquations t ls).map (Row.shift s.monomials.length) := by
  simp only [keptEquations, removed_join hs hk]
  rw [show (s.join t).equations = s.equations ++ t.equations.map (Row.shift s.monomials.length)
    from rfl, List.filter_append, List.filter_map]
  have hlen := length_removed s ks
  congr 1
  · refine List.filter_congr fun r hr => congrArg _ (touches_congr fun e he => ?_)
    have := hs.equations r hr e he
    rw [List.getD_append _ _ _ _ (by omega)]
  · refine congrArg _ (List.filter_congr fun r _ => congrArg not ((touches_shift _ _ r).trans ?_))
    refine touches_congr fun e _ => ?_
    rw [List.getD_append_right _ _ _ _ (by omega), hlen, Nat.add_sub_cancel]

theorem within_keptEquations (hs : s.Proper) :
    ∀ r ∈ keptEquations s ks, Row.Within s.monomials.length r :=
  fun r hr => hs.equations r (List.mem_filter.mp hr).1

/-- Entries of one column come from one of two blocks along a diagonal. -/
theorem usedColumns_append (m n : Nat) (rs qs : List (Row α)) (hr : ∀ r ∈ rs, Row.Within m r) :
    usedColumns (m + n) (rs ++ qs.map (Row.shift m)) = usedColumns m rs ++ usedColumns n qs := by
  have hleft (c : Nat) (hc : c < m) :
      touches (· = c) (rs ++ qs.map (Row.shift m)).flatten = touches (· = c) rs.flatten := by
    have : (qs.map (Row.shift m)).flatten.filter (fun t => decide (t.1 = c)) = [] := by
      refine List.filter_eq_nil_iff.mpr fun t ht => ?_
      obtain ⟨q, hq, hmem⟩ := List.mem_flatten.mp ht
      obtain ⟨r, _, rfl⟩ := List.mem_map.mp hq
      obtain ⟨u, _, rfl⟩ := List.mem_map.mp hmem
      simp only [decide_eq_true_eq]
      omega
    simp [touches, this]
  have hright (c : Nat) :
      touches (· = m + c) (rs ++ qs.map (Row.shift m)).flatten = touches (· = c) qs.flatten := by
    have hnone : rs.flatten.filter (fun t => decide (t.1 = m + c)) = [] := by
      refine List.filter_eq_nil_iff.mpr fun t ht => ?_
      obtain ⟨r, hmem, htr⟩ := List.mem_flatten.mp ht
      have := hr r hmem t htr
      simp only [decide_eq_true_eq]
      omega
    have hshift : (qs.map (Row.shift m)).flatten = Row.shift m qs.flatten := by
      rw [Row.shift, List.map_flatten]
      rfl
    have hsame : touches (· = m + c) (Row.shift m qs.flatten) = touches (· = c) qs.flatten :=
      (touches_shift _ m _).trans (touches_congr fun t _ => by
        simp only [decide_eq_decide]
        omega)
    rw [← hsame, ← hshift]
    simp [touches, hnone]
  simp only [usedColumns, List.range_add, List.map_append, List.map_map]
  congr 1
  · exact List.map_congr_left fun c hc => hleft c (List.mem_range.mp hc)
  · exact List.map_congr_left fun c _ => hright c

theorem usedMonomials_join (hs : s.Proper) (hk : ks.length = s.width) :
    usedMonomials (s.join t) (ks ++ ls) = usedMonomials s ks ++ usedMonomials t ls := by
  unfold usedMonomials
  rw [keptEquations_join hs hk, removed_join hs hk,
    show (s.join t).monomials.length = s.monomials.length + t.monomials.length by simp [join],
    usedColumns_append _ _ _ _ (within_keptEquations hs)]
  exact List.zipWith_append (by simp [usedColumns, removed])

/-- What is kept of joined systems is what is kept of each, joined. -/
theorem cut_join (hs : s.Proper) (hk : ks.length = s.width) :
    (s.join t).cut (ks ++ ls) = (s.cut ks).join (t.cut ls) := by
  have hsel := length_select (length_usedMonomials s ks)
  unfold cut
  rw [usedMonomials_join hs hk, keptEquations_join hs hk]
  simp only [join, List.length_map, hsel, List.count_append, List.map_append]
  rw [select_append (length_usedMonomials s ks)]
  simp only [List.map_append, List.map_map, select_map]
  congr 2
  · refine List.map_congr_left fun r hr => Row.pick_append_left ?_
    rw [hk]
    exact hs.monomials r (mem_of_mem_select hr)
  · refine List.map_congr_left fun r _ => ?_
    simp only [Function.comp_apply, ← hk, Row.pick_append_shift]
  · refine List.map_congr_left fun r hr => Row.pick_append_left ?_
    rw [length_usedMonomials]
    exact within_keptEquations hs r hr
  · refine List.map_congr_left fun r _ => ?_
    simp only [Function.comp_apply, ← length_usedMonomials s ks, Row.pick_append_shift]

theorem cut_empty : (empty 0 : System α).cut [] = empty 0 := by
  simp [cut, keptEquations, usedMonomials, usedColumns, select, empty]

theorem cut_copies (hs : s.Proper) (masks : List (List Bool))
    (hm : ∀ mask ∈ masks, mask.length = s.width) :
    (directSum (List.replicate masks.length s)).cut masks.flatten = directSum (masks.map s.cut) := by
  induction masks with
  | nil => exact cut_empty
  | cons mask masks ih =>
    obtain ⟨hmask, hrest⟩ := List.forall_mem_cons.mp hm
    rw [List.length_cons, List.replicate_succ, directSum_cons, List.flatten_cons,
      cut_join hs hmask, ih hrest, List.map_cons, directSum_cons]

/-- Restricting every copy by a mask of its own is restricting all copies by the masks joined. -/
theorem trimmed_copies (hs : s.Proper) {masks : List (List Bool)} (hne : masks ≠ [])
    (hm : ∀ mask ∈ masks, mask.length = s.width) :
    (s.replicate masks.length).trimmed masks.flatten = directSum (masks.map s.trimmed) := by
  obtain ⟨n, hn⟩ := Nat.exists_eq_succ_of_ne_zero (mt List.eq_nil_of_length_eq_zero hne)
  have he : (s.replicate masks.length).isEmpty = s.isEmpty := by
    rw [replicate_eq_directSum, hn]
    exact isEmpty_directSum_replicate s n
  unfold trimmed
  rw [he]
  split
  · rw [List.count_flatten, ← directSum_empty, List.map_map]
    rfl
  · rw [replicate_eq_directSum]
    exact cut_copies hs masks hm

end System

end Transcription
