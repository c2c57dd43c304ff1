import Transcription.Proofs.Wire.Merging

namespace Transcription

open Relation

/-- Numberings with equal numbers at the same places are equal. -/
theorem Partition.number_congr {rs qs : List Nat} (hlength : rs.length = qs.length)
    (h : ∀ i < rs.length, ∀ j < rs.length,
      (number rs)[i]? = (number rs)[j]? ↔ (number qs)[i]? = (number qs)[j]?) :
    number rs = number qs := by
  refine List.ext_getElem? fun e => ?_
  induction e using Nat.strong_induction_on with
  | _ e ih =>
    by_cases he : e < rs.length
    · have her : e < (number rs).length := by rwa [length_number]
      have heq : e < (number qs).length := by rwa [length_number, ← hlength]
      obtain ⟨a, hr⟩ : ∃ a, (number rs)[e]? = some a := ⟨_, List.getElem?_eq_getElem her⟩
      obtain ⟨b, hq⟩ : ∃ b, (number qs)[e]? = some b := ⟨_, List.getElem?_eq_getElem heq⟩
      -- the smaller of two numbers has occurred before, in both lists at the same place
      rcases Nat.lt_trichotomy a b with hlt | heq | hlt
      · obtain ⟨f, hf, hfa⟩ := exists_number_before qs hq hlt
        have hsame := (h f (hf.trans he) e he).mp ((ih f hf).trans (hfa.trans hr.symm))
        rw [hfa, hq] at hsame
        exact absurd (Option.some.inj hsame) hlt.ne
      · rw [hr, hq, heq]
      · obtain ⟨f, hf, hfb⟩ := exists_number_before rs hr hlt
        have hsame := (h f (hf.trans he) e he).mpr ((ih f hf).symm.trans (hfb.trans hq.symm))
        rw [hfb, hr] at hsame
        exact absurd (Option.some.inj hsame) hlt.ne
    · have hle := Nat.le_of_not_lt he
      rw [List.getElem?_eq_none (by rwa [length_number]),
        List.getElem?_eq_none (by rwa [length_number, ← hlength])]

def pointToFirsts (labels : List Nat) : List (Option Int) :=
  labels.mapIdx fun i l => if labels.idxOf l = i then none else some (labels.idxOf l : Int)

section Pointers

variable {labels : List Nat}

theorem length_pointToFirsts (labels : List Nat) : (pointToFirsts labels).length = labels.length :=
  List.length_mapIdx

theorem idxOf_le {i l : Nat} (h : labels[i]? = some l) : labels.idxOf l ≤ i := by
  obtain ⟨hi, rfl⟩ := List.getElem?_eq_some_iff.mp h
  by_contra hlt
  have hother := List.not_of_lt_findIdx (Nat.lt_of_not_le hlt)
  simp at hother

/-- Only elements that are not the first ones with their numbers have a pointer. -/
theorem getElem?_pointToFirsts {i : Nat} {target : Int}
    (h : (pointToFirsts labels)[i]? = some (some target)) :
    ∃ l, labels[i]? = some l ∧ labels.idxOf l < i ∧ target = labels.idxOf l := by
  rw [pointToFirsts, List.getElem?_mapIdx] at h
  obtain ⟨l, hl, htarget⟩ := Option.map_eq_some_iff.mp h
  split at htarget
  · cases htarget
  · rename_i hne
    exact ⟨l, hl, Nat.lt_of_le_of_ne (idxOf_le hl) hne, (Option.some.inj htarget).symm⟩

theorem position_pointToFirsts {i l : Nat} (hl : labels[i]? = some l) :
    position (pointToFirsts labels).length (labels.idxOf l) = .ok (labels.idxOf l) := by
  apply position_natCast
  rw [length_pointToFirsts]
  exact (idxOf_le hl).trans_lt (List.getElem?_eq_some_iff.mp hl).1

theorem pointsInside_pointToFirsts (labels : List Nat) : PointsInside (pointToFirsts labels) := by
  intro i target h
  obtain ⟨l, hl, _, rfl⟩ := getElem?_pointToFirsts h
  exact ⟨_, position_pointToFirsts hl⟩

/-- An element points at the first one with its number, unless it is that itself. -/
theorem pointsAt_pointToFirsts_iff {i j : Nat} : PointsAt (pointToFirsts labels) i j ↔
    j < i ∧ ∃ l, labels[i]? = some l ∧ labels.idxOf l = j := by
  constructor
  · intro ⟨target, htarget, hj⟩
    obtain ⟨l, hl, hlt, rfl⟩ := getElem?_pointToFirsts htarget
    cases (position_pointToFirsts hl).symm.trans hj
    exact ⟨hlt, l, hl, rfl⟩
  · intro ⟨hlt, l, hl, hj⟩
    subst hj
    refine ⟨labels.idxOf l, ?_, position_pointToFirsts hl⟩
    rw [pointToFirsts, List.getElem?_mapIdx, hl, Option.map_some, if_neg hlt.ne]

/-- Pointers to the first of a class connect what has one number. -/
theorem eqvGen_pointToFirsts_iff {i j : Nat} (hi : i < labels.length) :
    EqvGen (PointsAt (pointToFirsts labels)) i j ↔ labels[i]? = labels[j]? := by
  constructor
  · intro h
    have hequal : Equivalence fun i j : Nat => labels[i]? = labels[j]? :=
      ⟨fun _ => rfl, Eq.symm, Eq.trans⟩
    apply hequal.eqvGen_iff.mp
    refine EqvGen.eqvGen_mono (fun a b hab => ?_) _ _ h
    obtain ⟨hlt, l, hl, rfl⟩ := pointsAt_pointToFirsts_iff.mp hab
    rw [hl, List.getElem?_idxOf (List.mem_of_getElem? hl)]
  · intro h
    -- both are connected with the first element that has their number
    have hfirst {k l : Nat} (hl : labels[k]? = some l) :
        EqvGen (PointsAt (pointToFirsts labels)) k (labels.idxOf l) := by
      rcases Nat.lt_or_eq_of_le (idxOf_le hl) with hlt | heq
      · exact .rel _ _ (pointsAt_pointToFirsts_iff.mpr ⟨hlt, l, hl, rfl⟩)
      · rw [heq]
        exact .refl k
    have hli := List.getElem?_eq_getElem hi
    exact .trans _ _ _ (hfirst hli) (.symm _ _ (hfirst (h.symm.trans hli)))

/-- Pointers to smaller elements close no cycle. -/
theorem not_closes_pointToFirsts (i : Nat) : ¬ Closes (pointToFirsts labels) i := by
  intro h
  have hdown {a b : Nat} (hab : TransGen (PointsAt (pointToFirsts labels)) a b) : b < a := by
    induction hab with
    | single hb => exact (pointsAt_pointToFirsts_iff.mp hb).1
    | tail _ hb ih => exact (pointsAt_pointToFirsts_iff.mp hb).1.trans ih
  exact Nat.lt_irrefl i (hdown h.cycle)

/-- Numbers found for pointers are found again for pointers to the first element of each class. -/
theorem resolveAliases_pointToFirsts {pointers : List (Option Int)}
    (h : (resolveAliases pointers).2 = .ok labels) :
    resolveAliases (pointToFirsts labels) = ([], .ok labels) := by
  obtain ⟨closed, again, hagain, hlength, _, hlabels, hclosed, _⟩ :=
    resolveAliases_eq (pointsInside_pointToFirsts labels)
  rw [length_pointToFirsts] at hlength hlabels
  have hnone : closed = [] :=
    List.eq_nil_iff_forall_not_mem.mpr fun i hi => not_closes_pointToFirsts i ((hclosed i).mp hi)
  have hkernel : ∀ i < labels.length, ∀ j < labels.length,
      again[i]? = again[j]? ↔ labels[i]? = labels[j]? :=
    fun i hi j hj => (hlabels i hi j hj).trans (eqvGen_pointToFirsts_iff hi)
  obtain ⟨rs, rfl⟩ := exists_number_of_resolveAliases h
  obtain ⟨qs, rfl⟩ := exists_number_of_resolveAliases (congrArg Prod.snd hagain)
  rw [Partition.length_number, Partition.length_number] at hlength
  rw [hagain, hnone, Partition.number_congr hlength]
  rw [Partition.length_number, ← hlength] at hkernel
  exact hkernel

end Pointers

namespace WireTable

variable {α : Type} [Scalar α]

/-- Where wires agree in a limit, choosing one of them time and again ends at it. -/
theorem foldl_limits {f : Limit α → Limit α → Limit α} {start : Limit α} (hstart : ∀ l, f start l = l)
    (hself : ∀ l, f l l = l) {view : Wire α → ByPhase (Limit α)} {b : ByPhase (Limit α)}
    {ws : List (Wire α)} (hne : ws ≠ []) (h : ∀ w ∈ ws, view w = b) (p : MajorPhase) :
    (ws.map fun w => (view w).get p).foldl f start = b.get p := by
  have hsame : (ws.map fun w => (view w).get p) = List.replicate ws.length (b.get p) := by
    refine List.eq_replicate_iff.mpr ⟨List.length_map _, fun l hl => ?_⟩
    obtain ⟨w, hw, rfl⟩ := List.mem_map.mp hl
    rw [h w hw]
  obtain ⟨n, hn⟩ := Nat.exists_eq_succ_of_ne_zero (mt List.length_eq_zero_iff.mp hne)
  rw [hsame, hn, List.replicate_succ, List.foldl_cons, hstart]
  clear hn
  induction n with
  | zero => rfl
  | succ n ih => rw [List.replicate_succ, List.foldl_cons, hself, ih]

theorem groupLower_of_forall_eq {ws : List (Wire α)} {b : ByPhase (Limit α)} (hne : ws ≠ [])
    (h : ∀ w ∈ ws, w.lower = b) : groupLower ws = b := by
  have hstart (l : Limit α) : Limit.max .negInf l = l := by
    cases l <;> rfl
  have hself (l : Limit α) : l.max l = l := ite_self l
  rw [groupLower, funext (foldl_limits hstart hself hne h)]
  rfl

theorem groupUpper_of_forall_eq {ws : List (Wire α)} {b : ByPhase (Limit α)} (hne : ws ≠ [])
    (h : ∀ w ∈ ws, w.upper = b) : groupUpper ws = b := by
  have hstart (l : Limit α) : Limit.min .posInf l = l := by
    cases l <;> rfl
  have hself (l : Limit α) : l.min l = l := ite_self l
  rw [groupUpper, funext (foldl_limits hstart hself hne h)]
  rfl

theorem any_of_forall_eq {β : Type} {p : β → Bool} {b : Bool} {xs : List β} (hne : xs ≠ [])
    (h : ∀ x ∈ xs, p x = b) : xs.any p = b := by
  obtain ⟨x, hx⟩ := List.exists_mem_of_ne_nil xs hne
  cases b with
  | false => exact List.any_eq_false.mpr fun y hy => Bool.not_eq_true _ ▸ h y hy
  | true => exact List.any_eq_true.mpr ⟨x, hx, h x hx⟩

/-- Wires that have been given what they share have it in common. -/
theorem share_share {ws : List (Wire α)} (hne : ws ≠ []) (w : Wire α) :
    share (ws.map (share ws)) (share ws w) = share ws w := by
  have hall {β : Type} (f : Wire α → β) {b : β} (hf : ∀ v, f (share ws v) = b) :
      ∀ v ∈ ws.map (share ws), f v = b := by
    intro v hv
    obtain ⟨u, _, rfl⟩ := List.mem_map.mp hv
    exact hf u
  have hne' : ws.map (share ws) ≠ [] := by simpa using hne
  have hcost : groupCost (ws.map (share ws)) = groupCost ws := by
    simp only [groupCost, List.map_map]
    rfl
  rw [share, groupLower_of_forall_eq hne' (hall (·.lower) fun _ => rfl),
    groupUpper_of_forall_eq hne' (hall (·.upper) fun _ => rfl), hcost,
    any_of_forall_eq hne' (hall (·.state) fun _ => rfl),
    any_of_forall_eq hne' (hall (·.input) fun _ => rfl),
    any_of_forall_eq hne' (hall (·.external) fun _ => rfl)]
  rfl

theorem group_merge (t : WireTable α) (net : Nat) :
    t.merge.group net = (t.group net).map (share (t.group net)) := by
  rw [group, merge, List.filter_map]
  refine List.map_congr_left fun w hw => ?_
  have hnet : w.net = net := of_decide_eq_true (List.mem_filter.mp hw).2
  rw [hnet]

/-- Merging wires that are merged changes nothing. -/
theorem merge_merge (t : WireTable α) : t.merge.merge = t.merge := by
  have hwires : t.merge.wires.map (fun w => share (t.merge.group w.net) w) = t.merge.wires := by
    rw [merge, List.map_map]
    refine List.map_congr_left fun w hw => ?_
    have hmem : w ∈ t.group w.net := List.mem_filter.mpr ⟨hw, decide_eq_true rfl⟩
    rw [Function.comp_apply]
    change share (t.merge.group w.net) _ = _
    rw [group_merge, share_share (List.ne_nil_of_mem hmem)]
  conv_lhs => rw [merge, hwires]

/-- Wires that have the nets of a list are given them again. -/
theorem renumber_map_net (t : WireTable α) : t.renumber (t.wires.map (·.net)) = t := by
  have hwires : List.zipWith (fun w c => { w with net := c }) t.wires (t.wires.map (·.net)) = t.wires := by
    rw [List.zipWith_map_right, List.zipWith_self]
    exact List.map_id' t.wires
  rw [renumber, hwires]

/-- Resolving the aliases of a table that was merged notes what was noted and finds what was found. -/
theorem canonicalize_merge_renumber {t : WireTable α} {closed labels : List Nat}
    (h : resolveAliases (t.wires.map (·.aliasOf)) = (closed, .ok labels)) (path : Nat → String) :
    (t.renumber labels).merge.canonicalize path = t.canonicalize path := by
  obtain ⟨hlength, hdense⟩ := labels_of_resolveAliases (congrArg Prod.snd h)
  rw [List.length_map] at hlength
  have hagree := (merged_renumber hlength hdense).agree
  have haliases : (t.renumber labels).merge.wires.map (·.aliasOf) = t.wires.map (·.aliasOf) :=
    (hagree.comp fun s : Nat × Diagram.Tap × Option Int => s.2.2).view_eq
  let label (s : Nat × Diagram.Tap × Option Int) : String :=
    s!"{path s.2.1.1.block}:{s.2.1.1.number}[{s.2.1.2}]"
  have hnames (i : Nat) : ((t.renumber labels).merge.wires[i]?).map (fun w => w.label path) =
      (t.wires[i]?).map fun w => w.label path :=
    (hagree.comp label).getElem? i
  have hagain : (t.renumber labels).merge.renumber labels = (t.renumber labels).merge := by
    have hsame := renumber_map_net (t.renumber labels).merge
    rwa [map_net_merge_renumber hlength] at hsame
  have hlabels : liftM (Except.ok labels : Except Fault (List Nat)) = (pure labels : Noted α (List Nat)) :=
    rfl
  unfold canonicalize
  rw [haliases, h]
  simp only [hlabels, Noted.pure_bind, hnames, hagain, merge_merge]

/-- Canonicalizing is idempotent: a second time gives the same number of nets and the same table, wire by
wire, and notes the same. Numbers are found again when every element points at the first one of its class. -/
theorem canonicalize_idempotent {pointers : List (Option Int)} (h : PointsInside pointers) :
    ∃ closed labels, resolveAliases pointers = (closed, .ok labels) ∧
      resolveAliases (pointToFirsts labels) = ([], .ok labels) ∧
      ∀ (t : WireTable α) (path : Nat → String), t.wires.map (·.aliasOf) = pointers →
        ∃ notes count u, t.canonicalize path = ⟨notes, .ok (count, u)⟩ ∧
          u.wires.map (·.net) = labels ∧ u.canonicalize path = ⟨notes, .ok (count, u)⟩ := by
  obtain ⟨closed, labels, hresolve, hlength, _⟩ := resolveAliases_eq h
  refine ⟨closed, labels, hresolve, resolveAliases_pointToFirsts (congrArg Prod.snd hresolve), ?_⟩
  rintro t path rfl
  rw [List.length_map] at hlength
  obtain ⟨notes, hcanonical, _⟩ := canonicalize_eq hresolve path
  exact ⟨notes, _, _, hcanonical, map_net_merge_renumber hlength,
    (canonicalize_merge_renumber hresolve path).trans hcanonical⟩

/-- Two elements that point at one another, one that leads into them, and one by itself. -/
theorem canonicalize_idempotent_loop : PointsInside [some 1, some 0, some 1, none] ∧
    resolveAliases [some 1, some 0, some 1, none] = ([1], .ok [0, 0, 0, 1]) ∧
      resolveAliases [none, some 0, some 0, none] = ([], .ok [0, 0, 0, 1]) ∧
      ∀ (t : WireTable ℚ) (path : Nat → String),
        t.wires.map (·.aliasOf) = [some 1, some 0, some 1, none] →
        ∃ notes count u, t.canonicalize path = ⟨notes, .ok (count, u)⟩ ∧
          u.wires.map (·.net) = [0, 0, 0, 1] ∧ u.canonicalize path = ⟨notes, .ok (count, u)⟩ := by
  have hinside : PointsInside [some 1, some 0, some 1, none] := by
    intro i target h
    match i with
    | 0 | 1 | 2 =>
      cases h
      exact ⟨_, rfl⟩
    | 3 => cases h
    | i + 4 => cases h
  have hnumbers : resolveAliases [some 1, some 0, some 1, none] = ([1], .ok [0, 0, 0, 1]) := rfl
  obtain ⟨closed, labels, hresolve, hagain, hmerged⟩ := canonicalize_idempotent (α := ℚ) hinside
  cases hnumbers.symm.trans hresolve
  exact ⟨hinside, hnumbers, hagain, hmerged⟩

end WireTable

end Transcription
