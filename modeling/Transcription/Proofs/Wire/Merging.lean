import Transcription.Proofs.Network.Burdens
import Transcription.Proofs.Network.Routing

namespace Transcription

open Relation

namespace Limit

section Folds

variable {α : Type}

/-- Choosing one of two time and again ends at a member that comes before all others. -/
theorem foldl_before {f : Limit α → Limit α → Limit α} (before : Limit α → Limit α → Prop)
    (hrefl : ∀ l, before l l) (htrans : ∀ k l m, before k l → before l m → before k m)
    (hf : ∀ l m, (f l m = l ∧ before l m) ∨ (f l m = m ∧ before m l)) (ls : List (Limit α))
    (l : Limit α) : ls.foldl f l ∈ l :: ls ∧ ∀ m ∈ l :: ls, before (ls.foldl f l) m := by
  induction ls generalizing l with
  | nil => exact ⟨List.mem_singleton_self l, List.forall_mem_singleton.mpr (hrefl l)⟩
  | cons m ls ih =>
    obtain ⟨hmem, hall⟩ := ih (f l m)
    obtain ⟨hstart, hrest⟩ := List.forall_mem_cons.mp hall
    rw [List.foldl_cons]
    generalize ls.foldl f (f l m) = r at *
    rcases hf l m with ⟨hl, hlm⟩ | ⟨hm, hml⟩
    · rw [hl] at hmem hstart
      refine ⟨?_, List.forall_mem_cons.mpr ⟨hstart, List.forall_mem_cons.mpr
        ⟨htrans _ _ _ hstart hlm, hrest⟩⟩⟩
      rcases List.mem_cons.mp hmem with rfl | hin
      · exact List.mem_cons_self
      · exact List.mem_cons_of_mem _ (List.mem_cons_of_mem _ hin)
    · rw [hm] at hmem hstart
      exact ⟨List.mem_cons_of_mem _ hmem, List.forall_mem_cons.mpr
        ⟨htrans _ _ _ hstart hml, List.forall_mem_cons.mpr ⟨hstart, hrest⟩⟩⟩

end Folds

section Order

variable {α : Type} [LinearOrder α] [ExactScalar α]

def extended : Limit α → WithBot (WithTop α)
  | negInf => ⊥
  | finite a => ((a : WithTop α) : WithBot (WithTop α))
  | posInf => ((⊤ : WithTop α) : WithBot (WithTop α))

theorem lt_iff_extended (l m : Limit α) : l.lt m = true ↔ l.extended < m.extended := by
  cases l <;> cases m
  case finite.posInf a =>
    exact iff_of_true rfl (WithBot.coe_lt_coe.mpr (WithTop.coe_lt_top a))
  all_goals simp [Limit.lt, extended, Scalar.lt_iff]

theorem not_lt_iff_extended (l m : Limit α) : l.lt m = false ↔ m.extended ≤ l.extended := by
  rw [← not_lt, ← lt_iff_extended, Bool.not_eq_true]

def IsLargest (ls : List (Limit α)) (l : Limit α) : Prop := l ∈ ls ∧ ∀ m ∈ ls, l.lt m = false

def IsSmallest (ls : List (Limit α)) (l : Limit α) : Prop := l ∈ ls ∧ ∀ m ∈ ls, m.lt l = false

theorem isLargest_foldl {ls : List (Limit α)} (h : ls ≠ []) :
    IsLargest ls (ls.foldl Limit.max .negInf) := by
  have hchoice (l m : Limit α) :
      (l.max m = l ∧ m.extended ≤ l.extended) ∨ (l.max m = m ∧ l.extended ≤ m.extended) := by
    unfold Limit.max
    cases hlt : l.lt m with
    | false => exact .inl ⟨rfl, (not_lt_iff_extended l m).mp hlt⟩
    | true => exact .inr ⟨rfl, ((lt_iff_extended l m).mp hlt).le⟩
  obtain ⟨hmem, hall⟩ := foldl_before (fun l m => m.extended ≤ l.extended)
    (fun l => le_refl _) (fun _ _ _ h k => k.trans h) hchoice ls .negInf
  obtain ⟨_, hall⟩ := List.forall_mem_cons.mp hall
  refine ⟨?_, fun m hm => (not_lt_iff_extended _ m).mpr (hall m hm)⟩
  -- without a larger one all of them are the limit that the choice starts from
  rcases List.mem_cons.mp hmem with he | hin
  · obtain ⟨m, hm⟩ := List.exists_mem_of_ne_nil ls h
    have hle := hall m hm
    rw [he] at hle ⊢
    cases m with
    | negInf => exact hm
    | finite _ | posInf => simp [extended] at hle
  · exact hin

theorem isSmallest_foldl {ls : List (Limit α)} (h : ls ≠ []) :
    IsSmallest ls (ls.foldl Limit.min .posInf) := by
  have hchoice (l m : Limit α) :
      (l.min m = l ∧ l.extended ≤ m.extended) ∨ (l.min m = m ∧ m.extended ≤ l.extended) := by
    unfold Limit.min
    cases hlt : m.lt l with
    | false => exact .inl ⟨rfl, (not_lt_iff_extended m l).mp hlt⟩
    | true => exact .inr ⟨rfl, ((lt_iff_extended m l).mp hlt).le⟩
  obtain ⟨hmem, hall⟩ := foldl_before (fun l m => l.extended ≤ m.extended)
    (fun l => le_refl _) (fun _ _ _ h k => h.trans k) hchoice ls .posInf
  obtain ⟨_, hall⟩ := List.forall_mem_cons.mp hall
  refine ⟨?_, fun m hm => (not_lt_iff_extended m _).mpr (hall m hm)⟩
  rcases List.mem_cons.mp hmem with he | hin
  · obtain ⟨m, hm⟩ := List.exists_mem_of_ne_nil ls h
    have hle := hall m hm
    rw [he] at hle ⊢
    cases m with
    | posInf => exact hm
    | finite _ | negInf => simp [extended] at hle
  · exact hin

end Order

end Limit

namespace Partition

/-- Numbers without gaps are as many as the largest one says. -/
theorem length_eraseDups_of_dense {ls : List Nat} (h : ∀ l ∈ ls, ∀ k ≤ l, k ∈ ls) :
    ls.eraseDups.length = (ls.map (· + 1)).foldl max 0 := by
  have hmem (k : Nat) : k ∈ ls.eraseDups ↔ k ∈ List.range ((ls.map (· + 1)).foldl max 0) := by
    rw [List.mem_eraseDups, List.mem_range]
    constructor
    · exact lt_count
    · intro hk
      obtain ⟨l, hl, hle⟩ := exists_of_lt_count hk
      exact h l hl k hle
  have hperm := (List.perm_ext_iff_of_nodup (nodup_eraseDups ls) List.nodup_range).mpr hmem
  rw [hperm.length_eq, List.length_range]

end Partition

/-- Resolving numbers the elements by the first one of each class. -/
theorem exists_number_of_resolveAliases {pointers : List (Option Int)} {labels : List Nat}
    (h : (resolveAliases pointers).2 = .ok labels) : ∃ rs, labels = Partition.number rs := by
  unfold resolveAliases at h
  dsimp only at h
  generalize (followAliases ((List.range pointers.length).zip pointers)
    (Partition.discrete pointers.length)).2 = result at h
  cases result with
  | error e => cases h
  | ok p =>
    cases h
    exact ⟨_, rfl⟩

namespace WireTable

section Places

variable {α : Type} [Scalar α]

theorem filterMap_places {β : Type} (q : Nat → Bool) (xs : List β) :
    ((List.range xs.length).filter q).filterMap (fun i => xs[i]?) =
      (xs.zipIdx.filter fun e => q e.2).map Prod.fst := by
  induction xs using List.reverseRecOn with
  | nil => rfl
  | append_singleton xs x ih =>
    have hlast : (xs ++ [x])[xs.length]? = some x := by simp
    have hbefore : ((List.range xs.length).filter q).filterMap (fun i => (xs ++ [x])[i]?) =
        ((List.range xs.length).filter q).filterMap (fun i => xs[i]?) := by
      refine List.filterMap_congr fun i hi => ?_
      exact List.getElem?_append_left (List.mem_range.mp (List.mem_of_mem_filter hi))
    rw [List.length_append, List.length_singleton, List.range_succ, List.filter_append,
      List.filterMap_append, hbefore, ih, List.zipIdx_append, List.filter_append, List.map_append]
    cases hq : q xs.length <;> simp [hq]

def formerly (t u : WireTable α) (net : Nat) : List (Wire α) :=
  (u.members net).filterMap fun i => t.wires[i]?

def IsFirst (t : WireTable α) (i : Nat) : Prop :=
  i < t.size ∧ ∀ j < t.size, t.netOf j = t.netOf i → i ≤ j

theorem group_renumber {t : WireTable α} {labels : List Nat} (h : labels.length = t.size) (net : Nat) :
    (t.renumber labels).group net =
      (t.formerly (t.renumber labels).merge net).map fun w => { w with net } := by
  have hsize : (t.renumber labels).merge.size = t.wires.length := by
    simp [size, merge, renumber, h]
  have hmembers : (t.renumber labels).merge.members net =
      (List.range t.wires.length).filter fun i => (labels[i]?).getD 0 = net := by
    rw [members, hsize]
    refine List.filter_congr fun i hi => ?_
    rw [netOf_merge_renumber h (List.mem_range.mp hi)]
  have hwires : (t.renumber labels).wires =
      t.wires.zipIdx.map fun e => { e.1 with net := (labels[e.2]?).getD 0 } := by
    apply List.ext_getElem?
    intro i
    rw [getElem?_renumber h, List.getElem?_map, List.getElem?_zipIdx, Option.map_map]
    simp [Function.comp_def]
  rw [formerly, hmembers, filterMap_places, group, hwires, List.filter_map, List.map_map]
  refine List.map_congr_left fun e he => ?_
  have hnet : (labels[e.2]?).getD 0 = net := of_decide_eq_true (List.mem_filter.mp he).2
  rw [Function.comp_apply, hnet]

theorem map_net_merge_renumber {t : WireTable α} {labels : List Nat} (h : labels.length = t.size) :
    (t.renumber labels).merge.wires.map (·.net) = labels := by
  have hsnd : List.zipWith (fun (_ : Wire α) c => c) t.wires labels = labels := by
    rw [← List.map_uncurry_zip_eq_zipWith]
    exact List.map_snd_zip (Nat.le_of_eq h)
  rw [merge, List.map_map]
  exact List.map_zipWith.trans hsnd

theorem getElem?_of_merge_renumber {t : WireTable α} {labels : List Nat}
    (h : labels.length = t.size) {i : Nat} (hi : i < t.size) :
    labels[i]? = some ((t.renumber labels).merge.netOf i) := by
  have hget := List.getElem?_eq_getElem (h ▸ hi : i < labels.length)
  rw [netOf_merge_renumber h hi, hget, Option.getD_some]

/-- Labels that number the classes of wires by their first members number the nets so. -/
theorem netOf_lt_iff_of_isFirst {t : WireTable α} {rs : List Nat}
    (h : (Partition.number rs).length = t.size) {i j : Nat}
    (hi : (t.renumber (Partition.number rs)).merge.IsFirst i)
    (hj : (t.renumber (Partition.number rs)).merge.IsFirst j) :
    (t.renumber (Partition.number rs)).merge.netOf i <
      (t.renumber (Partition.number rs)).merge.netOf j ↔ i < j := by
  have hsize : (t.renumber (Partition.number rs)).merge.size = t.size := by
    simpa [size, h] using congrArg List.length (map_net_merge_renumber h)
  have hnet {i : Nat} (hi : i < t.size) := getElem?_of_merge_renumber h hi
  generalize (t.renumber (Partition.number rs)).merge = u at hi hj hsize hnet ⊢
  -- a smaller number stands before the first wire of a net, so it is that of an earlier net
  have hbefore {i j : Nat} (hi : u.IsFirst i) (hj : u.IsFirst j) (hlt : u.netOf i < u.netOf j) :
      i < j := by
    have hj' : j < t.size := hsize ▸ hj.1
    obtain ⟨f, hf, hget⟩ := Partition.exists_number_before rs (hnet hj') hlt
    have hf' : f < t.size := Nat.lt_trans hf hj'
    rw [hnet hf', Option.some_inj] at hget
    exact Nat.lt_of_le_of_lt (hi.2 f (hsize ▸ hf') hget) hf
  refine ⟨hbefore hi hj, fun hlt => ?_⟩
  rcases Nat.lt_trichotomy (u.netOf i) (u.netOf j) with hij | hij | hij
  · exact hij
  · exact absurd (hj.2 i hi.1 hij) (Nat.not_le.mpr hlt)
  · exact absurd (hbefore hj hi hij) (Nat.lt_asymm hlt)

end Places

section Exact

variable {α : Type} [LinearOrder α] [ExactScalar α]

/-- A wire with all that some wires have together: the largest of their lower limits, the smallest of
their upper ones and the sum of their own costs in every major phase, and what any of them is. -/
structure Pools (ws : List (Wire α)) (v : Wire α) : Prop where
  lower : ∀ p, Limit.IsLargest (ws.map fun w => w.lower.get p) (v.lower.get p)
  upper : ∀ p, Limit.IsSmallest (ws.map fun w => w.upper.get p) (v.upper.get p)
  cost : ∀ p, v.cost.get p = (ws.map fun w => w.rawCost.get p).sum
  state : v.state = true ↔ ∃ w ∈ ws, w.state = true
  input : v.input = true ↔ ∃ w ∈ ws, w.input = true
  external : v.external = true ↔ ∃ w ∈ ws, w.external = true

/-- The same wire before and after merging: all but its net and what it shares with the net. -/
structure Persists (w v : Wire α) : Prop where
  block_eq : v.block = w.block
  tap_eq : v.tap = w.tap
  aliasOf_eq : v.aliasOf = w.aliasOf
  rawCost_eq : v.rawCost = w.rawCost
  phases_eq : v.phases = w.phases

theorem pools_share {ws : List (Wire α)} (h : ws ≠ []) (net : Nat) (w : Wire α) :
    Pools ws (share (ws.map fun v => { v with net }) w) where
  lower p := by
    rw [Network.lower_share, List.map_map]
    exact Limit.isLargest_foldl (by simpa using h)
  upper p := by
    rw [Network.upper_share, List.map_map]
    exact Limit.isSmallest_foldl (by simpa using h)
  cost p := by
    have hcost : (share (ws.map fun v => { v with net }) w).cost.get p =
        Scalar.sum ((ws.map fun v => { v with net }).map fun v => v.rawCost.get p) := by
      cases p <;> rfl
    rw [hcost, Scalar.sum_eq, List.map_map]
    rfl
  state := by simp [share]
  input := by simp [share]
  external := by simp [share]

/-- Merging numbers the classes of connected aliases by their first wires, and gives every wire what
the wires of its class have together. -/
theorem canonicalize_pools {t : WireTable α} (h : PointsInside (t.wires.map (·.aliasOf)))
    (path : Nat → String) :
    ∃ notes u, t.canonicalize path = ⟨notes, .ok (u.netCount, u)⟩ ∧ u.size = t.size ∧
      (∀ i < t.size, ∀ j < t.size,
        u.netOf i = u.netOf j ↔ EqvGen (PointsAt (t.wires.map (·.aliasOf))) i j) ∧
      (∀ net, net < u.netCount ↔ ∃ i < t.size, u.netOf i = net) ∧
      (∀ i j, u.IsFirst i → u.IsFirst j → (u.netOf i < u.netOf j ↔ i < j)) ∧
      ∀ (i : Nat) w, t.wires[i]? = some w → ∃ v, u.wires[i]? = some v ∧ Persists w v ∧
        Pools (t.formerly u (u.netOf i)) v := by
  obtain ⟨closed, labels, hresolve, hlength, hdense, hlabels, _⟩ := resolveAliases_eq h
  obtain ⟨notes, hcanonical, _⟩ := canonicalize_eq hresolve path
  rw [List.length_map] at hlength hlabels
  have hlen : labels.length = t.size := hlength
  let u := (t.renumber labels).merge
  have hmerged : t.Merged u := merged_renumber hlen hdense
  have hsize : u.size = t.size := hmerged.agree.size_eq
  have hnet {i : Nat} (hi : i < t.size) : labels[i]? = some (u.netOf i) :=
    getElem?_of_merge_renumber hlen hi
  have hcount : labels.eraseDups.length = u.netCount := by
    rw [Partition.length_eraseDups_of_dense hdense, netCount_eq, map_net_merge_renumber hlen]
  refine ⟨notes, u, hcount ▸ hcanonical, hsize, ?_, ?_, ?_, ?_⟩
  · intro i hi j hj
    rw [← hlabels i hi j hj, hnet hi, hnet hj, Option.some_inj]
  · intro net
    constructor
    · exact hmerged.dense net
    · rintro ⟨i, hi, rfl⟩
      exact netOf_lt (hsize ▸ hi)
  · obtain ⟨rs, rfl⟩ := exists_number_of_resolveAliases (congrArg Prod.snd hresolve)
    exact fun i j => netOf_lt_iff_of_isFirst hlen
  · intro i w hw
    have hi : i < t.size := (List.getElem?_eq_some_iff.mp hw).1
    have hlabel : (labels[i]?).getD 0 = u.netOf i := by rw [hnet hi, Option.getD_some]
    have hv := getElem?_merge_renumber hlen hw
    rw [hlabel, group_renumber hlen] at hv
    have hmem : w ∈ t.formerly u (u.netOf i) := by
      refine List.mem_filterMap.mpr ⟨i, List.mem_filter.mpr ⟨?_, decide_eq_true rfl⟩, hw⟩
      exact List.mem_range.mpr (hsize ▸ hi)
    exact ⟨_, hv, ⟨rfl, rfl, rfl, rfl, rfl⟩, pools_share (List.ne_nil_of_mem hmem) _ _⟩

/-- A wire with an alias, a cycle of two wires that a third one leads into, and an alias of itself,
with limits and costs of their own. -/
def tangle : WireTable ℚ where
  wires := ([none, some 0, some 3, some 2, some 3, some 5] : List (Option Int)).zipIdx.map fun e =>
    { block := 0, port := ⟨0, .outport, 1⟩, sub := e.2, net := 0, aliasOf := e.1
      lower := .constant (.finite e.2), rawCost := .constant e.2, state := e.2 = 4 }
  firsts := [(⟨0, .outport, 1⟩, 0)]

theorem canonicalize_pools_tangle : PointsInside (tangle.wires.map (·.aliasOf)) ∧
    ∃ notes u, tangle.canonicalize (fun _ => "tangle") = ⟨notes, .ok (u.netCount, u)⟩ ∧
      u.size = tangle.size ∧
      (∀ i < tangle.size, ∀ j < tangle.size,
        u.netOf i = u.netOf j ↔ EqvGen (PointsAt (tangle.wires.map (·.aliasOf))) i j) ∧
      (∀ net, net < u.netCount ↔ ∃ i < tangle.size, u.netOf i = net) ∧
      (∀ i j, u.IsFirst i → u.IsFirst j → (u.netOf i < u.netOf j ↔ i < j)) ∧
      ∀ (i : Nat) w, tangle.wires[i]? = some w → ∃ v, u.wires[i]? = some v ∧ Persists w v ∧
        Pools (tangle.formerly u (u.netOf i)) v := by
  have hinside : PointsInside (tangle.wires.map (·.aliasOf)) := by
    intro i target h
    have hpointers : tangle.wires.map (·.aliasOf) =
        [none, some 0, some 3, some 2, some 3, some 5] := rfl
    rw [hpointers] at h ⊢
    match i with
    | 0 => cases h
    | 1 | 2 | 3 | 4 | 5 =>
      cases h
      exact ⟨_, rfl⟩
    | i + 6 => cases h
  exact ⟨hinside, canonicalize_pools hinside _⟩

end Exact

end WireTable

end Transcription
