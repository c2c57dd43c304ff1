import Transcription.Proofs.Program.Listing

namespace Transcription.Network

variable {α : Type}

section Outputs

variable [Scalar α]

theorem map_outlets (n : Network α) :
    n.outlets.map (fun o => n.wires.netOf o.wire) = n.leaving [.primitive] := by
  rw [outlets, leaving, flatMap_filter_ite, List.map_flatMap]
  refine List.flatMap_congr fun b _ => ?_
  by_cases hk : b.kind = .primitive
  · have houtputs : (outletsOf b).map Outlet.wire = b.outputs := by
      rw [outletsOf, List.map_map]
      exact List.zipIdx_map_fst 0 b.outputs
    rw [if_pos hk, if_pos (List.contains_iff_mem.mpr (List.mem_singleton.mpr hk)), ← houtputs,
      List.map_map]
    rfl
  · rw [if_neg hk, if_neg fun h => hk (List.mem_singleton.mp (List.contains_iff_mem.mp h))]
    rfl

def keptOutlets (n : Network α) (keep : List Bool) : List (Outlet α) :=
  n.outlets.filter fun o => keep.getD (n.wires.netOf o.wire) false

theorem map_keptOutlets (n : Network α) (keep : List Bool) :
    (n.keptOutlets keep).map (fun o => n.wires.netOf o.wire) =
      (n.leaving [.primitive]).filter fun net => keep.getD net false := by
  rw [← map_outlets, List.filter_map]
  rfl

variable {n : Network α}

theorem map_heldOutputs (n : Network α) (g : Grid α) : (n.heldOutputs g).map Held.net =
    (n.leaving heldKinds).filter (g.minorNets.contains ·) := by
  have hkinds : (n.blocks.blocks.filter fun b => b.kind.isBoundary || b.kind = .delay) =
      n.blocks.blocks.filter fun b => heldKinds.contains b.kind := by
    refine List.filter_congr fun b _ => ?_
    cases b.kind <;> rfl
  rw [heldOutputs, leaving, hkinds]
  generalize (n.blocks.blocks.filter fun b => heldKinds.contains b.kind) = bs
  have hnets : (bs.flatMap fun b => b.outputs.map (n.heldOutput b)).map Held.net =
      bs.flatMap fun b => b.outputs.map n.wires.netOf := by
    rw [List.map_flatMap]
    refine List.flatMap_congr fun b _ => ?_
    rw [List.map_map]
    rfl
  rw [← hnets, List.filter_map]
  rfl

omit [Scalar α] in
/-- Nets that differ are all added. -/
theorem foldl_addNet {hs found : List (Held α)} (h : ((found ++ hs).map Held.net).Nodup) :
    hs.foldl addNet found = found ++ hs := by
  induction hs generalizing found with
  | nil => rw [List.foldl_nil, List.append_nil]
  | cons e hs ih =>
    have hnew : found.any (fun f => f.net = e.net) = false := by
      rw [List.map_append, List.nodup_append] at h
      refine List.any_eq_false.mpr fun f hf heq => ?_
      exact h.2.2 _ (List.mem_map_of_mem hf) _ (List.mem_map_of_mem List.mem_cons_self)
        (of_decide_eq_true heq)
    have hadd : addNet found e = found ++ [e] := by
      rw [addNet, hnew]
      rfl
    rw [List.foldl_cons, hadd, ih (by rwa [List.append_assoc]), List.append_assoc]
    rfl

/-- The nets that are held leave inputs from outside and delays. -/
theorem perm_heldBy (g : Grid α) (h : (n.leaving heldKinds).Nodup) :
    (n.heldBy g .firstOrder ++ n.heldBy g .zeroOrder).Perm
      ((n.leaving heldKinds).filter (g.minorNets.contains ·)) := by
  have hnodup : ((n.heldOutputs g).map Held.net).Nodup := by
    rw [map_heldOutputs]
    exact h.filter _
  have hall : n.heldNets g = n.heldOutputs g := by
    rw [heldNets_eq, foldl_addNet (by rwa [List.nil_append]), List.nil_append]
  have hzero : ((n.heldNets g).filter fun h => h.hold = .zeroOrder) =
      (n.heldNets g).filter fun h => !decide (h.hold = .firstOrder) := by
    refine List.filter_congr fun h _ => ?_
    cases h.hold <;> rfl
  rw [heldBy, heldBy, hzero, ← List.map_append, ← map_heldOutputs, ← hall]
  exact (List.filter_append_perm _ _).map _

end Outputs

section Stages

variable [LinearOrder α] [ExactScalar α] {n : Network α} {live : List PhaseSet} {steps stages : Nat}
  {g : Grid α}

/-- The nets that leave blocks of all kinds, each once. -/
theorem nodup_leavingAll (h : n.Linked) (hs : n.SingleSourced) :
    (n.leaving [.primitive] ++ n.leaving [.integrator] ++ n.leaving heldKinds).Nodup := by
  have hdisjoint {kinds kinds' : List BlockKind} (hk : ∀ k ∈ kinds, k.isReroute = false)
      (hk' : ∀ k ∈ kinds', k.isReroute = false) (hne : ∀ k ∈ kinds, k ∉ kinds') {net : Nat}
      (hnet : net ∈ n.leaving kinds) : net ∉ n.leaving kinds' := fun hnet' => by
    obtain ⟨k, hmem, hmem'⟩ := h.kind_unique hs hk hk' hnet hnet'
    exact hne k hmem hmem'
  have hp : ∀ k ∈ [BlockKind.primitive], k.isReroute = false := by decide
  have hi : ∀ k ∈ [BlockKind.integrator], k.isReroute = false := by decide
  have hh : ∀ k ∈ heldKinds, k.isReroute = false := by decide
  refine ((h.nodup_leaving hs hp).append (h.nodup_leaving hs hi) ?_).append (h.nodup_leaving hs hh) ?_
  · intro net hnet
    exact hdisjoint hp hi (by decide) hnet
  · intro net hnet
    rcases List.mem_append.mp hnet with hnet | hnet
    · exact hdisjoint hp hh (by decide) hnet
    · exact hdisjoint hi hh (by decide) hnet

/-- The nets of the stages are those that leave primitives, integrators and blocks that hold them. -/
theorem OnStages.perm_minorNets (h : n.OnStages live steps stages g) (hi : n.Issued)
    (hsource : ∀ net < n.wires.netCount, ∃ i, n.Sources net i) :
    ((n.leaving [.primitive]).filter (g.minorNets.contains ·) ++
      (n.leaving [.integrator]).filter (g.minorNets.contains ·) ++
        (n.leaving heldKinds).filter (g.minorNets.contains ·)).Perm g.minorNets := by
  have hnodup := nodup_leavingAll h.wired.toLinked h.single
  rw [← List.filter_append, ← List.filter_append]
  refine (List.perm_ext_iff_of_nodup (hnodup.filter _) ?_).mpr fun net => ?_
  · rw [h.minorNets_eq]
    exact nodup_marked _
  rw [List.mem_filter, List.contains_iff_mem, and_iff_right_iff_imp]
  intro hnet
  obtain ⟨i, hi'⟩ := hsource net (by
    rw [← h.count]
    exact lt_length_of_has (h.mem_minorNets.mp hnet))
  rw [List.mem_append, List.mem_append, or_assoc]
  exact h.wired.toLinked.leaves hi hi'

end Stages

end Transcription.Network
