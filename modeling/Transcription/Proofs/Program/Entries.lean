import Transcription.Proofs.Network.Burdens
import Transcription.Proofs.Network.Sinks
import Transcription.Proofs.Program.Completion

namespace Transcription

namespace Network

section Grids

variable {α : Type} [Scalar α] {n : Network α} {live : List PhaseSet} {steps stages : Nat} {g : Grid α}
  {e : Entry α}

theorem Expands.getElem?_majors (h : n.Expands live steps stages g) {k : Nat}
    (he : g.majors[k]? = some e) :
    (liveSlots live steps)[k]? = some (e.step, e.net) ∧ g.labels[k]? = some e.index := by
  rw [← h.slots_eq, ← h.entries_eq, ← h.indices_eq, List.getElem?_map, List.getElem?_map]
  change g.majors[k]?.map _ = _ ∧ g.majors[k]?.map _ = _
  rw [he]
  exact ⟨rfl, rfl⟩

theorem Expands.index?_major (h : n.Expands live steps stages g) (he : e ∈ g.majors) :
    g.index? e.net e.step = some e.index ∧ e.index < g.majorCount := by
  obtain ⟨k, hk⟩ := List.mem_iff_getElem?.mp he
  obtain ⟨hslot, hlabel⟩ := h.getElem?_majors hk
  exact ⟨h.index?_eq_some.mpr ⟨k, hslot, hlabel⟩, h.labels_lt (List.mem_of_getElem? hlabel)⟩

theorem Expands.liveAt_major (h : n.Expands live steps stages g) (he : e ∈ g.majors) :
    LiveAt live steps e.step e.net := h.liveAt (h.index?_major he).1

theorem Expands.exists_major (h : n.Expands live steps stages g) {t net : Nat}
    (hl : LiveAt live steps t net) : ∃ e ∈ g.majors, e.step = t ∧ e.net = net := by
  have hmem := mem_liveSlots.mpr hl
  rw [← h.slots_eq, ← h.entries_eq] at hmem
  obtain ⟨e, he, hslot⟩ := List.mem_map.mp hmem
  exact ⟨e, he, (Prod.mk.inj hslot).1, (Prod.mk.inj hslot).2⟩

/-- The reading of a net at a step is the variable of its entry there. -/
theorem Expands.reading_major (h : n.Expands live steps stages g) {z : List α}
    (hz : z.length = g.size) (he : e ∈ g.majors) :
    g.reading z e.step e.net = some (System.point z e.index) := by
  obtain ⟨hindex, hlt⟩ := h.index?_major he
  have hsize : e.index < z.length := by
    rw [hz]
    exact Nat.lt_of_lt_of_le hlt (Nat.le_add_right _ _)
  rw [Grid.reading, hindex, Option.bind_some, List.getElem?_eq_getElem hsize]
  simp [System.point, hsize]

/-- What leads into a sink is live wherever the sink is switched on. -/
theorem Laid.liveAt_sink {minor : Bool} (h : n.Laid (n.liveness minor) steps stages g) {k : Nat}
    {b : TracedBlock α} (hb : n.block? k = some b) (hk : b.kind.isSink = true) {i : Nat}
    (hi : i ∈ b.inputs) {t : Nat} (h₁ : 1 ≤ t) (ht : t ≤ steps)
    (hp : b.sinkPhases.meets (stepPhases t steps) = true) :
    LiveAt (n.liveness minor) steps t (n.wires.netOf i) := by
  have hinside (j : Nat) (hj : j ∈ b.inputs) : n.wires.netOf j < n.wires.netCount :=
    h.netted.netOf_lt hb (List.mem_append_left _ hj)
  obtain ⟨p, hphase, hstep⟩ := (PhaseSet.meets_iff _ _).mp hp
  exact ⟨h₁, ht, p, Liveness.live_sink hb hinside hk hi p hphase, hstep⟩

end Grids

end Network

/-- What merges out of a diagram has all of its sinks, and on its nets exactly what they put there. -/
theorem Run.burdens_merged {α : Type} [LinearOrder α] [ExactScalar α] {d : Diagram} {hold : Hold}
    {steps count : Nat} {dt : α} {tableau : Option (Tableau α)} {n : Network α}
    (hmerged : (ofDiagram (.full steps dt hold tableau) d).merged = some (count, n)) :
    n.diagram = d.prepared ∧ n.Linked ∧ n.SinksTraced ∧ n.NetsBurdened := by
  obtain ⟨n₀, ht, hm⟩ := merged_eq_some hmerged
  obtain ⟨hnetted, hdiagram, _⟩ := Network.netted_mergeWires (d := d.prepared) ht hm
  exact ⟨hdiagram, hnetted.toLinked, Network.sinksTraced_mergeWires (d := d.prepared) ht hm,
    Network.netsBurdened_mergeWires (d := d.prepared) ht hm⟩

end Transcription
