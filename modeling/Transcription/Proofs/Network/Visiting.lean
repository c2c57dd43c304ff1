import Transcription.Proofs.Network.Reach

namespace Transcription

namespace Frontier

variable {β : Type} [BEq β] [LawfulBEq β] {f : Frontier β} {x y : β} {xs : List β}

theorem offer_cases (f : Frontier β) (y : β) :
    (y ∈ f.fresh ∧ f.offer y = ⟨f.fresh.erase y, f.queue ++ [y]⟩) ∨ (y ∉ f.fresh ∧ f.offer y = f) := by
  unfold offer
  by_cases hy : y ∈ f.fresh
  · exact .inl ⟨hy, if_pos (by simpa using hy)⟩
  · exact .inr ⟨hy, if_neg (by simpa using hy)⟩

theorem mem_queue_offerAll_of_mem (h : x ∈ f.queue) : x ∈ (f.offerAll xs).queue := by
  induction xs generalizing f with
  | nil => exact h
  | cons y ys ih =>
    apply ih
    rcases f.offer_cases y with ⟨_, he⟩ | ⟨_, he⟩
    · rw [he]
      exact List.mem_append_left _ h
    · rw [he]
      exact h

/-- Only what is offered is queued. -/
theorem mem_queue_offerAll (h : x ∈ (f.offerAll xs).queue) : x ∈ f.queue ∨ x ∈ xs := by
  induction xs generalizing f with
  | nil => exact .inl h
  | cons y ys ih =>
    rcases ih h with h | h
    · rcases f.offer_cases y with ⟨_, he⟩ | ⟨_, he⟩
      · rw [he] at h
        rcases List.mem_append.mp h with h | h
        · exact .inl h
        · exact .inr (List.mem_singleton.mp h ▸ List.mem_cons_self)
      · rw [he] at h
        exact .inl h
    · exact .inr (List.mem_cons_of_mem _ h)

/-- What is fresh stays so until it is queued. -/
theorem mem_offerAll_of_fresh (xs : List β) (h : x ∈ f.fresh) :
    x ∈ (f.offerAll xs).fresh ∨ x ∈ (f.offerAll xs).queue := by
  induction xs generalizing f with
  | nil => exact .inl h
  | cons y ys ih =>
    rcases f.offer_cases y with ⟨_, he⟩ | ⟨_, he⟩
    · by_cases hxy : x = y
      · refine .inr (mem_queue_offerAll_of_mem (f := f.offer y) ?_)
        rw [he, hxy]
        exact List.mem_append_right _ (List.mem_singleton.mpr rfl)
      · apply ih
        rw [he]
        exact (List.mem_erase_of_ne hxy).mpr h
    · apply ih
      rw [he]
      exact h

/-- What is offered is queued, unless it was asked for before. -/
theorem queued_offerAll (h : x ∈ xs) : x ∈ (f.offerAll xs).queue ∨ x ∉ f.fresh := by
  induction xs generalizing f with
  | nil => cases h
  | cons y ys ih =>
    by_cases hfresh : x ∈ f.fresh
    · refine .inl ?_
      rcases List.mem_cons.mp h with rfl | hys
      · rcases f.offer_cases x with ⟨_, he⟩ | ⟨hx, _⟩
        · refine mem_queue_offerAll_of_mem (f := f.offer x) ?_
          rw [he]
          exact List.mem_append_right _ (List.mem_singleton.mpr rfl)
        · exact absurd hfresh hx
      · rcases ih (f := f.offer y) hys with hq | hq
        · exact hq
        · rcases mem_offerAll_of_fresh [y] hfresh with hx | hx
          · exact absurd hx hq
          · exact mem_queue_offerAll_of_mem (f := f.offer y) hx
    · exact .inr hfresh

omit [LawfulBEq β] in
theorem queue_settleAll (f : Frontier β) (xs : List β) : (f.settleAll xs).queue = f.queue := by
  induction xs generalizing f with
  | nil => rfl
  | cons y ys ih => exact ih (f.settle y)

theorem mem_settleAll_of_fresh (xs : List β) (h : x ∈ f.fresh) :
    x ∈ (f.settleAll xs).fresh ∨ x ∈ xs := by
  induction xs generalizing f with
  | nil => exact .inl h
  | cons y ys ih =>
    by_cases hxy : x = y
    · exact .inr (hxy ▸ List.mem_cons_self)
    · have hsettle : x ∈ (f.settle y).fresh := (List.mem_erase_of_ne hxy).mpr h
      exact (ih hsettle).imp_right (List.mem_cons_of_mem _)

/-- Offering queues what was fresh, and nothing is fresh that was not. -/
theorem mem_of_mem_offerAll (h : x ∈ (f.offerAll xs).fresh ∨ x ∈ (f.offerAll xs).queue) :
    x ∈ f.fresh ∨ x ∈ f.queue := by
  induction xs generalizing f with
  | nil => exact h
  | cons y ys ih =>
    have h := ih h
    rcases f.offer_cases y with ⟨hy, he⟩ | ⟨_, he⟩
    · rw [he] at h
      rcases h with h | h
      · exact .inl (List.mem_of_mem_erase h)
      · rcases List.mem_append.mp h with h | h
        · exact .inr h
        · exact .inl (List.mem_singleton.mp h ▸ hy)
    · rwa [he] at h

omit [LawfulBEq β] in
theorem mem_of_mem_settleAll (h : x ∈ (f.settleAll xs).fresh) : x ∈ f.fresh := by
  induction xs generalizing f with
  | nil => exact h
  | cons y ys ih => exact List.mem_of_mem_erase (ih h)

end Frontier

variable {α : Type} [Scalar α]

namespace Search

variable {d : Diagram} {hold : Hold} {s : Search α} {p : Port} {v : Visit α}

def Registers (s : Search α) (p : Port) : Prop := (s.wires.first? p).isSome = true

theorem isSome_addPort {t : WireTable α} {block : Nat} {width : Int} {q : Port} :
    ((t.addPort block p width).2.first? q).isSome = true ↔ q = p ∨ (t.first? q).isSome = true := by
  constructor
  · intro h
    obtain ⟨start, hstart⟩ := Option.isSome_iff_exists.mp h
    rcases WireTable.first?_addPort_cases hstart with hq | hq
    · exact .inr (Option.isSome_of_eq_some hq)
    · exact .inl hq
  · rintro (rfl | h)
    · exact Option.isSome_of_eq_some (t.first?_addPort block q width)
    · obtain ⟨start, hstart⟩ := Option.isSome_iff_exists.mp h
      exact Option.isSome_of_eq_some (WireTable.first?_addPort_of_some hstart block p width)

theorem isSome_registerAll {i : Nat} {t u : WireTable α} {ports : List Port}
    (h : registerAll d i t ports = .ok u) {q : Port} :
    (u.first? q).isSome = true ↔ q ∈ ports ∨ (t.first? q).isSome = true := by
  unfold registerAll at h
  induction ports generalizing t with
  | nil =>
    cases h
    simp
  | cons p ports ih =>
    rw [List.foldlM_cons] at h
    obtain ⟨u', hu', h⟩ := except_bind_eq_ok.mp h
    obtain ⟨width, _, hu'⟩ := except_bind_eq_ok.mp hu'
    cases hu'
    rw [ih h, isSome_addPort, List.mem_cons]
    tauto

structure Visited (d : Diagram) (p : Port) (s : Search α) (v : Visit α) : Prop where
  sound : v.search.Sound d
  kept : ∀ q, s.Registers q → v.search.Registers q
  registers : ∀ q, v.search.Registers q → s.Registers q ∨ (q = p ∧ d.reroutes p = true) ∨
    (d.reroutes p = false ∧ p.block ∉ s.blocks.blocks.map (·.source) ∧ q ∈ d.outports p.block)
  known : ∀ b ∈ s.blocks.blocks, b ∈ v.search.blocks.blocks
  owner : p.block ∈ v.search.blocks.blocks.map (·.source)
  opened : ∀ b ∈ v.search.blocks.blocks, b ∈ s.blocks.blocks ∨ (b.source = p.block ∧
    (b.kind.isReroute = false → (∀ q ∈ d.outports p.block, v.search.Registers q) ∧
      (b.kind.isBoundary = false →
        ∀ q ∈ d.inports p.block, ∃ r, d.source? q = some r ∧ r ∈ v.next)))
  settled : ∀ q ∈ v.settled, v.search.Registers q
  routed : d.reroutes p = true →
    v.search.Registers p ∧ ∃ taps, d.route p = .ok taps ∧ v.next = taps.map (·.1)
  next : d.reroutes p = false → ∀ r ∈ v.next, (BlockKind.of (d.block p.block)).isBoundary = false ∧
    ∃ q ∈ d.inports p.block, d.source? q = some r

theorem visitBlock_eq_ok {i : Nat} {b : TracedBlock α} (hv : s.visitBlock d i b = .ok v) :
    ∃ u next, registerAll d i s.wires (d.outports b.source) = .ok u ∧
      (b.kind.isBoundary = true → next = []) ∧
      (b.kind.isBoundary = false → d.drivers b.source = .ok next) ∧
      v = ⟨{ s with wires := u }, d.outports b.source, next⟩ := by
  unfold visitBlock at hv
  obtain ⟨u, hu, hv⟩ := except_bind_eq_ok.mp hv
  split at hv
  all_goals
    rename_i hb
    obtain ⟨next, hnext, hv⟩ := except_bind_eq_ok.mp hv
    cases hv
    refine ⟨u, next, hu, fun hb' => ?_, fun hb' => ?_, rfl⟩
  · exact (except_pure_eq_ok.mp hnext).symm
  · exact absurd (hb.symm.trans hb') (by decide)
  · exact absurd hb' hb
  · exact hnext

theorem visited_reroute {i : Nat} {b : TracedBlock α} (hs : s.Sound d)
    (hb : s.blocks.blocks[i]? = some b) (hsource : b.source = p.block) (hr : d.reroutes p = true)
    (hv : s.visitReroute d i p = .ok v) : Visited d p s v := by
  have hsound := hs.visitReroute hb hsource hr hv
  unfold visitReroute at hv
  obtain ⟨width, _, hv⟩ := except_bind_eq_ok.mp hv
  obtain ⟨taps, htaps, hv⟩ := except_bind_eq_ok.mp hv
  cases hv
  exact {
    sound := hsound
    kept := fun q hq => isSome_addPort.mpr (.inr hq)
    registers := fun q hq => (isSome_addPort.mp hq).elim (fun hq => .inr (.inl ⟨hq, hr⟩)) .inl
    known := fun b hb => hb
    owner := hsource ▸ List.mem_map_of_mem (List.mem_of_getElem? hb)
    opened := fun b hb => .inl hb
    settled := List.forall_mem_nil _
    routed := fun _ => ⟨isSome_addPort.mpr (.inl rfl), taps, htaps, rfl⟩
    next := fun hr' => absurd (hr.symm.trans hr') (by decide) }

/-- A visit to an outport of a block that was come to before, and reroutes nothing, does nothing. -/
theorem visited_known {b : TracedBlock α} (hs : s.Sound d) (hb : b ∈ s.blocks.blocks)
    (hsource : b.source = p.block) (hr : d.reroutes p = false) : Visited d p s ⟨s, [], []⟩ where
  sound := hs
  kept _ hq := hq
  registers _ hq := .inl hq
  known _ hc := hc
  owner := hsource ▸ List.mem_map_of_mem hb
  opened _ hc := .inl hc
  settled := List.forall_mem_nil _
  routed hr' := absurd (hr'.symm.trans hr) (by decide)
  next _ := List.forall_mem_nil _

/-- The first visit to an outport of a block that reroutes nothing. -/
theorem visited_block {b : TracedBlock α} (hs : s.Sound d)
    (hnew : p.block ∉ s.blocks.blocks.map (·.source))
    (hrecord : (d.record hold p.block).result = .ok b) (hr : b.kind.isReroute = false)
    (hv : ({ s with blocks := s.blocks.push b } : Search α).visitBlock d s.blocks.size b = .ok v) :
    Visited d p s v := by
  obtain ⟨hsource, hkind⟩ := Diagram.record_eq hrecord
  have hpush := hs.push (b := b) (by rw [hsource]; exact hrecord) (by rw [hsource]; exact hnew)
  have hsound := hpush.visitBlock List.getElem?_concat_length hr hv
  have hreroutes : d.reroutes p = false := by rw [Diagram.reroutes, ← hkind, hr]
  obtain ⟨u, next, hu, hnone, hdrivers, rfl⟩ := visitBlock_eq_ok hv
  rw [hsource] at hu hdrivers hsound ⊢
  have hall : ∀ q ∈ d.outports p.block, (u.first? q).isSome = true :=
    fun q hq => (isSome_registerAll hu).mpr (.inl hq)
  have hlast : b ∈ (s.blocks.push b).blocks :=
    List.mem_append_right _ (List.mem_singleton.mpr rfl)
  exact {
    sound := hsound
    kept := fun q hq => (isSome_registerAll hu).mpr (.inr hq)
    registers := fun q hq => ((isSome_registerAll hu).mp hq).elim
      (fun hq => .inr (.inr ⟨hreroutes, hnew, hq⟩)) .inl
    known := fun c hc => List.mem_append_left _ hc
    owner := hsource ▸ List.mem_map_of_mem hlast
    opened := by
      intro c hc
      rcases List.mem_append.mp hc with hc | hc
      · exact .inl hc
      · obtain rfl := List.mem_singleton.mp hc
        refine .inr ⟨hsource, fun _ => ⟨hall, fun hb q hq => ?_⟩⟩
        obtain ⟨r, hmem, hdriver⟩ := except_mapM_of_mem (hdrivers hb) hq
        exact ⟨r, Diagram.driver_eq_ok.mp hdriver, hmem⟩
    settled := hall
    routed := fun hr' => absurd (hr'.symm.trans hreroutes) (by decide)
    next := by
      intro _ r hmem
      cases hb : b.kind.isBoundary with
      | true =>
        rw [hnone hb] at hmem
        cases hmem
      | false =>
        obtain ⟨q, hq, hdriver⟩ := except_mapM_mem (hdrivers hb) hmem
        exact ⟨hkind ▸ hb, q, hq, Diagram.driver_eq_ok.mp hdriver⟩ }

theorem visited (hs : s.Sound d) (hv : (s.visit d hold p).result = .ok v) : Visited d p s v := by
  unfold visit at hv
  split at hv
  · rename_i i b hfind
    obtain ⟨hb, hsource⟩ := BlockTable.find?_eq_some hfind
    have hkind : d.reroutes p = b.kind.isReroute := by
      rw [Diagram.reroutes, ← hsource, hs.kinds b (List.mem_of_getElem? hb)]
    split at hv
    · rename_i hr
      exact visited_reroute hs hb hsource (hkind.trans hr) hv
    · rename_i hr
      cases hv
      exact visited_known hs (List.mem_of_getElem? hb) hsource
        (hkind.trans (Bool.eq_false_iff.mpr hr))
  · rename_i hfind
    have hnew := BlockTable.find?_eq_none hfind
    obtain ⟨b, hrecord, hv⟩ := Noted.result_bind.mp hv
    obtain ⟨hsource, hkind⟩ := Diagram.record_eq hrecord
    simp only at hv
    split at hv
    · -- the visit starts from a search in which the block is recorded
      rename_i hr
      have hpush := hs.push (b := b) (by rw [hsource]; exact hrecord) (by rw [hsource]; exact hnew)
      have hreroutes : d.reroutes p = true := by rw [Diagram.reroutes, ← hkind, hr]
      have hblocks := blocks_visitReroute (show _ = Except.ok v from hv)
      have hvisited := visited_reroute hpush List.getElem?_concat_length hsource hreroutes hv
      exact { hvisited with
        registers := fun q hq => (hvisited.registers q hq).imp_right fun h =>
          h.imp_right fun hplain => absurd (hplain.1.symm.trans hreroutes) (by decide)
        known := fun c hc => hvisited.known c (List.mem_append_left _ hc)
        opened := by
          intro c hc
          rw [hblocks] at hc
          rcases List.mem_append.mp hc with hc | hc
          · exact .inl hc
          · obtain rfl := List.mem_singleton.mp hc
            exact .inr ⟨hsource, fun hr' => absurd (hr.symm.trans hr') (by decide)⟩ }
    · rename_i hr
      exact visited_block hs hnew hrecord (Bool.eq_false_iff.mpr hr) hv

/-- What every visit keeps, a run keeps to the end of its queue. -/
theorem exists_end {P : Frontier Port → Search α → Prop}
    (hvisit : ∀ {f s p rest v}, f.queue = p :: rest → s.Sound d → P f s → Visited d p s v →
      P (advance f rest v) v.search)
    {f : Frontier Port} {s' : Search α} (hs : s.Sound d) (h : P f s)
    (hr : (run d hold f s).result = .ok s') : ∃ f', f'.queue = [] ∧ P f' s' := by
  fun_induction Search.run d hold f s with
  | case1 f s hq =>
    cases hr
    exact ⟨f, hq, h⟩
  | case2 f s p rest hq ih =>
    obtain ⟨v, hv, hr⟩ := Noted.result_bind.mp hr
    have hvisited := visited hs hv
    exact ih v hvisited.sound (hvisit hq hs h hvisited) hr

/-- What recording a sink and asking for its drivers keeps, recording all of them keeps. -/
theorem start_keeps {P : BlockTable α → Frontier Port → Prop} {is : List Nat}
    (hrecord : ∀ {t f b ps}, ∀ i ∈ is, (d.record hold i).result = .ok b → d.drivers i = .ok ps →
      P t f → P (t.push b) (f.offerAll ps))
    {t : BlockTable α} {f : Frontier Port} {r : BlockTable α × Frontier Port} (h : P t f)
    (hr : (start d hold is t f).result = .ok r) : P r.1 r.2 := by
  induction is generalizing t f with
  | nil =>
    cases hr
    exact h
  | cons i is ih =>
    obtain ⟨b, hb, hr⟩ := Noted.result_bind.mp hr
    obtain ⟨ps, hps, hr⟩ := Noted.result_bind.mp hr
    refine ih (fun j hj => hrecord j (List.mem_cons_of_mem i hj)) ?_ hr
    exact hrecord i List.mem_cons_self hb hps h

structure Within (d : Diagram) (f : Frontier Port) (s : Search α) : Prop where
  asked : ∀ p, p ∈ f.fresh ∨ p ∈ f.queue → p ∈ d.allOutports
  registered : ∀ p, s.Registers p → p ∈ d.allOutports
  owned : ∀ p, s.Registers p → p.block ∈ s.blocks.blocks.map (·.source)

theorem mem_of_mem_advance {f : Frontier Port} {rest : List Port} {q : Port}
    (hq : f.queue = p :: rest)
    (h : q ∈ (advance f rest v).fresh ∨ q ∈ (advance f rest v).queue) : q ∈ f.fresh ∨ q ∈ f.queue := by
  rcases Frontier.mem_of_mem_offerAll h with h | h
  · exact .inl (Frontier.mem_of_mem_settleAll (f := { f with queue := rest }) h)
  · rw [Frontier.queue_settleAll] at h
    exact .inr (hq ▸ List.mem_cons_of_mem p h)

theorem Within.advance {f : Frontier Port} {rest : List Port} (hq : f.queue = p :: rest)
    (h : Within d f s) (hv : Visited d p s v) : Within d (advance f rest v) v.search where
  asked q hmem := h.asked q (mem_of_mem_advance hq hmem)
  registered q hmem := by
    have hp := h.asked p (.inr (hq ▸ List.mem_cons_self))
    rcases hv.registers q hmem with hmem | ⟨rfl, _⟩ | ⟨_, _, hmem⟩
    · exact h.registered q hmem
    · exact hp
    · exact Diagram.mem_allOutports_of_mem hp hmem
  owned q hmem := by
    rcases hv.registers q hmem with hmem | ⟨rfl, _⟩ | ⟨_, _, hmem⟩
    · obtain ⟨b, hb, hsource⟩ := List.mem_map.mp (h.owned q hmem)
      exact List.mem_map.mpr ⟨b, hv.known b hb, hsource⟩
    · exact hv.owner
    · rw [Diagram.mem_outports hmem]
      exact hv.owner

omit [Scalar α] in
theorem mem_sources_push {t : BlockTable α} (b : TracedBlock α) {i : Nat}
    (h : i ∈ t.blocks.map (·.source)) : i ∈ (t.push b).blocks.map (·.source) := by
  obtain ⟨c, hc, rfl⟩ := List.mem_map.mp h
  exact List.mem_map_of_mem (List.mem_append_left _ hc)

theorem Within.start {is : List Nat} {t : BlockTable α} {f : Frontier Port}
    {r : BlockTable α × Frontier Port} (h : Within d f ({ blocks := t } : Search α))
    (hr : (start d hold is t f).result = .ok r) :
    Within d r.2 ({ blocks := r.1 } : Search α) := by
  refine start_keeps (P := fun t f => Within d f ({ blocks := t } : Search α)) ?_ h hr
  intro t f b ps i _ _ _ h
  exact ⟨fun q hq => h.asked q (Frontier.mem_of_mem_offerAll hq), h.registered,
    fun q hq => mem_sources_push b (h.owned q hq)⟩

/-- The account that a search keeps where every line leaves an outport of a block that is no sink. Such
outports are fresh, queued or registered. A block that reroutes nothing has all of its outports
registered, unless it is a sink, and what drives it is queued or registered. -/
structure Covers (d : Diagram) (f : Frontier Port) (s : Search α) : Prop extends Within d f s where
  pending : ∀ p ∈ d.allOutports, p.block ∉ sinks d → p ∈ f.fresh ∨ p ∈ f.queue ∨ s.Registers p
  whole : ∀ b ∈ s.blocks.blocks, b.kind.isReroute = false → b.source ∉ sinks d →
    ∀ q ∈ d.outports b.source, s.Registers q
  driven : ∀ b ∈ s.blocks.blocks, b.kind.isReroute = false → b.kind.isBoundary = false →
    ∀ q ∈ d.inports b.source, ∃ p, d.source? q = some p ∧ (p ∈ f.queue ∨ s.Registers p)

section Advance

variable {f : Frontier Port} {rest : List Port} (hq : f.queue = p :: rest) (hc : Covers d f s)
  (hv : Visited d p s v)

include hc hv

theorem Covers.whole_visited (b : TracedBlock α) (hb : b ∈ v.search.blocks.blocks)
    (hr : b.kind.isReroute = false) (hsink : b.source ∉ sinks d) (q : Port)
    (hmem : q ∈ d.outports b.source) : v.search.Registers q := by
  rcases hv.opened b hb with hold | ⟨hsource, hnew⟩
  · exact hv.kept q (hc.whole b hold hr hsink q hmem)
  · exact (hnew hr).1 q (hsource ▸ hmem)

include hq

/-- The outport that is visited is registered then. -/
theorem Covers.done (hsink : p.block ∉ sinks d) : v.search.Registers p := by
  cases hr : d.reroutes p with
  | true => exact (hv.routed hr).1
  | false =>
    obtain ⟨b, hb, hsource⟩ := List.mem_map.mp hv.owner
    have hkind : b.kind.isReroute = false := by
      rw [hv.sound.kinds b hb, hsource]
      exact hr
    have hp := hc.asked p (.inr (hq ▸ List.mem_cons_self))
    refine hc.whole_visited hv b hb hkind (hsource ▸ hsink) p ?_
    exact hsource ▸ (Diagram.mem_allOutports.mp hp).2

/-- What was queued or registered stays so. -/
theorem Covers.kept {q : Port} (hsink : q.block ∉ sinks d) (h : q ∈ f.queue ∨ s.Registers q) :
    q ∈ (Search.advance f rest v).queue ∨ v.search.Registers q := by
  rcases h with h | h
  · rw [hq] at h
    rcases List.mem_cons.mp h with rfl | h
    · exact .inr (hc.done hq hv hsink)
    · refine .inl (Frontier.mem_queue_offerAll_of_mem ?_)
      rwa [Frontier.queue_settleAll]
  · exact .inr (hv.kept q h)

/-- What the visit asks for is queued or registered. -/
theorem Covers.offered {q : Port} (hmem : q ∈ d.allOutports) (hsink : q.block ∉ sinks d)
    (hnext : q ∈ v.next) : q ∈ (Search.advance f rest v).queue ∨ v.search.Registers q := by
  rcases Frontier.queued_offerAll (f := ({ f with queue := rest } : Frontier Port).settleAll v.settled)
    hnext with hqueued | hold
  · exact .inl hqueued
  · rcases hc.pending q hmem hsink with hfresh | hasked
    · rcases Frontier.mem_settleAll_of_fresh (f := { f with queue := rest }) v.settled hfresh
        with hfresh | hsettled
      · exact absurd hfresh hold
      · exact .inr (hv.settled q hsettled)
    · exact hc.kept hq hv hsink hasked

/-- A visit to the first outport of the queue keeps the account. -/
theorem Covers.advance (hd : d.Sourced) : Covers d (Search.advance f rest v) v.search where
  toWithin := hc.toWithin.advance hq hv
  pending q hmem hsink := by
    rcases hc.pending q hmem hsink with hfresh | hasked
    · rcases Frontier.mem_settleAll_of_fresh (f := { f with queue := rest }) v.settled hfresh
        with hfresh | hsettled
      · rcases Frontier.mem_offerAll_of_fresh v.next hfresh with hfresh | hqueued
        · exact .inl hfresh
        · exact .inr (.inl hqueued)
      · exact .inr (.inr (hv.settled q hsettled))
    · exact .inr (hc.kept hq hv hsink hasked)
  whole := hc.whole_visited hv
  driven b hb hr hboundary q hmem := by
    rcases hv.opened b hb with hold | ⟨hsource, hnew⟩
    · obtain ⟨r, hsource, hasked⟩ := hc.driven b hold hr hboundary q hmem
      have hsink := (hd.mem_of_source (Diagram.side_inports hmem) hsource).2
      exact ⟨r, hsource, hc.kept hq hv hsink hasked⟩
    · obtain ⟨r, hr, hnext⟩ := (hnew hr).2 hboundary q (hsource ▸ hmem)
      obtain ⟨hall, hsink⟩ := hd.mem_of_source (Diagram.side_inports hmem) hr
      exact ⟨r, hr, hc.offered hq hv hall hsink hnext⟩

end Advance

/-- Recording a sink and asking for what drives it keeps the account. -/
theorem Covers.hear (hd : d.Sourced) {f : Frontier Port} {t : BlockTable α}
    (hc : Covers d f ({ blocks := t } : Search α)) {i : Nat} (hi : i ∈ sinks d) {b : TracedBlock α}
    (hb : (d.record hold i).result = .ok b) {ps : List Port} (hps : d.drivers i = .ok ps) :
    Covers d (f.offerAll ps) ({ blocks := t.push b } : Search α) := by
  obtain ⟨hsource, _⟩ := Diagram.record_eq hb
  have hpushed (c : TracedBlock α) (hc : c ∈ (t.push b).blocks) : c ∈ t.blocks ∨ c = b :=
    (List.mem_append.mp hc).imp_right List.mem_singleton.mp
  have hkept {p : Port} (hp : p ∈ f.queue ∨ ({ blocks := t } : Search α).Registers p) :
      p ∈ (f.offerAll ps).queue ∨ ({ blocks := t.push b } : Search α).Registers p :=
    hp.imp_left Frontier.mem_queue_offerAll_of_mem
  exact {
    asked := fun q hq => hc.asked q (Frontier.mem_of_mem_offerAll hq)
    registered := hc.registered
    owned := fun q hq => mem_sources_push b (hc.owned q hq)
    pending := by
      intro p hp hsink
      rcases hc.pending p hp hsink with hfresh | hasked
      · rcases Frontier.mem_offerAll_of_fresh ps hfresh with hfresh | hqueued
        · exact .inl hfresh
        · exact .inr (.inl hqueued)
      · exact .inr (hkept hasked)
    whole := by
      intro c hmem hr hsink
      rcases hpushed c hmem with hmem | rfl
      · exact hc.whole c hmem hr hsink
      · exact absurd (hsource.symm ▸ hi) hsink
    driven := by
      intro c hmem hr hboundary q hq
      rcases hpushed c hmem with hmem | rfl
      · obtain ⟨r, hr, hasked⟩ := hc.driven c hmem hr hboundary q hq
        exact ⟨r, hr, hkept hasked⟩
      · obtain ⟨r, hr, hdriver⟩ := except_mapM_of_mem hps (hsource ▸ hq)
        have hdriver := Diagram.driver_eq_ok.mp hdriver
        obtain ⟨hall, hsink⟩ := hd.mem_of_source (Diagram.side_inports hq) hdriver
        refine ⟨r, hdriver, ?_⟩
        rcases Frontier.queued_offerAll (f := f) hr with hqueued | hold
        · exact .inl hqueued
        · rcases hc.pending r hall hsink with hfresh | hasked
          · exact absurd hfresh hold
          · exact hkept hasked }

theorem within_empty : Within d ⟨d.allOutports, []⟩ ({ blocks := {} } : Search α) where
  asked _ hq := hq.elim id fun hq => nomatch hq
  registered _ hq := nomatch hq
  owned _ hq := nomatch hq

theorem covers_empty : Covers d ⟨d.allOutports, []⟩ ({ blocks := {} } : Search α) where
  toWithin := within_empty
  pending _ hp _ := .inl hp
  whole := List.forall_mem_nil _
  driven := List.forall_mem_nil _

theorem within_ofDiagram (h : (ofDiagram d hold).result = .ok s) {p : Port} (hp : s.Registers p) :
    p ∈ d.allOutports ∧ p.block ∈ s.blocks.blocks.map (·.source) := by
  unfold ofDiagram at h
  obtain ⟨r, hstart, hrun⟩ := Noted.result_bind.mp h
  have hsound := sound_empty.start (nodup_sinks d) (fun _ _ => List.not_mem_nil) hstart
  obtain ⟨_, _, hwithin⟩ := exists_end (fun hq _ h hv => h.advance hq hv) hsound
    (within_empty.start hstart) hrun
  exact ⟨hwithin.registered p hp, hwithin.owned p hp⟩

/-- A search that does not fail ends with nothing left to be asked for. -/
theorem covers_ofDiagram (hd : d.Sourced) (h : (ofDiagram d hold).result = .ok s) :
    ∃ f, f.queue = [] ∧ Covers d f s := by
  unfold ofDiagram at h
  obtain ⟨r, hstart, hrun⟩ := Noted.result_bind.mp h
  have hsound := sound_empty.start (nodup_sinks d) (fun _ _ => List.not_mem_nil) hstart
  have hcovers := start_keeps (P := fun t f => Covers d f ({ blocks := t } : Search α))
    (fun i hi hb hps hc => hc.hear hd hi hb hps) covers_empty hstart
  exact exists_end (fun hq _ hc hv => hc.advance hq hv hd) hsound hcovers hrun

end Search

end Transcription
