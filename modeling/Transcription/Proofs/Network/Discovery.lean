import Transcription.Proofs.Network.Visiting

namespace Transcription

theorem Noted.result_halt {α β γ : Type} {x : Noted α β} {f : β → Noted α γ} {e : Fault}
    (h : x.result = .error e) : (x >>= f).result = .error e := by
  obtain ⟨notes, r⟩ := x
  cases h
  rfl

theorem Disconnected.next {α β γ : Type} {x : Noted α β} (h : Disconnected x.result)
    (f : β → Noted α γ) : Disconnected (x >>= f).result := by
  obtain ⟨block, broken, he⟩ := h
  exact ⟨block, broken, Noted.result_halt he⟩

theorem Noted.result_next {α β γ : Type} {x : Noted α β} {f : β → Noted α γ} {b : β}
    (h : x.result = .ok b) : (x >>= f).result = (f b).result := by rw [Noted.bind_eq h]

variable {α : Type} [Scalar α]

namespace Diagram

variable {d : Diagram} {hold : Hold}

theorem Legible.sinkPhases_eq (h : d.Legible) {i : Nat} (hi : i < d.blocks.size)
    (hkind : (BlockKind.of (d.block i)).isSink = true) : ∃ phases, d.sinkPhases i = .ok phases := by
  choose on hon using h.switches i hi hkind
  simp only [sinkPhases, MajorPhase.all, List.filterM, List.filterAuxM, hon, bind, Except.bind]
  exact ⟨_, rfl⟩

omit [Scalar α] in
theorem Legible.boundaryRecord_eq (h : d.Legible) (hold : Hold) {i : Nat}
    (hi : i < d.blocks.size) {kind : BlockKind} (hkind : BlockKind.of (d.block i) = kind)
    (hboundary : kind.isBoundary = true) :
    ∃ b : TracedBlock α, d.boundaryRecord hold i kind = .ok b := by
  obtain ⟨⟨period, offset⟩, hwindow⟩ := h.windows i hi (hkind ▸ hboundary)
  unfold boundaryRecord
  rw [hwindow]
  simp only [bind, Except.bind]
  rcases h.holds i hi (hkind ▸ hboundary) with hnone | ⟨held, hheld⟩
  · rw [hnone]
    exact ⟨_, rfl⟩
  · generalize d.param i "interpType" .none = v at hheld ⊢
    cases v with
    | none => exact ⟨_, rfl⟩
    | _ =>
      simp only [hheld]
      exact ⟨_, rfl⟩

def Refuses (α : Type) [Scalar α] (d : Diagram) (i : Nat) (e : Fault) : Prop :=
  BlockKind.of (d.block i) = .primitive ∧ (d.equations i : Except Fault (System α)) = .error e ∧
    ∀ operation, e ≠ .unsupported operation

/-- Recording a block succeeds, or it is a primitive that refuses it. -/
theorem Legible.record_cases (h : d.Legible) (hold : Hold) {i : Nat} (hi : i < d.blocks.size) :
    (∃ b, (d.record hold i : Noted α _).result = .ok b) ∨
      ∃ e, d.Refuses α i e ∧ (d.record hold i : Noted α _).result = .error e := by
  unfold record
  cases hkind : BlockKind.of (d.block i) <;> simp only
  case primitive =>
    cases he : (d.equations i : Except Fault (System α)) with
    | ok s => exact .inl ⟨_, by rw [primitiveRecord, he]; rfl⟩
    | error e =>
      by_cases hform : ∃ operation, e = .unsupported operation
      · obtain ⟨operation, rfl⟩ := hform
        exact .inl ⟨_, by rw [primitiveRecord, he]; rfl⟩
      · have hform := not_exists.mp hform
        refine .inr ⟨e, ⟨hkind, he, hform⟩, ?_⟩
        rw [primitiveRecord, he]
        split
        · contradiction
        · rename_i heq
          exact absurd (Except.error.inj heq) (hform _)
        · rename_i heq
          rw [Except.error.inj heq]
          rfl
  case input | external =>
    obtain ⟨b, hb⟩ := h.boundaryRecord_eq (α := α) hold hi hkind rfl
    exact .inl ⟨b, hb⟩
  case bound | cost =>
    obtain ⟨phases, hphases⟩ := h.sinkPhases_eq hi (by rw [hkind]; rfl)
    exact .inl ⟨_, by rw [hphases]; rfl⟩
  all_goals exact .inl ⟨_, rfl⟩

def StopsAt (α : Type) [Scalar α] {β : Type} (d : Diagram) (p : Port) (x : Except Fault β) : Prop :=
  (Disconnected x ∧ d.SeveredAt p) ∨ ∃ e, d.Refuses α p.block e ∧ x = .error e

theorem StopsAt.next {p : Port} {β γ : Type} {x : Noted α β} (h : d.StopsAt α p x.result)
    (f : β → Noted α γ) : d.StopsAt α p (x >>= f).result := by
  rcases h with ⟨hbroken, hsevered⟩ | ⟨e, hrefuses, he⟩
  · exact .inl ⟨hbroken.next f, hsevered⟩
  · exact .inr ⟨e, hrefuses, Noted.result_halt he⟩

end Diagram

namespace Search

variable {d : Diagram} {hold : Hold} {s : Search α} {p : Port}

theorem registerAll_eq (hc : d.compiled.isSome = true) (i : Nat) (ports : List Port)
    (hports : ∀ q ∈ ports, q.side = .outport) (t : WireTable α) :
    ∃ u, registerAll d i t ports = .ok u := by
  unfold registerAll
  induction ports generalizing t with
  | nil => exact ⟨t, rfl⟩
  | cons q ports ih =>
    obtain ⟨hq, hrest⟩ := List.forall_mem_cons.mp hports
    obtain ⟨width, hwidth, _⟩ := Diagram.portWidth_eq hc hq
    obtain ⟨u, hu⟩ := ih hrest (t.addPort i q width).2
    refine ⟨u, ?_⟩
    rw [List.foldlM_cons]
    simp only [bind, Except.bind, hwidth]
    exact hu

section Visits

variable (h : d.Legible) (hp : d.Reached p)

include h hp

theorem visitReroute_cases (i : Nat) (hr : d.reroutes p = true) :
    (∃ v, s.visitReroute d i p = .ok v) ∨ Disconnected (s.visitReroute d i p) ∧ d.SeveredAt p := by
  have hmem := (h.mem_of_reached hp).1
  obtain ⟨width, hwidth, _⟩ := Diagram.portWidth_eq h.compiled (Diagram.side_of_mem hmem)
  unfold visitReroute
  rcases h.resolves hmem hr with ⟨taps, htaps, _⟩ | ⟨hbroken, hsevered⟩
  · simp only [bind, Except.bind, hwidth, htaps]
    exact .inl ⟨_, rfl⟩
  · refine .inr ⟨?_, hsevered⟩
    simp only [hwidth, bind, Except.bind]
    exact hbroken.bind _

omit hp in
theorem visitBlock_cases (i : Nat) {b : TracedBlock α} (hsource : b.source = p.block)
    (hkind : b.kind = BlockKind.of (d.block p.block)) (hr : b.kind.isReroute = false) :
    (∃ v, s.visitBlock d i b = .ok v) ∨ Disconnected (s.visitBlock d i b) ∧ d.SeveredAt p := by
  have hreroutes : d.reroutes p = false := by rw [Diagram.reroutes, ← hkind, hr]
  obtain ⟨u, hu⟩ := registerAll_eq h.compiled i (d.outports b.source)
    (fun q hq => Diagram.side_outports hq) s.wires
  unfold visitBlock
  simp only [bind, Except.bind, hu]
  cases hboundary : b.kind.isBoundary with
  | true => exact .inl ⟨_, rfl⟩
  | false =>
    rcases d.drivers_cases b.source with ⟨ps, hps, _⟩ | ⟨hbroken, q, hq, hnone⟩
    · simp only [hps]
      exact .inl ⟨_, rfl⟩
    · refine .inr ⟨hbroken.bind _, .inr ⟨q, ?_, hnone⟩⟩
      exact (Diagram.follows_iff hreroutes).mpr ⟨hkind ▸ hboundary, hsource ▸ hq⟩

/-- A visit to an outport that is reached succeeds, or stops there. -/
theorem visit_cases (hold : Hold) (hs : s.Sound d) :
    (∃ v, (s.visit d hold p).result = .ok v) ∨ d.StopsAt α p (s.visit d hold p).result := by
  have hall := (h.mem_of_reached hp).1
  unfold visit
  cases hfind : s.blocks.find? p.block with
  | some e =>
    obtain ⟨i, b⟩ := e
    obtain ⟨hb, hsource⟩ := BlockTable.find?_eq_some hfind
    dsimp only
    split
    · rename_i hr
      refine (visitReroute_cases h hp i ?_).imp_right .inl
      rw [Diagram.reroutes, ← hsource, ← hs.kinds b (List.mem_of_getElem? hb), hr]
    · exact .inl ⟨_, rfl⟩
  | none =>
    dsimp only
    rcases h.record_cases (α := α) hold (Diagram.mem_allOutports.mp hall).1 with
      ⟨b, hrecord⟩ | ⟨e, hrefuses, he⟩
    · rw [Noted.result_next hrecord]
      obtain ⟨hsource, hkind⟩ := Diagram.record_eq hrecord
      split
      · rename_i hr
        exact (visitReroute_cases h hp _ (by rw [Diagram.reroutes, ← hkind, hr])).imp_right .inl
      · rename_i hr
        exact (visitBlock_cases h _ hsource hkind (Bool.eq_false_iff.mpr hr)).imp_right .inl
    · have hstops : d.StopsAt α p (d.record hold p.block : Noted α _).result := .inr ⟨e, hrefuses, he⟩
      exact .inr (hstops.next _)

omit h in
/-- What a visit to an outport that is reached asks for is reached too. -/
theorem reached_next {v : Visit α} (hv : Visited d p s v) {q : Port} (hq : q ∈ v.next) :
    d.Reached q := by
  cases hr : d.reroutes p with
  | true =>
    obtain ⟨_, taps, htaps, hnext⟩ := hv.routed hr
    rw [hnext] at hq
    obtain ⟨t, ht, rfl⟩ := List.mem_map.mp hq
    exact .routed hp hr htaps ht
  | false =>
    obtain ⟨hboundary, r, hr', hsource⟩ := hv.next hr q hq
    exact .driver hp hr hboundary hr' hsource

end Visits

structure Explores (d : Diagram) (heard : List Nat) (f : Frontier Port) (s : Search α) : Prop
    extends Covers d f s where
  sound : s.Sound d
  reached : ∀ p, s.Registers p → d.Reached p
  queued : ∀ p ∈ f.queue, d.Reached p
  recorded : ∀ b ∈ s.blocks.blocks,
    b.source ∈ Search.sinks d ∨ ∃ p, d.Reached p ∧ p.block = b.source
  routed : ∀ p, s.Registers p → d.reroutes p = true → ∃ taps, d.route p = .ok taps ∧
    ∀ t ∈ taps, t.1 ∈ f.queue ∨ s.Registers t.1
  heard : ∀ i ∈ heard, i ∈ s.blocks.blocks.map (·.source)

/-- A visit to the first outport of the queue keeps the account. -/
theorem Explores.advance (h : d.Legible) {heard : List Nat} {f : Frontier Port} {rest : List Port}
    (hq : f.queue = p :: rest) (he : Explores d heard f s) {v : Visit α} (hv : Visited d p s v) :
    Explores d heard (Search.advance f rest v) v.search := by
  have hp : d.Reached p := he.queued p (by rw [hq]; exact List.mem_cons_self)
  exact {
    toCovers := he.toCovers.advance hq hv h.sourced
    sound := hv.sound
    reached := by
      intro q hq
      rcases hv.registers q hq with hq | ⟨rfl, _⟩ | ⟨hr, _, hq⟩
      · exact he.reached q hq
      · exact hp
      · exact .beside hp hr hq
    queued := by
      intro q hmem
      rcases Frontier.mem_queue_offerAll hmem with hmem | hmem
      · rw [Frontier.queue_settleAll] at hmem
        exact he.queued q (by rw [hq]; exact List.mem_cons_of_mem _ hmem)
      · exact reached_next hp hv hmem
    recorded := by
      intro b hb
      rcases hv.opened b hb with hb | ⟨hsource, _⟩
      · exact he.recorded b hb
      · exact .inr ⟨p, hp, hsource.symm⟩
    routed := by
      intro q hregistered hr
      rcases hv.registers q hregistered with hold | ⟨rfl, _⟩ | ⟨hr', _, hmem⟩
      · obtain ⟨taps, htaps, hall⟩ := he.routed q hold hr
        refine ⟨taps, htaps, fun t ht => ?_⟩
        have hsink := (h.mem_of_reached (.routed (he.reached q hold) hr htaps ht)).2
        exact he.toCovers.kept hq hv hsink (hall t ht)
      · obtain ⟨_, taps, htaps, hnext⟩ := hv.routed hr
        refine ⟨taps, htaps, fun t ht => ?_⟩
        obtain ⟨hmem, hsink⟩ := h.mem_of_reached (.routed hp hr htaps ht)
        exact he.toCovers.offered hq hv hmem hsink (hnext ▸ List.mem_map_of_mem ht)
      · rw [Diagram.reroutes, Diagram.mem_outports hmem] at hr
        exact absurd (hr'.symm.trans hr) (by decide)
    heard := by
      intro i hi
      obtain ⟨b, hb, rfl⟩ := List.mem_map.mp (he.heard i hi)
      exact List.mem_map_of_mem (hv.known b hb) }

/-- A search whose queue empties keeps the account to its end; any other stops at an outport. -/
theorem run_cases (h : d.Legible) (hold : Hold) {heard : List Nat} {f : Frontier Port}
    (he : Explores d heard f s) :
    (∃ f' s', (Search.run d hold f s).result = .ok s' ∧ f'.queue = [] ∧ Explores d heard f' s') ∨
      ∃ p, d.Reached p ∧ d.StopsAt α p (Search.run d hold f s).result := by
  fun_induction Search.run d hold f s with
  | case1 f s hq => exact .inl ⟨f, s, rfl, hq, he⟩
  | case2 f s p rest hq ih =>
    have hp : d.Reached p := he.queued p (by rw [hq]; exact List.mem_cons_self)
    rcases visit_cases h hp hold he.sound with ⟨v, hv⟩ | hstops
    · rw [Noted.result_next hv]
      exact ih v (he.advance h hq (visited he.sound hv))
    · exact .inr ⟨p, hp, hstops.next _⟩

theorem lt_size_of_mem {i : Nat} (hi : i ∈ Search.sinks d) : i < d.blocks.size := by
  have hlt {reference : String} (h : i ∈ d.ofReference reference) : i < d.blocks.size :=
    List.mem_range.mp (List.mem_filter.mp h).1
  exact (List.mem_append.mp hi).elim hlt hlt

/-- Recording a sink and asking for what drives it keeps the account. -/
theorem Explores.hear (h : d.Legible) {heard : List Nat} {f : Frontier Port} {t : BlockTable α}
    (he : Explores d heard f ({ blocks := t } : Search α)) {i : Nat} (hi : i ∈ Search.sinks d)
    (hnew : i ∉ t.blocks.map (·.source)) {b : TracedBlock α} (hb : (d.record hold i).result = .ok b)
    {ps : List Port} (hps : d.drivers i = .ok ps) :
    Explores d (heard ++ [i]) (f.offerAll ps) ({ blocks := t.push b } : Search α) := by
  obtain ⟨hsource, _⟩ := Diagram.record_eq hb
  have hreached : ∀ p ∈ ps, d.Reached p := by
    intro p hp
    obtain ⟨q, hq, hdriver⟩ := except_mapM_mem hps hp
    exact .sink hi hq (Diagram.driver_eq_ok.mp hdriver)
  exact {
    toCovers := he.toCovers.hear h.sourced hi hb hps
    sound := by
      rw [← hsource] at hb hnew
      exact he.sound.push hb hnew
    reached := he.reached
    queued := fun p hp => (Frontier.mem_queue_offerAll hp).elim (he.queued p) (hreached p)
    recorded := by
      intro c hc
      rcases List.mem_append.mp hc with hc | hc
      · exact he.recorded c hc
      · exact .inl (List.mem_singleton.mp hc ▸ hsource ▸ hi)
    routed := by
      intro p hp hr
      obtain ⟨taps, htaps, hall⟩ := he.routed p hp hr
      exact ⟨taps, htaps, fun t ht => (hall t ht).imp_left Frontier.mem_queue_offerAll_of_mem⟩
    heard := by
      intro j hj
      rcases List.mem_append.mp hj with hj | hj
      · exact mem_sources_push b (he.heard j hj)
      · obtain rfl := List.mem_singleton.mp hj
        exact hsource ▸ List.mem_map_of_mem (List.mem_append_right _ (List.mem_singleton.mpr rfl)) }

/-- Recording sinks succeeds, or an inport of one has no line. -/
theorem start_cases (h : d.Legible) (hold : Hold) {heard is : List Nat} {f : Frontier Port}
    {t : BlockTable α}
    (he : Explores d heard f ({ blocks := t } : Search α)) (his : ∀ i ∈ is, i ∈ Search.sinks d)
    (hnodup : is.Nodup) (hnew : ∀ i ∈ is, i ∉ t.blocks.map (·.source)) :
    (∃ r, (start d hold is t f).result = .ok r ∧
      Explores d (heard ++ is) r.2 ({ blocks := r.1 } : Search α)) ∨
      Disconnected (start d hold is t f).result ∧ ∃ i ∈ is, ∃ q ∈ d.inports i, d.source? q = none := by
  induction is generalizing heard t f with
  | nil => exact .inl ⟨(t, f), rfl, by rwa [List.append_nil]⟩
  | cons i is ih =>
    obtain ⟨hi, hrest⟩ := List.forall_mem_cons.mp his
    have hlt := lt_size_of_mem hi
    have hsink := Diagram.mem_sinks_iff.mp hi
    unfold start
    rcases h.record_cases (α := α) hold hlt with ⟨b, hb⟩ | ⟨_, ⟨hprimitive, _⟩, _⟩
    · rw [Noted.result_next hb]
      rcases d.drivers_cases i with ⟨ps, hps, _⟩ | ⟨hbroken, q, hq, hnone⟩
      · have hdrivers : (liftM (d.drivers i) : Noted α (List Port)).result = .ok ps := hps
        rw [Noted.result_next hdrivers]
        obtain ⟨hsource, _⟩ := Diagram.record_eq hb
        obtain ⟨hfirst, hothers⟩ := List.nodup_cons.mp hnodup
        have hhear := he.hear h hi (hnew i List.mem_cons_self) hb hps
        have hstill : ∀ j ∈ is, j ∉ (t.push b).blocks.map (·.source) := by
          intro j hj
          refine not_mem_sources_push (hnew j (List.mem_cons_of_mem _ hj)) ?_
          rintro rfl
          exact hfirst (hsource ▸ hj)
        rcases ih hhear hrest hothers hstill with ⟨r, hr, hexplores⟩ | ⟨hbroken, j, hj, hq⟩
        · exact .inl ⟨r, hr, by rwa [List.append_assoc] at hexplores⟩
        · exact .inr ⟨hbroken, j, List.mem_cons_of_mem _ hj, hq⟩
      · refine .inr ⟨?_, i, List.mem_cons_self, q, hq, hnone⟩
        exact Disconnected.next (x := liftM (d.drivers i)) hbroken _
    · rw [hprimitive] at hsink
      cases hsink

structure Discovers (d : Diagram) (s : Search α) : Prop where
  sound : s.Sound d
  registers : ∀ p, s.Registers p ↔ d.Reached p
  recorded : ∀ i, i ∈ s.blocks.blocks.map (·.source) ↔
    i ∈ Search.sinks d ∨ ∃ p, d.Reached p ∧ p.block = i
  intact : ¬ d.Severed

section Finished

variable {f : Frontier Port} (hq : f.queue = []) (he : Explores d (Search.sinks d) f s)

include he in
theorem Explores.exists_block (h : d.Legible) {p : Port} (hp : s.Registers p) :
    ∃ b ∈ s.blocks.blocks, b.source = p.block ∧ b.kind = BlockKind.of (d.block p.block) ∧
      b.source ∉ Search.sinks d := by
  obtain ⟨b, hb, hsource⟩ := List.mem_map.mp (he.owned p hp)
  refine ⟨b, hb, hsource, hsource ▸ he.sound.kinds b hb, ?_⟩
  rw [hsource]
  exact (h.mem_of_reached (he.reached p hp)).2

include hq he

theorem Explores.exists_driver (h : d.Legible) {p q : Port} (hp : s.Registers p)
    (hr : d.reroutes p = false) (hb : (BlockKind.of (d.block p.block)).isBoundary = false)
    (hinport : q ∈ d.inports p.block) : ∃ r, d.source? q = some r ∧ s.Registers r := by
  obtain ⟨b, hmem, hsource, hkind, _⟩ := he.exists_block h hp
  obtain ⟨r, hr, hasked⟩ := he.driven b hmem (by rw [hkind]; exact hr) (by rw [hkind]; exact hb) q
    (hsource ▸ hinport)
  rw [hq] at hasked
  exact ⟨r, hr, hasked.resolve_left List.not_mem_nil⟩

theorem Explores.exists_driver_sink {i : Nat} (hi : i ∈ Search.sinks d) {q : Port}
    (hinport : q ∈ d.inports i) : ∃ r, d.source? q = some r ∧ s.Registers r := by
  obtain ⟨b, hb, rfl⟩ := List.mem_map.mp (he.heard i hi)
  have hkind : b.kind.isSink = true := (he.sound.kinds b hb).symm ▸ Diagram.mem_sinks_iff.mp hi
  have hplain : b.kind.isReroute = false ∧ b.kind.isBoundary = false := by
    revert hkind
    cases b.kind <;> decide
  obtain ⟨r, hr, hasked⟩ := he.driven b hb hplain.1 hplain.2 q hinport
  rw [hq] at hasked
  exact ⟨r, hr, hasked.resolve_left List.not_mem_nil⟩

/-- What is registered is closed under all the ways to reach an outport. -/
theorem Explores.registers_of_reached (h : d.Legible) {p : Port} (hp : d.Reached p) :
    s.Registers p := by
  induction hp with
  | sink hi hinport hp =>
    obtain ⟨r, hr, hmem⟩ := he.exists_driver_sink hq hi hinport
    cases hp.symm.trans hr
    exact hmem
  | routed _ hr htaps ht ih =>
    obtain ⟨taps, htaps', hasked⟩ := he.routed _ ih hr
    cases htaps.symm.trans htaps'
    rw [hq] at hasked
    exact (hasked _ ht).resolve_left List.not_mem_nil
  | beside _ hr hmem ih =>
    obtain ⟨b, hb, hsource, hkind, hsink⟩ := he.exists_block h ih
    exact he.whole b hb (by rw [hkind]; exact hr) hsink _ (hsource ▸ hmem)
  | driver _ hr hb hinport hs ih =>
    obtain ⟨r, hr, hmem⟩ := he.exists_driver hq h ih hr hb hinport
    cases hs.symm.trans hr
    exact hmem

theorem Explores.not_severed (h : d.Legible) : ¬ d.Severed := by
  rintro (⟨i, hi, q, hinport, hnone⟩ | ⟨p, hp, hsevered⟩)
  · obtain ⟨r, hr, _⟩ := he.exists_driver_sink hq hi hinport
    cases hr.symm.trans hnone
  · have hregistered := he.registers_of_reached hq h hp
    cases hr : d.reroutes p with
    | true =>
      obtain ⟨taps, htaps, _⟩ := he.routed p hregistered hr
      rcases h.resolves (h.mem_of_reached hp).1 hr with ⟨_, _, _, _, hintact⟩ | ⟨hbroken, _⟩
      · exact hintact hsevered
      · exact hbroken.ne_ok taps htaps
    | false =>
      rcases hsevered with hlacks | ⟨q, hfollows, hnone⟩
      · exact Diagram.not_lacks hr hlacks
      · obtain ⟨hboundary, hinport⟩ := (Diagram.follows_iff hr).mp hfollows
        obtain ⟨r, hsource, _⟩ := he.exists_driver hq h hregistered hr hboundary hinport
        cases hsource.symm.trans hnone

/-- When the queue is empty, all that is reached is registered, and no connection of it is broken. -/
theorem Explores.discovers (h : d.Legible) : Discovers d s where
  sound := he.sound
  registers p := ⟨he.reached p, he.registers_of_reached hq h⟩
  recorded i := by
    constructor
    · intro hi
      obtain ⟨b, hb, rfl⟩ := List.mem_map.mp hi
      exact he.recorded b hb
    · rintro (hi | ⟨p, hp, rfl⟩)
      · exact he.heard i hi
      · exact he.owned p (he.registers_of_reached hq h hp)
  intact := he.not_severed hq h

end Finished

/-- A search finds all that the sinks depend on, or it stops at an inport of a sink without a line or
at an outport that they depend on. -/
theorem finds_or_stops (h : d.Legible) (hold : Hold) :
    (∃ s, (ofDiagram d hold : Noted α _).result = .ok s ∧ Discovers d s) ∨
      (Disconnected (ofDiagram d hold : Noted α _).result ∧
        ∃ i ∈ Search.sinks d, ∃ q ∈ d.inports i, d.source? q = none) ∨
      ∃ p, d.Reached p ∧ d.StopsAt α p (ofDiagram d hold : Noted α _).result := by
  have hbegin : Explores d [] ⟨d.allOutports, []⟩ ({ blocks := {} } : Search α) := {
    toCovers := covers_empty
    sound := sound_empty
    reached := fun p hp => nomatch hp
    queued := List.forall_mem_nil _
    recorded := List.forall_mem_nil _
    routed := fun p hp => nomatch hp
    heard := List.forall_mem_nil _ }
  unfold ofDiagram
  rcases start_cases h hold hbegin (fun i hi => hi) (nodup_sinks d)
    (fun _ _ => List.not_mem_nil) with ⟨r, hr, he⟩ | ⟨hbroken, hsevered⟩
  · rw [Noted.result_next hr]
    rcases run_cases h hold he with ⟨f, s, hs, hq, he⟩ | hstops
    · exact .inl ⟨s, hs, he.discovers hq h⟩
    · exact .inr (.inr hstops)
  · exact .inr (.inl ⟨hbroken.next _, hsevered⟩)

/-- Where primitives refuse nothing but a missing line of their own, a search finds all that the sinks
depend on, or it meets a broken connection. -/
theorem search_cases (h : d.Traceable α) (hold : Hold) :
    (∃ s, (ofDiagram d hold : Noted α _).result = .ok s ∧ Discovers d s) ∨
      Disconnected (ofDiagram d hold : Noted α _).result ∧ d.Severed := by
  rcases finds_or_stops (α := α) h.legible hold with hfound | ⟨hbroken, hsevered⟩ |
    ⟨p, hp, ⟨hbroken, hsevered⟩ | ⟨e, ⟨hprimitive, he, hform⟩, hend⟩⟩
  · exact .inl hfound
  · exact .inr ⟨hbroken, .inl hsevered⟩
  · exact .inr ⟨hbroken, .inr ⟨p, hp, hsevered⟩⟩
  · have hlt := (Diagram.mem_allOutports.mp (h.legible.mem_of_reached hp).1).1
    rcases h.lowering p.block hlt hprimitive with ⟨s, hs⟩ | ⟨operation, hs⟩ | ⟨q, hq, hnone, hs⟩
    · cases he.symm.trans hs
    · exact absurd (Except.error.inj (he.symm.trans hs)) (hform operation)
    · have hr : d.reroutes p = false := by
        rw [Diagram.reroutes, hprimitive]
        rfl
      obtain rfl := Except.error.inj (he.symm.trans hs)
      refine .inr ⟨⟨_, _, hend⟩, .inr ⟨p, hp, .inr ⟨q, ?_, hnone⟩⟩⟩
      exact (Diagram.follows_iff hr).mpr ⟨by rw [hprimitive]; rfl, hq⟩

end Search

end Transcription
