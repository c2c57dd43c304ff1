import Mathlib
import Transcription.Network.Route
import Transcription.Proofs.Noted
import Transcription.Proofs.Wire.Aliases

namespace Transcription

variable {α : Type} [Scalar α]

def Wire.isOutside (w : Wire α) : Bool := w.input || w.external

def Wire.tap (w : Wire α) : Diagram.Tap := (w.port, w.sub)

def Wire.signal (w : Wire α) : Nat × Diagram.Tap × Option Int := (w.block, w.tap, w.aliasOf)

namespace WireTable

def outsideAt (t : WireTable α) (i : Nat) : Bool := (t.wires[i]?).any (·.isOutside)

theorem getElem?_modify (t : WireTable α) (i j : Nat) (f : Wire α → Wire α) :
    (t.modify i f).wires[j]? = (t.wires[j]?).map fun w => if i = j then f w else w := by
  rw [modify, List.getElem?_modify]
  rfl

structure Agree {β : Type} (view : Wire α → β) (t u : WireTable α) : Prop where
  firsts_eq : u.firsts = t.firsts
  view_eq : u.wires.map view = t.wires.map view

section Views

variable {β : Type} {view : Wire α → β} {t u v : WireTable α}

theorem Agree.refl (t : WireTable α) : t.Agree view t := ⟨rfl, rfl⟩

theorem Agree.trans (h : t.Agree view u) (k : u.Agree view v) : t.Agree view v :=
  ⟨k.firsts_eq.trans h.firsts_eq, k.view_eq.trans h.view_eq⟩

theorem Agree.size_eq (h : t.Agree view u) : u.size = t.size := by
  simpa [size] using congrArg List.length h.view_eq

theorem Agree.getElem? (h : t.Agree view u) (i : Nat) :
    (u.wires[i]?).map view = (t.wires[i]?).map view := by
  rw [← List.getElem?_map, ← List.getElem?_map, h.view_eq]

/-- Every wire of the second table has one that looks the same in the first. -/
theorem Agree.exists_getElem? (h : t.Agree view u) {i : Nat} {w : Wire α} (hw : u.wires[i]? = some w) :
    ∃ v, t.wires[i]? = some v ∧ view v = view w := by
  have hview := h.getElem? i
  rw [hw, Option.map_some] at hview
  exact Option.map_eq_some_iff.mp hview.symm

theorem Agree.symm (h : t.Agree view u) : u.Agree view t := ⟨h.firsts_eq.symm, h.view_eq.symm⟩

theorem Agree.first?_eq (h : t.Agree view u) : u.first? = t.first? := by
  funext p
  rw [first?, first?, h.firsts_eq]

/-- A coarser view shows no more differences. -/
theorem Agree.comp {γ : Type} (h : t.Agree view u) (f : β → γ) : t.Agree (fun w => f (view w)) u where
  firsts_eq := h.firsts_eq
  view_eq := by simpa [Function.comp_def] using congrArg (List.map f) h.view_eq

theorem agree_modify (t : WireTable α) (i : Nat) {f : Wire α → Wire α}
    (hf : ∀ w, view (f w) = view w) : t.Agree view (t.modify i f) where
  firsts_eq := rfl
  view_eq := by
    apply List.ext_getElem?
    intro j
    rw [List.getElem?_map, List.getElem?_map, getElem?_modify, Option.map_map]
    congr 1
    funext w
    simp only [Function.comp_apply]
    split
    · exact hf w
    · rfl

theorem agree_foldl {γ : Type} {f : WireTable α → γ → WireTable α}
    (hf : ∀ (t : WireTable α) (x : γ), t.Agree view (f t x)) (xs : List γ) (t : WireTable α) :
    t.Agree view (xs.foldl f t) := by
  induction xs generalizing t with
  | nil => exact .refl t
  | cons x xs ih => exact (hf t x).trans (ih (f t x))

theorem agree_modifyAll (t : WireTable α) (places : List Nat) {f : Wire α → Wire α}
    (hf : ∀ w, view (f w) = view w) : t.Agree view (t.modifyAll places f) :=
  agree_foldl (fun t i => agree_modify t i hf) places t

end Views

theorem Agree.outsideAt_eq {t u : WireTable α} (h : t.Agree Wire.isOutside u) (i : Nat) :
    u.outsideAt i = t.outsideAt i := by
  have hany (v : WireTable α) : v.outsideAt i = ((v.wires[i]?).map Wire.isOutside).any id := by
    rw [outsideAt, Option.any_map]
    rfl
  rw [hany, hany, h.getElem?]

/-- Changing wires in a way that marks some of them as coming from outside. -/
theorem outsideAt_modifyAll {f : Wire α → Wire α} {mark : Bool}
    (hf : ∀ w, (f w).isOutside = (w.isOutside || mark)) (t : WireTable α) (places : List Nat) :
    (t.modifyAll places f).size = t.size ∧ ∀ j, (t.modifyAll places f).outsideAt j = true ↔
      t.outsideAt j = true ∨ (j < t.size ∧ mark = true ∧ j ∈ places) := by
  unfold modifyAll
  induction places generalizing t with
  | nil => simp
  | cons i places ih =>
    obtain ⟨h₁, h₂⟩ := ih (t.modify i f)
    have hsize : (t.modify i f).size = t.size := by simp [size, modify]
    refine ⟨h₁.trans hsize, fun j => (h₂ j).trans ?_⟩
    rw [hsize, outsideAt, outsideAt, getElem?_modify]
    by_cases hj : j < t.size
    · rw [List.getElem?_eq_getElem hj]
      by_cases hij : i = j
      · subst hij
        simp only [Option.map_some, Option.any_some, if_true, hf, Bool.or_eq_true, hj,
          List.mem_cons_self, true_and, and_true]
        tauto
      · have hne : j ≠ i := fun h => hij h.symm
        simp [hij, hne]
    · rw [List.getElem?_eq_none (Nat.le_of_not_lt hj)]
      simp [hj]

theorem portIndices_nodup (t : WireTable α) (p : Port) : (t.portIndices p).Nodup := by
  unfold portIndices
  split
  · exact List.nodup_nil
  · exact List.nodup_range'

/-- The wires of an outport carry its signal. -/
theorem mem_portIndices {t : WireTable α} {p : Port} {i : Nat} (h : i ∈ t.portIndices p) :
    ∃ w, t.wires[i]? = some w ∧ w.port = p := by
  unfold portIndices at h
  split at h
  · cases h
  · rename_i first _
    obtain ⟨h₁, h₂⟩ := List.mem_range'_1.mp h
    obtain ⟨k, rfl⟩ := Nat.exists_eq_add_of_le h₁
    have hk : k < ((t.wires.drop first).takeWhile fun w => w.port = p).length := by omega
    have hmem := List.getElem_mem hk
    have hport := List.mem_takeWhile_imp hmem
    refine ⟨_, ?_, of_decide_eq_true hport⟩
    have := (List.takeWhile_prefix (p := fun w : Wire α => decide (w.port = p))
      (l := t.wires.drop first)).getElem hk
    rw [this, List.getElem_drop]
    simp

theorem portIndices_lt {t : WireTable α} {p : Port} {i : Nat} (h : i ∈ t.portIndices p) :
    i < t.size := by
  obtain ⟨w, hw, _⟩ := mem_portIndices h
  exact (List.getElem?_eq_some_iff.mp hw).1

/-- No wire is listed twice among those of different ports. -/
theorem nodup_flatMap_portIndices (t : WireTable α) {ps : List Port} (h : ps.Nodup) :
    (ps.flatMap t.portIndices).Nodup := by
  refine List.nodup_flatMap.mpr ⟨fun p _ => portIndices_nodup t p, h.imp fun {p q} hne => ?_⟩
  simp only [Function.onFun, List.disjoint_left]
  intro i hp hq
  obtain ⟨w, hw, rfl⟩ := mem_portIndices hp
  obtain ⟨v, hv, rfl⟩ := mem_portIndices hq
  exact hne (congrArg _ (Option.some.inj (hw.symm.trans hv)))

/-- Tables that show the same outports have their wires in the same places. -/
theorem Agree.portIndices_eq {t u : WireTable α} (h : t.Agree Wire.port u) :
    u.portIndices = t.portIndices := by
  have hlength (v : WireTable α) (p : Port) (first : Nat) :
      ((v.wires.drop first).takeWhile fun w => w.port = p).length =
        (((v.wires.map Wire.port).drop first).takeWhile fun q => q = p).length := by
    rw [← List.map_drop, List.takeWhile_map, List.length_map]
    rfl
  funext p
  unfold portIndices
  rw [h.first?_eq]
  split
  · rfl
  · rw [hlength, hlength, h.view_eq]

theorem netOf_eq {t : WireTable α} {i : Nat} {w : Wire α} (h : t.wires[i]? = some w) :
    t.netOf i = w.net := by simp [netOf, h]

theorem netCount_eq (t : WireTable α) :
    t.netCount = ((t.wires.map (·.net)).map (· + 1)).foldl max 0 := by
  rw [netCount, List.map_map]
  rfl

theorem netOf_lt {t : WireTable α} {i : Nat} (h : i < t.size) : t.netOf i < t.netCount := by
  rw [netOf_eq (List.getElem?_eq_getElem h), netCount_eq]
  exact Partition.lt_count (List.mem_map_of_mem (List.getElem_mem h))

theorem getElem?_renumber {t : WireTable α} {labels : List Nat} (h : labels.length = t.size) (i : Nat) :
    (t.renumber labels).wires[i]? =
      (t.wires[i]?).map fun w => { w with net := (labels[i]?).getD 0 } := by
  rw [renumber, List.getElem?_zipWith]
  by_cases hi : i < t.size
  · have hi' : i < labels.length := by omega
    rw [List.getElem?_eq_getElem hi, List.getElem?_eq_getElem hi']
    rfl
  · rw [List.getElem?_eq_none (Nat.le_of_not_lt hi)]
    rfl

theorem getElem?_merge (t : WireTable α) (i : Nat) :
    t.merge.wires[i]? = (t.wires[i]?).map fun w => share (t.group w.net) w := List.getElem?_map

section Labels

variable {t : WireTable α} {labels : List Nat}

theorem getElem?_merge_renumber (h : labels.length = t.size) {i : Nat} {w : Wire α}
    (hw : t.wires[i]? = some w) : (t.renumber labels).merge.wires[i]? =
      some (share ((t.renumber labels).group ((labels[i]?).getD 0))
        { w with net := (labels[i]?).getD 0 }) := by
  rw [getElem?_merge, getElem?_renumber h, hw]
  rfl

/-- The nets of merged wires are the numbers given to them. -/
theorem netOf_merge_renumber (h : labels.length = t.size) {i : Nat} (hi : i < t.size) :
    (t.renumber labels).merge.netOf i = (labels[i]?).getD 0 :=
  netOf_eq (getElem?_merge_renumber h (List.getElem?_eq_getElem hi))

theorem mem_group_renumber (h : labels.length = t.size) {v : Wire α} {c : Nat} :
    v ∈ (t.renumber labels).group c ↔
      ∃ (j : Nat) (w : Wire α), t.wires[j]? = some w ∧ (labels[j]?).getD 0 = c ∧
        { w with net := c } = v := by
  simp only [group, List.mem_filter, decide_eq_true_eq]
  constructor
  · rintro ⟨hv, rfl⟩
    obtain ⟨j, hj⟩ := List.mem_iff_getElem?.mp hv
    rw [getElem?_renumber h] at hj
    obtain ⟨w, hw, rfl⟩ := Option.map_eq_some_iff.mp hj
    exact ⟨j, w, hw, rfl, rfl⟩
  · rintro ⟨j, w, hw, rfl, rfl⟩
    refine ⟨List.mem_iff_getElem?.mpr ⟨j, ?_⟩, rfl⟩
    rw [getElem?_renumber h, hw]
    rfl

end Labels

theorem isOutside_share (ws : List (Wire α)) (w : Wire α) :
    (share ws w).isOutside = true ↔ ∃ v ∈ ws, v.isOutside = true := by
  simp only [Wire.isOutside, share, Bool.or_eq_true, List.any_eq_true]
  constructor
  · rintro (⟨v, hv, h⟩ | ⟨v, hv, h⟩)
    · exact ⟨v, hv, .inl h⟩
    · exact ⟨v, hv, .inr h⟩
  · rintro ⟨v, hv, h | h⟩
    · exact .inl ⟨v, hv, h⟩
    · exact .inr ⟨v, hv, h⟩

structure Merged (t u : WireTable α) : Prop where
  agree : t.Agree Wire.signal u
  outsideAt_iff : ∀ i < t.size, u.outsideAt i = true ↔
    ∃ j < t.size, u.netOf j = u.netOf i ∧ t.outsideAt j = true
  dense : ∀ net < u.netCount, ∃ i < t.size, u.netOf i = net

theorem merged_renumber {t : WireTable α} {labels : List Nat} (hlen : labels.length = t.size)
    (hdense : ∀ l ∈ labels, ∀ k ≤ l, k ∈ labels) : t.Merged (t.renumber labels).merge := by
  have hagree : t.Agree Wire.signal (t.renumber labels).merge := by
    refine ⟨rfl, List.ext_getElem? fun i => ?_⟩
    rw [List.getElem?_map, List.getElem?_map, getElem?_merge, getElem?_renumber hlen,
      Option.map_map, Option.map_map]
    rfl
  have hnet {i : Nat} (hi : i < t.size) := netOf_merge_renumber hlen hi
  refine ⟨hagree, fun i hi => ?_, fun net hn => ?_⟩
  · rw [outsideAt, getElem?_merge_renumber hlen (List.getElem?_eq_getElem hi), Option.any_some,
      isOutside_share]
    constructor
    · intro ⟨v, hv, ho⟩
      obtain ⟨j, w, hw, he, rfl⟩ := (mem_group_renumber hlen).mp hv
      have hj := (List.getElem?_eq_some_iff.mp hw).1
      refine ⟨j, hj, by rw [hnet hj, hnet hi, he], ?_⟩
      rw [outsideAt, hw]
      exact ho
    · intro ⟨j, hj, he, ho⟩
      rw [hnet hj, hnet hi] at he
      have hw := List.getElem?_eq_getElem hj
      rw [outsideAt, hw] at ho
      exact ⟨_, (mem_group_renumber hlen).mpr ⟨j, _, hw, he, rfl⟩, ho⟩
  · rw [netCount_eq] at hn
    obtain ⟨l, hl, hle⟩ := Partition.exists_of_lt_count hn
    obtain ⟨w, hw, rfl⟩ := List.mem_map.mp hl
    obtain ⟨i, hi⟩ := List.mem_iff_getElem?.mp hw
    have hlt : i < t.size := hagree.size_eq ▸ (List.getElem?_eq_some_iff.mp hi).1
    have hlabel : w.net ∈ labels := by
      rw [← netOf_eq hi, hnet hlt, List.getElem?_eq_getElem (hlen ▸ hlt)]
      exact List.getElem_mem _
    obtain ⟨j, hj⟩ := List.mem_iff_getElem?.mp (hdense _ hlabel net hle)
    have hjlt : j < t.size := hlen ▸ (List.getElem?_eq_some_iff.mp hj).1
    exact ⟨j, hjlt, by rw [hnet hjlt, hj, Option.getD_some]⟩

/-- Resolving aliases numbers the wires without gaps and merges them. -/
theorem renumbered_of_canonicalize {t u : WireTable α} {path : Nat → String} {count : Nat}
    (h : (t.canonicalize path).result = .ok (count, u)) :
    ∃ labels, labels.length = t.size ∧ (∀ l ∈ labels, ∀ k ≤ l, k ∈ labels) ∧
      u = (t.renumber labels).merge := by
  unfold canonicalize at h
  obtain ⟨_, _, h⟩ := Noted.result_bind.mp h
  obtain ⟨labels, hl, h⟩ := Noted.result_bind.mp h
  obtain ⟨_, _, h⟩ := Noted.result_bind.mp h
  cases h
  obtain ⟨hlen, hdense⟩ := labels_of_resolveAliases hl
  exact ⟨labels, by rw [hlen, List.length_map]; rfl, hdense, rfl⟩

theorem merged_of_canonicalize {t u : WireTable α} {path : Nat → String} {count : Nat}
    (h : (t.canonicalize path).result = .ok (count, u)) : t.Merged u := by
  obtain ⟨labels, hlen, hdense, rfl⟩ := renumbered_of_canonicalize h
  exact merged_renumber hlen hdense

end WireTable

end Transcription
