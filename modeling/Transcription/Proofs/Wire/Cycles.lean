import Transcription.Proofs.Wire.Merging

namespace Transcription

open Relation

section Chains

variable {β : Type} {r : β → β → Prop}

/-- Two chains from an element that come to their end there for the first time are the same. -/
theorem eq_of_isChain (hr : Relator.RightUnique r) {a e : β} {l k : List β}
    (hl : List.IsChain r (a :: (l ++ [e]))) (hk : List.IsChain r (a :: (k ++ [e])))
    (hle : ∀ b ∈ l, b ≠ e) (hke : ∀ b ∈ k, b ≠ e) : l = k := by
  induction l generalizing a k with
  | nil =>
    cases k with
    | nil => rfl
    | cons c k =>
      have hc : c = e := hr (List.isChain_cons_cons.mp hk).1 (List.isChain_cons_cons.mp hl).1
      exact absurd hc (hke c List.mem_cons_self)
  | cons b l ih =>
    obtain ⟨hab, hl⟩ := List.isChain_cons_cons.mp hl
    obtain ⟨hbe, hle⟩ := List.forall_mem_cons.mp hle
    cases k with
    | nil => exact absurd (hr hab (List.isChain_cons_cons.mp hk).1) hbe
    | cons c k =>
      obtain ⟨hac, hk⟩ := List.isChain_cons_cons.mp hk
      cases hr hab hac
      rw [ih hl hk hle (List.forall_mem_cons.mp hke).2]

/-- A chain that comes to its end once comes to no element twice. -/
theorem nodup_of_isChain (hr : Relator.RightUnique r) {e : β} {l : List β}
    (hl : List.IsChain r (l ++ [e])) (hle : ∀ b ∈ l, b ≠ e) : l.Nodup := by
  induction l with
  | nil => exact List.nodup_nil
  | cons a l ih =>
    obtain ⟨-, hrest⟩ := List.forall_mem_cons.mp hle
    refine List.nodup_cons.mpr ⟨fun ha => ?_, ih (List.IsChain.of_cons hl) hrest⟩
    -- from where it comes to `a` again the chain goes to the same end
    obtain ⟨s, t, rfl⟩ := List.append_of_mem ha
    have hagain : List.IsChain r (a :: (t ++ [e])) := by
      have hsuffix : a :: (t ++ [e]) <:+ a :: (s ++ a :: t) ++ [e] := ⟨a :: s, by simp⟩
      exact hl.suffix hsuffix
    have hsame := eq_of_isChain hr hl hagain hrest fun b hb =>
      hrest b (List.mem_append_right _ (List.mem_cons_of_mem _ hb))
    have hlength := congrArg List.length hsame
    simp at hlength
    omega

end Chains

section Pointers

variable {pointers : List (Option Int)}

/-- A directed cycle: every element points at the next one and the last at the first. -/
structure Loops (pointers : List (Option Int)) (c : Cycle Nat) : Prop where
  ne_nil : c ≠ Cycle.nil
  nodup : c.Nodup
  chain : c.Chain (PointsAt pointers)

def LargestOn (c : Cycle Nat) (i : Nat) : Prop := i ∈ c ∧ ∀ j ∈ c, j ≤ i

/-- A cycle starts at any of its elements. -/
theorem exists_cons_of_mem {c : Cycle Nat} {i : Nat} (h : i ∈ c) : ∃ l : List Nat, c = ↑(i :: l) := by
  induction c using Quotient.inductionOn with
  | _ l =>
    obtain ⟨s, t, rfl⟩ := List.append_of_mem (Cycle.mem_coe_iff.mp h)
    exact ⟨t ++ s, Cycle.coe_eq_coe.mpr List.isRotated_append⟩

theorem Loops.isChain {i : Nat} {l : List Nat} (h : Loops pointers ↑(i :: l)) :
    List.IsChain (PointsAt pointers) (i :: (l ++ [i])) ∧ ∀ j ∈ l, j ≠ i := by
  have hnodup := List.nodup_cons.mp (Cycle.nodup_coe_iff.mp h.nodup)
  exact ⟨(Cycle.chain_coe_cons _ _ _).mp h.chain, fun j hj he => hnodup.1 (he ▸ hj)⟩

/-- No element is on two cycles. -/
theorem Loops.unique {c d : Cycle Nat} (hc : Loops pointers c) (hd : Loops pointers d) {i : Nat}
    (hic : i ∈ c) (hid : i ∈ d) : c = d := by
  obtain ⟨l, rfl⟩ := exists_cons_of_mem hic
  obtain ⟨k, rfl⟩ := exists_cons_of_mem hid
  obtain ⟨hl, hli⟩ := hc.isChain
  obtain ⟨hk, hki⟩ := hd.isChain
  rw [eq_of_isChain (pointsAt_unique pointers) hl hk hli hki]

theorem Loops.exists_largestOn {c : Cycle Nat} (h : Loops pointers c) : ∃ i, LargestOn c i := by
  induction c using Quotient.inductionOn with
  | _ l =>
    have hne : l ≠ [] := fun hl => h.ne_nil (hl ▸ Cycle.coe_nil)
    obtain ⟨i, hi, hlargest⟩ := l.toFinset.exists_max_image id (List.toFinset_nonempty_iff l |>.mpr hne)
    refine ⟨i, Cycle.mem_coe_iff.mpr (List.mem_toFinset.mp hi), fun j hj => ?_⟩
    exact hlargest j (List.mem_toFinset.mpr (Cycle.mem_coe_iff.mp hj))

/-- From an element that points into a way to `i` through smaller ones a chain leads to `i`. -/
theorem exists_isChain {i j k : Nat} (hkj : PointsAt pointers k j)
    (h : ReflTransGen (PointsBelow pointers i) j i) :
    ∃ l, List.IsChain (PointsAt pointers) (k :: (l ++ [i])) ∧ ∀ m ∈ l, m < i := by
  induction h using ReflTransGen.head_induction_on generalizing k with
  | refl => exact ⟨[], by simpa using hkj, List.forall_mem_nil _⟩
  | @head a b hab _ ih =>
    obtain ⟨l, hl, hlt⟩ := ih hab.2
    exact ⟨a :: l, List.isChain_cons_cons.mpr ⟨hkj, hl⟩, List.forall_mem_cons.mpr ⟨hab.1, hlt⟩⟩

/-- A chain to `i` through smaller elements is a way of pointers below `i`. -/
theorem reflTransGen_of_isChain {i k : Nat} {l : List Nat}
    (hl : List.IsChain (PointsAt pointers) (k :: (l ++ [i]))) (hlt : ∀ m ∈ l, m < i) :
    ∃ j, PointsAt pointers k j ∧ ReflTransGen (PointsBelow pointers i) j i := by
  induction l generalizing k with
  | nil => exact ⟨i, by simpa using hl, .refl⟩
  | cons a l ih =>
    obtain ⟨hka, hl⟩ := List.isChain_cons_cons.mp hl
    obtain ⟨hai, hlt⟩ := List.forall_mem_cons.mp hlt
    obtain ⟨j, haj, hj⟩ := ih hl hlt
    exact ⟨a, hka, .head ⟨hai, haj⟩ hj⟩

/-- A pointer closes a cycle exactly when its element is the largest of one. -/
theorem closes_iff_largestOn {i : Nat} :
    Closes pointers i ↔ ∃ c, Loops pointers c ∧ LargestOn c i := by
  constructor
  · intro ⟨j, hij, hback⟩
    obtain ⟨l, hl, hlt⟩ := exists_isChain hij hback
    have hnodup := nodup_of_isChain (pointsAt_unique pointers) (List.IsChain.of_cons hl)
      fun m hm => (hlt m hm).ne
    refine ⟨↑(i :: l), ⟨?_, ?_, (Cycle.chain_coe_cons _ _ _).mpr hl⟩, ?_, fun m hm => ?_⟩
    · exact fun hnil => List.cons_ne_nil _ _ ((Cycle.coe_eq_nil _).mp hnil)
    · exact Cycle.nodup_coe_iff.mpr
        (List.nodup_cons.mpr ⟨fun hi => Nat.lt_irrefl i (hlt i hi), hnodup⟩)
    · exact Cycle.mem_coe_iff.mpr List.mem_cons_self
    · rcases List.mem_cons.mp (Cycle.mem_coe_iff.mp hm) with rfl | hm
      · exact Nat.le_refl _
      · exact (hlt m hm).le
  · intro ⟨c, hc, hi, hlargest⟩
    obtain ⟨l, rfl⟩ := exists_cons_of_mem hi
    obtain ⟨hl, hne⟩ := hc.isChain
    refine reflTransGen_of_isChain hl fun m hm => Nat.lt_of_le_of_ne ?_ (hne m hm)
    exact hlargest m (Cycle.mem_coe_iff.mpr (List.mem_cons_of_mem _ hm))

end Pointers

namespace WireTable

variable {α : Type} [Scalar α]

theorem only_noteEmpty (t : WireTable α) (path : Nat → String) (net : Nat) :
    (t.noteEmpty path net).Only fun note => note.kind = .infeasibleBound := by
  unfold noteEmpty
  split
  · exact Noted.only_pure ()
  · dsimp only
    split
    · exact Noted.only_pure ()
    · exact Noted.only_note rfl

/-- Of what is noted, the notes on cycles are those of the elements that close one. -/
theorem filter_notes_canonicalize {t : WireTable α} {closed labels : List Nat}
    (h : resolveAliases (t.wires.map (·.aliasOf)) = (closed, .ok labels)) (path : Nat → String) :
    ((t.canonicalize path).notes.filter fun note => note.kind = .aliasCycle) =
      closed.map (t.cycleNote path) := by
  rw [canonicalize_notes h path, List.filter_append, List.filter_eq_self.mpr, List.filter_eq_nil_iff.mpr,
    List.append_nil]
  · intro note hnote
    obtain ⟨net, _, hnote⟩ := List.mem_flatMap.mp hnote
    rw [only_noteEmpty _ path net note hnote]
    decide
  · intro note hnote
    obtain ⟨i, _, rfl⟩ := List.mem_map.mp hnote
    rfl

end WireTable

/-- Cycles of aliases are noted once each: resolving ends, and the elements it notes, in increasing order,
are the largest elements of the directed cycles. Every one of them stands for one cycle and every cycle
for one of them, so that nothing is noted of what only leads into a cycle. -/
theorem aliasCycles_once {α : Type} [Scalar α] {pointers : List (Option Int)}
    (h : PointsInside pointers) :
    ∃ closed labels, resolveAliases pointers = (closed, .ok labels) ∧ closed.Pairwise (· < ·) ∧
      (∀ i, i ∈ closed ↔ ∃! c, Loops pointers c ∧ LargestOn c i) ∧
      (∀ c, Loops pointers c → ∃! i, i ∈ closed ∧ i ∈ c) ∧
      ∀ (t : WireTable α) (path : Nat → String), t.wires.map (·.aliasOf) = pointers →
        ((t.canonicalize path).notes.filter fun note => note.kind = .aliasCycle) =
          closed.map (t.cycleNote path) := by
  obtain ⟨closed, labels, hresolve, _, _, _, hmem, hsorted⟩ := resolveAliases_eq h
  have hclosed (i : Nat) : i ∈ closed ↔ ∃ c, Loops pointers c ∧ LargestOn c i :=
    (hmem i).trans closes_iff_largestOn
  refine ⟨closed, labels, hresolve, hsorted, fun i => (hclosed i).trans ⟨?_, ExistsUnique.exists⟩, ?_, ?_⟩
  · rintro ⟨c, hc, hi⟩
    exact ⟨c, ⟨hc, hi⟩, fun d hd => hd.1.unique hc hd.2.1 hi.1⟩
  · intro c hc
    obtain ⟨i, hi⟩ := hc.exists_largestOn
    refine ⟨i, ⟨(hclosed i).mpr ⟨c, hc, hi⟩, hi.1⟩, ?_⟩
    rintro j ⟨hj, hjc⟩
    obtain ⟨d, hd, hjd⟩ := (hclosed j).mp hj
    cases hc.unique hd hjc hjd.1
    exact Nat.le_antisymm (hi.2 j hjc) (hjd.2 i hi.1)
  · rintro t path rfl
    exact WireTable.filter_notes_canonicalize hresolve path

/-- A pointer of an element to itself, two elements that point at one another, and a way into them. -/
theorem aliasCycles_once_branches :
    PointsInside [some 0, some 2, some 1, some 1, none, some 3] ∧
      resolveAliases [some 0, some 2, some 1, some 1, none, some 3] = ([0, 2], .ok [0, 1, 1, 1, 2, 1]) ∧
      (∀ i, i ∈ [0, 2] ↔
        ∃! c, Loops [some 0, some 2, some 1, some 1, none, some 3] c ∧ LargestOn c i) ∧
      (∀ c, Loops [some 0, some 2, some 1, some 1, none, some 3] c → ∃! i, i ∈ [0, 2] ∧ i ∈ c) ∧
      ∀ (t : WireTable ℚ) (path : Nat → String),
        t.wires.map (·.aliasOf) = [some 0, some 2, some 1, some 1, none, some 3] →
        ((t.canonicalize path).notes.filter fun note => note.kind = .aliasCycle) =
          [0, 2].map (t.cycleNote path) := by
  have hinside : PointsInside [some 0, some 2, some 1, some 1, none, some 3] := by
    intro i target h
    match i with
    | 0 | 1 | 2 | 3 | 5 =>
      cases h
      exact ⟨_, rfl⟩
    | 4 => cases h
    | i + 6 => cases h
  have hnumbers : resolveAliases [some 0, some 2, some 1, some 1, none, some 3] =
      ([0, 2], .ok [0, 1, 1, 1, 2, 1]) := rfl
  obtain ⟨closed, labels, hresolve, -, hmem, hcycles, hnotes⟩ := aliasCycles_once (α := ℚ) hinside
  cases hnumbers.symm.trans hresolve
  exact ⟨hinside, hnumbers, hmem, hcycles, hnotes⟩

end Transcription
