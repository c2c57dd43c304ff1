import Transcription.Proofs.Partition
import Transcription.Wire.Net

namespace Transcription

open Relation

section Ways

variable {β : Type} {r : β → β → Prop}

/-- Elements are connected where their ways meet. -/
theorem eqvGen_iff_join (hr : Relator.RightUnique r) {x y : β} :
    EqvGen r x y ↔ Join (ReflTransGen r) x y := by
  have hjoin : Equivalence (Join (ReflTransGen r)) := by
    apply equivalence_join_reflTransGen
    intro a b c hb hc
    cases hr hb hc
    exact ⟨b, .refl, .refl⟩
  constructor
  · intro h
    apply hjoin.eqvGen_iff.mp
    exact EqvGen.eqvGen_mono (fun a b hab => ⟨b, .single hab, .refl⟩) x y h
  · intro ⟨z, hx, hy⟩
    have meets {a b : β} (h : ReflTransGen r a b) : EqvGen r a b := EqvGen.reflTransGen_le_eqvGen _ _ _ h
    exact .trans _ _ _ (meets hx) (.symm _ _ (meets hy))

/-- From a cycle every way leads back. -/
theorem reflTransGen_of_cycle (hr : Relator.RightUnique r) {c x : β} (hc : TransGen r c c)
    (hx : ReflTransGen r c x) : ReflTransGen r x c := by
  induction hx with
  | refl => exact .refl
  | tail _ hyx ih =>
    have next {a b : β} (ha : r a b) (h : TransGen r a c) : ReflTransGen r b c := by
      obtain ⟨z, haz, hz⟩ := TransGen.head'_iff.mp h
      cases hr ha haz
      exact hz
    rcases ReflTransGen.cases_head ih with he | ⟨z, hz, hzc⟩
    · subst he
      exact next hyx hc
    · exact next hyx (.head' hz hzc)

/-- An element from which no way leads on is where all ways of its class end. -/
theorem reflTransGen_of_terminal (hr : Relator.RightUnique r) {x e : β} (he : ∀ y, ¬ r e y)
    (h : EqvGen r x e) : ReflTransGen r x e := by
  obtain ⟨z, hx, hz⟩ := (eqvGen_iff_join hr).mp h
  rcases ReflTransGen.cases_head hz with heq | ⟨y, hy, _⟩
  · rw [heq]
    exact hx
  · exact absurd hy (he y)

/-- Ways of one class end at one element at most. -/
theorem terminal_unique (hr : Relator.RightUnique r) {x y : β} (hx : ∀ z, ¬ r x z)
    (hy : ∀ z, ¬ r y z) (h : EqvGen r x y) : x = y := by
  rcases ReflTransGen.cases_head (reflTransGen_of_terminal hr hy h) with heq | ⟨z, hz, _⟩
  · exact heq
  · exact absurd hz (hx z)

/-- Ways through finitely many elements end or lead around a cycle. -/
theorem exists_terminal_or_cycle {r : Nat → Nat → Prop} {n : Nat} (hr : ∀ a b, r a b → b < n)
    (x : Nat) : ∃ e, ReflTransGen r x e ∧ ((∀ y, ¬ r e y) ∨ TransGen r e e) := by
  by_contra hnone
  push Not at hnone
  let after (a b : Fin n) : Prop := ReflTransGen r x b ∧ TransGen r b a
  have : IsTrans _ after := ⟨fun _ _ _ hab hbc => ⟨hbc.1, hbc.2.trans hab.2⟩⟩
  have : Std.Irrefl after := ⟨fun a ha => (hnone a ha.1).2 ha.2⟩
  have hwf : WellFounded after := Finite.wellFounded_of_trans_of_irrefl after
  have hdead (a : Fin n) : ¬ ReflTransGen r x a := by
    induction a using hwf.induction with
    | _ a ih =>
      intro ha
      obtain ⟨y, hy⟩ := (hnone a ha).1
      exact ih ⟨y, hr a y hy⟩ ⟨ha, .single hy⟩ (ha.tail hy)
  obtain ⟨y, hy⟩ := (hnone x .refl).1
  exact hdead ⟨y, hr x y hy⟩ (.single hy)

end Ways

theorem position_lt {n : Nat} {i : Int} {j : Nat} (h : position n i = .ok j) : j < n := by
  unfold position at h
  generalize (if i < 0 then i + n else i) = k at h
  by_cases hk : (0 ≤ k && k < n) = true
  · rw [if_pos hk] at h
    cases h
    simp only [Bool.and_eq_true, decide_eq_true_eq] at hk
    omega
  · rw [if_neg hk] at h
    cases h

theorem position_natCast {n j : Nat} (h : j < n) : position n (j : Int) = .ok j := by
  have hj : ¬ (j : Int) < 0 := by omega
  simp [position, hj, h, pure, Except.pure]

section Pointers

variable {pointers : List (Option Int)}

def PointsAt (pointers : List (Option Int)) (i j : Nat) : Prop :=
  ∃ target, pointers[i]? = some (some target) ∧ position pointers.length target = .ok j

def PointsInside (pointers : List (Option Int)) : Prop :=
  ∀ (i : Nat) target, pointers[i]? = some (some target) → ∃ j, position pointers.length target = .ok j

theorem pointsAt_unique (pointers : List (Option Int)) : Relator.RightUnique (PointsAt pointers) := by
  intro i j k hj hk
  obtain ⟨target, htarget, hj⟩ := hj
  obtain ⟨target', htarget', hk⟩ := hk
  cases htarget.symm.trans htarget'
  cases hj.symm.trans hk
  rfl

theorem PointsAt.lt {i j : Nat} (h : PointsAt pointers i j) : i < pointers.length ∧ j < pointers.length := by
  obtain ⟨target, htarget, hj⟩ := h
  exact ⟨(List.getElem?_eq_some_iff.mp htarget).1, position_lt hj⟩

theorem lt_of_eqvGen {i j : Nat} (h : EqvGen (PointsAt pointers) i j) :
    i < pointers.length ↔ j < pointers.length := by
  induction h with
  | rel i j hij => exact ⟨fun _ => hij.lt.2, fun _ => hij.lt.1⟩
  | refl i => exact Iff.rfl
  | symm i j _ ih => exact ih.symm
  | trans i j k _ _ ih hjk => exact ih.trans hjk

def PointsBelow (pointers : List (Option Int)) (k i j : Nat) : Prop := i < k ∧ PointsAt pointers i j

/-- The pointer of an element closes a cycle: it leads back to it by way of smaller elements. -/
def Closes (pointers : List (Option Int)) (i : Nat) : Prop :=
  ∃ j, PointsAt pointers i j ∧ ReflTransGen (PointsBelow pointers i) j i

theorem Closes.cycle {i : Nat} (h : Closes pointers i) : TransGen (PointsAt pointers) i i := by
  obtain ⟨j, hj, hback⟩ := h
  exact .head' hj (ReflTransGen.mono (fun _ _ h => h.2) _ _ hback)

/-- Every cycle is closed by its largest element. -/
theorem exists_closes {c : Nat} (hc : TransGen (PointsAt pointers) c c) :
    ∃ m, ReflTransGen (PointsAt pointers) c m ∧ Closes pointers m := by
  have hfinite : {x | ReflTransGen (PointsAt pointers) c x}.Finite := by
    apply Set.Finite.subset (Set.finite_lt_nat pointers.length)
    intro x hx
    obtain ⟨y, _, hyx⟩ := TransGen.tail'_iff.mp (hc.trans_left hx)
    exact hyx.lt.2
  obtain ⟨m, hm, hmax⟩ := Set.exists_max_image _ id hfinite ⟨c, ReflTransGen.refl⟩
  refine ⟨m, hm, ?_⟩
  have hback := reflTransGen_of_cycle (pointsAt_unique pointers) hc hm
  have hcycle : TransGen (PointsAt pointers) m m := .trans_right hback (hc.trans_left hm)
  obtain ⟨j, hj, hjm⟩ := TransGen.head'_iff.mp hcycle
  refine ⟨j, hj, ?_⟩
  -- the way back is cut off where it first comes to the largest element
  have hcut {a : Nat} (ha : ReflTransGen (PointsAt pointers) a m)
      (hca : ReflTransGen (PointsAt pointers) c a) : ReflTransGen (PointsBelow pointers m) a m := by
    induction ha using ReflTransGen.head_induction_on with
    | refl => exact .refl
    | @head a b hab _ ih =>
      have hle : a ≤ m := hmax a hca
      rcases Nat.lt_or_eq_of_le hle with hlt | heq
      · exact .head ⟨hlt, hab⟩ (ih (hca.tail hab))
      · subst heq
        exact .refl
  exact hcut hjm (hm.tail hj)

/-- A class has an element that points at nothing exactly when it closes no cycle. -/
theorem exists_terminal_iff (pointers : List (Option Int)) (i : Nat) :
    (∃ e, EqvGen (PointsAt pointers) i e ∧ ∀ j, ¬ PointsAt pointers e j) ↔
      ∀ k, Closes pointers k → ¬ EqvGen (PointsAt pointers) i k := by
  have hunique := pointsAt_unique pointers
  constructor
  · intro ⟨e, hie, hend⟩ k hk hik
    have hke := reflTransGen_of_terminal hunique hend (.trans _ _ _ (.symm _ _ hik) hie)
    have hek := reflTransGen_of_cycle hunique hk.cycle hke
    obtain ⟨j, hkj, _⟩ := hk
    rcases ReflTransGen.cases_head hek with heq | ⟨j, hj, _⟩
    · exact hend j (heq ▸ hkj)
    · exact hend j hj
  · intro h
    obtain ⟨e, hie, hend⟩ := exists_terminal_or_cycle (fun _ _ => And.right ∘ PointsAt.lt) i
    rcases hend with hend | hcycle
    · exact ⟨e, EqvGen.reflTransGen_le_eqvGen _ _ _ hie, hend⟩
    · obtain ⟨m, hem, hm⟩ := exists_closes hcycle
      exact absurd (EqvGen.reflTransGen_le_eqvGen _ _ _ (hie.trans hem)) (h m hm)

/-- A pointer joins nothing exactly when it closes a cycle. -/
theorem eqvGen_pointsBelow_iff {i j : Nat} (hj : PointsAt pointers i j) :
    EqvGen (PointsBelow pointers i) i j ↔ Closes pointers i := by
  have hunique : Relator.RightUnique (PointsBelow pointers i) :=
    fun _ _ _ h k => pointsAt_unique pointers h.2 k.2
  have hend (y : Nat) : ¬ PointsBelow pointers i i y := fun h => Nat.lt_irrefl i h.1
  constructor
  · intro h
    exact ⟨j, hj, reflTransGen_of_terminal hunique hend (.symm _ _ h)⟩
  · intro ⟨k, hk, hback⟩
    cases pointsAt_unique pointers hj hk
    exact .symm _ _ (EqvGen.reflTransGen_le_eqvGen _ _ _ hback)

/-- Below the place after `k` there is one more pointer. -/
theorem eqvGen_pointsBelow_succ {p q : Partition} {k j : Nat} (hj : PointsAt pointers k j)
    (hp : ∀ x y, p.root x = p.root y ↔ EqvGen (PointsBelow pointers k) x y) (hq : q.Joins p k j)
    (x y : Nat) : q.root x = q.root y ↔ EqvGen (PointsBelow pointers (k + 1)) x y := by
  rw [← Partition.linked_nil, hq.linked_iff]
  constructor
  · apply Partition.of_linked (EqvGen.is_equivalence _)
    · intro a b hab
      exact EqvGen.eqvGen_mono (fun _ _ h => ⟨Nat.lt_succ_of_lt h.1, h.2⟩) _ _ ((hp a b).mp hab)
    · intro e he
      cases List.mem_singleton.mp he
      exact .rel _ _ ⟨Nat.lt_succ_self k, hj⟩
  · intro h
    refine EqvGen.eqvGen_mono (fun a b hab => ?_) x y h
    rcases Nat.lt_or_eq_of_le (Nat.le_of_lt_succ hab.1) with hlt | heq
    · exact .inl ((hp a b).mpr (.rel _ _ ⟨hlt, hab.2⟩))
    · subst heq
      cases pointsAt_unique pointers hj hab.2
      exact .inr List.mem_cons_self

theorem not_pointsAt_of_none {k : Nat} (hk : pointers[k]? = some none) (j : Nat) :
    ¬ PointsAt pointers k j := by
  intro ⟨target, htarget, _⟩
  cases hk.symm.trans htarget

/-- Below the place after an element without a pointer there are the same pointers. -/
theorem pointsBelow_succ_of_none {k : Nat} (hk : pointers[k]? = some none) :
    PointsBelow pointers (k + 1) = PointsBelow pointers k := by
  funext a b
  refine propext ⟨fun h => ⟨?_, h.2⟩, fun h => ⟨Nat.lt_succ_of_lt h.1, h.2⟩⟩
  refine Nat.lt_of_le_of_ne (Nat.le_of_lt_succ h.1) fun he => ?_
  exact not_pointsAt_of_none hk b (he ▸ h.2)

theorem pointsBelow_of_length_le {k : Nat} (hk : pointers.length ≤ k) :
    PointsBelow pointers k = PointsAt pointers := by
  funext a b
  exact propext ⟨And.right, fun h => ⟨Nat.lt_of_lt_of_le h.lt.1 hk, h⟩⟩

/-- What closes a cycle from a place on does so at the place or after it. -/
theorem closes_from_iff {k i : Nat} : k ≤ i ∧ Closes pointers i ↔
    (i = k ∧ Closes pointers k) ∨ (k + 1 ≤ i ∧ Closes pointers i) := by
  constructor
  · intro ⟨hle, hi⟩
    rcases Nat.lt_or_eq_of_le hle with hlt | heq
    · exact .inr ⟨hlt, hi⟩
    · subst heq
      exact .inl ⟨rfl, hi⟩
  · intro h
    rcases h with ⟨rfl, hi⟩ | ⟨hlt, hi⟩
    · exact ⟨Nat.le_refl _, hi⟩
    · exact ⟨Nat.le_of_succ_le hlt, hi⟩

/-- Following the pointers from a place on puts elements into one class exactly where pointers connect
them, and gives the elements whose pointers close cycles, in increasing order. -/
theorem followAliases_eq (hin : PointsInside pointers) {rest : List (Option Int)} {k : Nat}
    {p : Partition} (hrest : pointers.drop k = rest) (hp : p.Forest) (hsize : p.size = pointers.length)
    (hroot : ∀ x y, p.root x = p.root y ↔ EqvGen (PointsBelow pointers k) x y) :
    ∃ closed q, followAliases ((List.range' k rest.length).zip rest) p = (closed, .ok q) ∧
      q.Forest ∧ q.size = pointers.length ∧
      (∀ x y, q.root x = q.root y ↔ EqvGen (PointsAt pointers) x y) ∧
      (∀ i, i ∈ closed ↔ k ≤ i ∧ Closes pointers i) ∧ closed.Pairwise (· < ·) := by
  induction rest generalizing k p with
  | nil =>
    have hk : pointers.length ≤ k := List.drop_eq_nil_iff.mp hrest
    rw [pointsBelow_of_length_le hk] at hroot
    refine ⟨[], p, rfl, hp, hsize, hroot, fun i => ⟨nofun, fun ⟨hi, j, hj, _⟩ => ?_⟩, .nil⟩
    exact absurd hj.lt.1 (Nat.not_lt.mpr (Nat.le_trans hk hi))
  | cons e rest ih =>
    have hk : pointers[k]? = some e := by
      rw [← List.head?_drop, hrest]
      rfl
    have hnext : pointers.drop (k + 1) = rest := by
      rw [← List.tail_drop, hrest]
      rfl
    cases e with
    | none =>
      rw [← pointsBelow_succ_of_none hk] at hroot
      obtain ⟨closed, q, hfollow, hq, hqs, hqr, hmem, hsorted⟩ := ih hnext hp hsize hroot
      refine ⟨closed, q, hfollow, hq, hqs, hqr, fun i => ?_, hsorted⟩
      have hopen : ¬ Closes pointers k := fun ⟨j, hj, _⟩ => not_pointsAt_of_none hk j hj
      rw [closes_from_iff (k := k), hmem]
      simp [hopen]
    | some target =>
      obtain ⟨j, hj⟩ := hin k target hk
      have hpoint : PointsAt pointers k j := ⟨target, hk, hj⟩
      obtain ⟨hklt, hjlt⟩ := hpoint.lt
      rw [← hsize] at hklt hjlt
      have hjoin := hp.joins_union hklt hjlt
      obtain ⟨closed, q, hfollow, hq, hqs, hqr, hmem, hsorted⟩ := ih hnext hjoin.forest
        (hjoin.size_eq.trans hsize) (eqvGen_pointsBelow_succ hpoint hroot hjoin)
      have hjoined : (p.union k j).1 = true ↔ ¬ Closes pointers k := by
        rw [hp.union_joined hklt j, hroot, eqvGen_pointsBelow_iff hpoint]
      refine ⟨if (p.union k j).1 then closed else k :: closed, q, ?_, hq, hqs, hqr, fun i => ?_, ?_⟩
      · rw [List.length_cons, List.range'_succ, List.zip_cons_cons, followAliases, hsize, hj]
        simp only [hfollow]
      · rw [closes_from_iff, ← hmem]
        by_cases hc : Closes pointers k
        · simp [hjoined, hc]
        · simp [hjoined, hc]
      · split
        · exact hsorted
        · exact List.pairwise_cons.mpr ⟨fun i hi => ((hmem i).mp hi).1, hsorted⟩

/-- Resolving aliases that lead nowhere outside numbers the elements without gaps, so that equal numbers
mean connected elements, and gives the elements that close cycles. -/
theorem resolveAliases_eq (hin : PointsInside pointers) :
    ∃ closed labels, resolveAliases pointers = (closed, .ok labels) ∧
      labels.length = pointers.length ∧ (∀ l ∈ labels, ∀ k ≤ l, k ∈ labels) ∧
      (∀ i < pointers.length, ∀ j < pointers.length,
        labels[i]? = labels[j]? ↔ EqvGen (PointsAt pointers) i j) ∧
      (∀ i, i ∈ closed ↔ Closes pointers i) ∧ closed.Pairwise (· < ·) := by
  have hbelow (x y : Nat) : (Partition.discrete pointers.length).root x =
      (Partition.discrete pointers.length).root y ↔ EqvGen (PointsBelow pointers 0) x y := by
    rw [Partition.root_discrete, Partition.root_discrete]
    constructor
    · intro h
      exact h ▸ .refl x
    · intro h
      apply eq_equivalence.eqvGen_iff.mp
      exact EqvGen.eqvGen_mono (fun a b hab => absurd hab.1 (Nat.not_lt_zero a)) x y h
  obtain ⟨closed, q, hfollow, hq, hsize, hroot, hmem, hsorted⟩ := followAliases_eq hin (k := 0)
    List.drop_zero (Partition.forest_discrete _) (Partition.size_discrete _) hbelow
  refine ⟨closed, q.labels.1, ?_, hq.length_labels.trans hsize, fun l hl k hk => ?_,
    fun i hi j hj => ?_, fun i => ?_, hsorted⟩
  · unfold resolveAliases
    simp only [List.range_eq_range', hfollow]
    rfl
  · rw [hq.labels_eq] at hl ⊢
    exact Partition.number_dense _ hl hk
  · rw [hq.labels_eq_iff (hsize ▸ hi) (hsize ▸ hj), hroot]
  · rw [hmem]
    simp

/-- Aliases are followed only if each of them leads to an element. -/
theorem position_of_followAliases {es : List (Nat × Option Int)} {p q : Partition} (hp : p.Forest)
    (hes : ∀ e ∈ es, e.1 < p.size) (h : (followAliases es p).2 = .ok q) {i : Nat} {target : Int}
    (hi : (i, some target) ∈ es) : ∃ j, position p.size target = .ok j := by
  induction es generalizing p with
  | nil => cases hi
  | cons e es ih =>
    obtain ⟨he, hrest⟩ := List.forall_mem_cons.mp hes
    obtain ⟨k, _ | goal⟩ := e
    · rcases List.mem_cons.mp hi with heq | hi
      · cases heq
      · exact ih hp hrest h hi
    · rw [followAliases] at h
      cases hpos : position p.size goal with
      | error e =>
        rw [hpos] at h
        cases h
      | ok j =>
        rw [hpos] at h
        have hjoin := hp.joins_union he (position_lt hpos)
        rcases List.mem_cons.mp hi with heq | hi
        · cases heq
          exact ⟨j, hpos⟩
        · obtain ⟨l, hl⟩ := ih hjoin.forest (fun e he => hjoin.size_eq ▸ hrest e he) h hi
          exact ⟨l, by rw [← hjoin.size_eq, hl]⟩

theorem pointsInside_of_resolveAliases {labels : List Nat}
    (h : (resolveAliases pointers).2 = .ok labels) : PointsInside pointers := by
  intro i target hi
  have hlt := (List.getElem?_eq_some_iff.mp hi).1
  have hmem : (i, some target) ∈ (List.range pointers.length).zip pointers := by
    refine List.mem_iff_getElem?.mpr ⟨i, ?_⟩
    rw [List.getElem?_zip_eq_some]
    exact ⟨List.getElem?_range hlt, hi⟩
  have hes : ∀ e ∈ (List.range pointers.length).zip pointers,
      e.1 < (Partition.discrete pointers.length).size := by
    intro e he
    rw [Partition.size_discrete]
    exact List.mem_range.mp (List.of_mem_zip he).1
  unfold resolveAliases at h
  simp only at h
  cases hf : (followAliases ((List.range pointers.length).zip pointers)
      (Partition.discrete pointers.length)).2 with
  | error e =>
    rw [hf] at h
    cases h
  | ok q =>
    have hpos := position_of_followAliases (Partition.forest_discrete _) hes hf hmem
    rw [Partition.size_discrete] at hpos
    exact hpos

/-- Resolved aliases give every element a number, and leave no number out. -/
theorem labels_of_resolveAliases {labels : List Nat} (h : (resolveAliases pointers).2 = .ok labels) :
    labels.length = pointers.length ∧ ∀ l ∈ labels, ∀ k ≤ l, k ∈ labels := by
  obtain ⟨closed, labels', heq, hlen, hdense, _⟩ :=
    resolveAliases_eq (pointsInside_of_resolveAliases h)
  rw [heq] at h
  cases h
  exact ⟨hlen, hdense⟩

end Pointers

end Transcription
