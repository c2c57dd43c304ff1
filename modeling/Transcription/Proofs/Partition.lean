import Mathlib
import Transcription.Partition

namespace Transcription.Partition

/-- Pointers stay among the elements, and every one but that of a root leads to a higher rank. -/
structure Forest (p : Partition) : Prop where
  ranks : p.rank.size = p.size
  inside : ∀ x < p.size, p.parentOf x < p.size
  climbs : ∀ x < p.size, p.parentOf x ≠ x → p.rankOf x < p.rankOf (p.parentOf x)

inductive Leads (p : Partition) : Nat → Nat → Prop where
  | root (r : Nat) (self : p.parentOf r = r) : Leads p r r
  | step (x r : Nat) (up : p.parentOf x ≠ x) (rest : Leads p (p.parentOf x) r) : Leads p x r

namespace Leads

variable {p : Partition} {x r s : Nat}

theorem self (h : Leads p x r) : p.parentOf r = r := by
  induction h with
  | root r self => exact self
  | step x r up rest ih => exact ih

/-- There is one root to lead to. -/
theorem unique (h : Leads p x r) (k : Leads p x s) : r = s := by
  induction h with
  | root r self =>
    cases k with
    | root _ _ => rfl
    | step _ _ up _ => exact absurd self up
  | step x r up rest ih =>
    cases k with
    | root _ self => exact absurd self up
    | step _ _ _ rest => exact ih rest

theorem of_root (h : Leads p x r) (self : p.parentOf x = x) : r = x :=
  h.unique (Leads.root x self)

theorem parent (h : Leads p x r) : Leads p (p.parentOf x) r := by
  cases h with
  | root _ self => rw [self]; exact .root x self
  | step _ _ _ rest => exact rest

end Leads

variable {p : Partition}

theorem parentOf_outside {x : Nat} (h : p.size ≤ x) : p.parentOf x = x := by
  rw [parentOf, Array.getD_eq_getD_getElem?, Array.getElem?_eq_none h, Option.getD_none]

theorem Forest.root_inside (h : p.Forest) {x r : Nat} (hl : p.Leads x r) (hx : x < p.size) :
    r < p.size := by
  induction hl with
  | root r self => exact hx
  | step x r up rest ih => exact ih (h.inside x hx)

theorem Forest.rank_lt (h : p.Forest) {x r : Nat} (hl : p.Leads x r) (hx : x < p.size)
    (hne : x ≠ r) : p.rankOf x < p.rankOf r := by
  induction hl with
  | root r self => exact absurd rfl hne
  | step x r up rest ih =>
    have hup := h.climbs x hx up
    by_cases he : p.parentOf x = r
    · exact he ▸ hup
    · exact Nat.lt_trans hup (ih (h.inside x hx) he)

def above (p : Partition) (x : Nat) : Nat :=
  ((List.range p.size).filter fun y => p.rankOf x < p.rankOf y).length

theorem above_le (p : Partition) (x : Nat) : p.above x ≤ p.size := by
  simpa [above] using List.length_filter_le (fun y => decide (p.rankOf x < p.rankOf y)) (List.range p.size)

/-- What lies above a parent lies above the child, and so does the parent itself. -/
theorem Forest.above_parent (h : p.Forest) {x : Nat} (hx : x < p.size) (up : p.parentOf x ≠ x) :
    p.above (p.parentOf x) < p.above x := by
  have hup := h.climbs x hx up
  have hmem := List.mem_range.mpr (h.inside x hx)
  unfold above
  have hsub : (List.range p.size).filter (fun y => p.rankOf (p.parentOf x) < p.rankOf y) =
      ((List.range p.size).filter (fun y => p.rankOf x < p.rankOf y)).filter
        (fun y => p.rankOf (p.parentOf x) < p.rankOf y) := by
    rw [List.filter_filter]
    refine List.filter_congr fun y _ => ?_
    by_cases hy : p.rankOf (p.parentOf x) < p.rankOf y <;> simp [hy]
    omega
  rw [hsub]
  refine Nat.lt_of_le_of_ne (List.length_filter_le _ _) fun he => ?_
  have := List.length_filter_eq_length_iff.mp he (p.parentOf x)
    (List.mem_filter.mpr ⟨hmem, by simpa using hup⟩)
  simp at this

theorem Forest.leads_rootWithin (h : p.Forest) {x : Nat} (hx : x < p.size) (fuel : Nat)
    (hf : p.above x ≤ fuel) : p.Leads x (p.rootWithin fuel x) := by
  induction fuel generalizing x with
  | zero =>
    by_cases up : p.parentOf x = x
    · exact .root x up
    · have := h.above_parent hx up
      omega
  | succ fuel ih =>
    rw [rootWithin]
    split
    · exact .root x (by assumption)
    · rename_i up
      have := h.above_parent hx up
      exact .step x _ up (ih (h.inside x hx) (by omega))

/-- Every element leads to its root. -/
theorem Forest.leads_root (h : p.Forest) (x : Nat) : p.Leads x (p.root x) := by
  by_cases hx : x < p.size
  · exact h.leads_rootWithin hx p.size (p.above_le x)
  · have self := parentOf_outside (Nat.le_of_not_lt hx)
    have : p.root x = x := by
      unfold root
      cases p.size with
      | zero => rfl
      | succ n => simp [rootWithin, self]
    rw [this]
    exact .root x self

theorem Forest.root_eq (h : p.Forest) {x r : Nat} (hl : p.Leads x r) : p.root x = r :=
  (h.leads_root x).unique hl

theorem Forest.root_lt (h : p.Forest) {x : Nat} (hx : x < p.size) : p.root x < p.size :=
  h.root_inside (h.leads_root x) hx

def point (p : Partition) (x r : Nat) : Partition := { p with parent := p.parent.setIfInBounds x r }

@[simp] theorem size_point (x r : Nat) : (p.point x r).size = p.size := by simp [point, size]

theorem parentOf_point {x r : Nat} (hx : x < p.size) (y : Nat) :
    (p.point x r).parentOf y = if y = x then r else p.parentOf y := by
  have hx' : x < p.parent.size := hx
  simp only [parentOf, point, Array.getD_eq_getD_getElem?, Array.getElem?_setIfInBounds]
  by_cases hy : y = x
  · simp [hy, hx']
  · simp [hy, Ne.symm hy]

/-- Pointing an element at its own root moves no root. -/
theorem Leads.point {x r y s : Nat} (hx : x < p.size) (hl : p.Leads x r) (hne : x ≠ r)
    (h : p.Leads y s) : (p.point x r).Leads y s := by
  have self : (p.point x r).parentOf r = r := by
    rw [parentOf_point hx, if_neg (Ne.symm hne)]
    exact hl.self
  have around (z : Nat) (hz : z ≠ x) : (p.point x r).parentOf z = p.parentOf z := by
    rw [parentOf_point hx, if_neg hz]
  have short : (p.point x r).Leads x r := by
    have hp : (p.point x r).parentOf x = r := by rw [parentOf_point hx, if_pos rfl]
    exact .step x r (by rw [hp]; exact Ne.symm hne) (by rw [hp]; exact .root r self)
  induction h with
  | root y hy =>
    have hyx : y ≠ x := by
      rintro rfl
      exact hne (hl.of_root hy).symm
    exact .root y (by rw [around y hyx]; exact hy)
  | step y s up rest ih =>
    by_cases hyx : y = x
    · subst hyx
      rw [(Leads.step y s up rest).unique hl]
      exact short
    · exact .step y s (by rw [around y hyx]; exact up) (by rw [around y hyx]; exact ih)

theorem Forest.point (h : p.Forest) {x r : Nat} (hx : x < p.size) (hl : p.Leads x r)
    (hne : x ≠ r) : (p.point x r).Forest where
  ranks := by simpa [Partition.point, size] using h.ranks
  inside y hy := by
    rw [size_point] at hy ⊢
    rw [parentOf_point hx]
    split
    · exact h.root_inside hl hx
    · exact h.inside y hy
  climbs y hy up := by
    rw [size_point] at hy
    rw [parentOf_point hx] at up ⊢
    split
    · rename_i he
      subst he
      exact h.rank_lt hl hx hne
    · rename_i he
      rw [if_neg he] at up
      exact h.climbs y hy up

structure Keeps (q p : Partition) : Prop where
  forest : q.Forest
  size_eq : q.size = p.size
  root_eq : ∀ y, q.root y = p.root y

theorem Forest.keeps_point (h : p.Forest) {x r : Nat} (hx : x < p.size) (hl : p.Leads x r)
    (hne : x ≠ r) : (p.point x r).Keeps p where
  forest := h.point hx hl hne
  size_eq := size_point x r
  root_eq y := (h.point hx hl hne).root_eq (Leads.point hx hl hne (h.leads_root y))

theorem Keeps.trans {q p' : Partition} (h : q.Keeps p) (k : p.Keeps p') : q.Keeps p' :=
  ⟨h.forest, h.size_eq.trans k.size_eq, fun y => (h.root_eq y).trans (k.root_eq y)⟩

theorem Forest.keeps_self (h : p.Forest) : p.Keeps p := ⟨h, rfl, fun _ => rfl⟩

/-- Shortening ways moves no root. -/
theorem Forest.keeps_compress (h : p.Forest) (fuel : Nat) {x : Nat} (hx : x < p.size) :
    (compress (p.root x) fuel x p).Keeps p := by
  induction fuel generalizing x p with
  | zero => exact h.keeps_self
  | succ fuel ih =>
    rw [compress]
    split
    · exact h.keeps_self
    · rename_i hup
      have hl := h.leads_root x
      have hne : x ≠ p.root x := fun he => hup (by rw [← he, he]; exact hl.self)
      have hk := h.keeps_point hx hl hne
      have hroot : (p.point x (p.root x)).root (p.parentOf x) = p.root x := by
        rw [hk.root_eq]
        exact h.root_eq hl.parent
      have hsub := ih hk.forest (x := p.parentOf x) (by rw [hk.size_eq]; exact h.inside x hx)
      rw [hroot] at hsub
      exact hsub.trans hk

/-- Shortening ways changes no rank. -/
theorem rank_compress (r fuel x : Nat) (p : Partition) : (compress r fuel x p).rank = p.rank := by
  induction fuel generalizing x p with
  | zero => rfl
  | succ fuel ih =>
    rw [compress]
    split
    · rfl
    · exact ih _ _

theorem rank_find (p : Partition) (x : Nat) : (p.find x).2.rank = p.rank :=
  rank_compress _ _ _ _

theorem Forest.keeps_find (h : p.Forest) {x : Nat} (hx : x < p.size) : (p.find x).2.Keeps p :=
  h.keeps_compress p.size hx

def attach (p : Partition) (ra rb : Nat) : Partition :=
  { p.point rb ra with
    rank := if p.rankOf ra = p.rankOf rb then p.rank.setIfInBounds ra (p.rankOf ra + 1) else p.rank }

theorem link_eq (p : Partition) (ra rb : Nat) :
    p.link ra rb = if p.rankOf ra < p.rankOf rb then p.attach rb ra else p.attach ra rb := by
  by_cases h : p.rankOf ra < p.rankOf rb <;> simp [link, attach, point, h]

@[simp] theorem size_attach (ra rb : Nat) : (p.attach ra rb).size = p.size := size_point rb ra

theorem parentOf_attach {ra rb : Nat} (hb : rb < p.size) (y : Nat) :
    (p.attach ra rb).parentOf y = if y = rb then ra else p.parentOf y :=
  parentOf_point (p := p) hb y

theorem rankOf_attach {ra rb : Nat} (h : p.Forest) (ha : ra < p.size) (y : Nat) :
    (p.attach ra rb).rankOf y =
      if p.rankOf ra = p.rankOf rb ∧ y = ra then p.rankOf ra + 1 else p.rankOf y := by
  have ha' : ra < p.rank.size := by rw [h.ranks]; exact ha
  by_cases he : p.rankOf ra = p.rankOf rb
  · simp only [rankOf, attach] at *
    simp only [he, if_true, true_and, Array.getD_eq_getD_getElem?, Array.getElem?_setIfInBounds]
    by_cases hy : y = ra
    · simp [hy, ha']
    · simp [hy, Ne.symm hy]
  · simp [rankOf, attach] at *
    simp [he]

/-- Attaching a root moves its class, and nothing else. -/
theorem Leads.attach {ra rb y s : Nat} (hb : rb < p.size) (hra : p.parentOf ra = ra)
    (hrb : p.parentOf rb = rb) (hne : ra ≠ rb) (h : p.Leads y s) :
    (p.attach ra rb).Leads y (if s = rb then ra else s) := by
  have self : (p.attach ra rb).parentOf ra = ra := by
    rw [parentOf_attach hb, if_neg hne, hra]
  induction h with
  | root y hy =>
    split
    · rename_i he
      subst he
      have hp : (p.attach ra y).parentOf y = ra := by rw [parentOf_attach hb, if_pos rfl]
      exact .step y ra (by rw [hp]; exact hne) (by rw [hp]; exact .root ra self)
    · rename_i he
      exact .root y (by rw [parentOf_attach hb, if_neg he]; exact hy)
  | step y s up rest ih =>
    have hy : y ≠ rb := by
      rintro rfl
      exact up hrb
    have hp : (p.attach ra rb).parentOf y = p.parentOf y := by rw [parentOf_attach hb, if_neg hy]
    exact .step y _ (by rw [hp]; exact up) (by rw [hp]; exact ih)

theorem Forest.attach {ra rb : Nat} (h : p.Forest) (ha : ra < p.size) (hb : rb < p.size)
    (hra : p.parentOf ra = ra) (hne : ra ≠ rb) (hle : p.rankOf rb ≤ p.rankOf ra) :
    (p.attach ra rb).Forest where
  ranks := by
    change (if _ then p.rank.setIfInBounds ra _ else p.rank).size = (p.point rb ra).size
    rw [size_point, ← h.ranks]
    split <;> simp
  inside y hy := by
    rw [size_attach] at hy ⊢
    rw [parentOf_attach hb]
    split
    · exact ha
    · exact h.inside y hy
  climbs y hy up := by
    rw [size_attach] at hy
    rw [parentOf_attach hb] at up ⊢
    simp only [rankOf_attach h ha]
    split at up
    · rename_i he
      subst he
      simp only [if_true, Ne.symm hne, and_false, if_false, and_true]
      split <;> omega
    · rename_i he
      have hlt := h.climbs y hy up
      have hyra : y ≠ ra := by
        rintro rfl
        exact up hra
      simp only [he, hyra, and_false, if_false]
      split
      · rename_i hup
        rw [hup.2] at hlt
        omega
      · exact hlt

theorem Forest.root_attach {ra rb : Nat} (h : p.Forest) (ha : ra < p.size) (hb : rb < p.size)
    (hra : p.parentOf ra = ra) (hrb : p.parentOf rb = rb) (hne : ra ≠ rb)
    (hle : p.rankOf rb ≤ p.rankOf ra) (y : Nat) :
    (p.attach ra rb).root y = if p.root y = rb then ra else p.root y :=
  (h.attach ha hb hra hne hle).root_eq (Leads.attach hb hra hrb hne (h.leads_root y))

/-- What a union makes of roots: a forest of the same elements in which the classes of `a` and `b`
are one and all others as before. -/
structure Joins (q p : Partition) (a b : Nat) : Prop where
  forest : q.Forest
  size_eq : q.size = p.size
  root_eq_iff : ∀ x y, q.root x = q.root y ↔
    p.root x = p.root y ∨ (p.root x = p.root a ∧ p.root y = p.root b) ∨
      (p.root x = p.root b ∧ p.root y = p.root a)

theorem Forest.joins_attach {a b : Nat} (h : p.Forest) (ha : a < p.size) (hb : b < p.size)
    (hne : p.root a ≠ p.root b) (hle : p.rankOf (p.root b) ≤ p.rankOf (p.root a)) :
    (p.attach (p.root a) (p.root b)).Joins p a b where
  forest := h.attach (h.root_lt ha) (h.root_lt hb) (h.leads_root a).self hne hle
  size_eq := size_attach _ _
  root_eq_iff x y := by
    have root := h.root_attach (h.root_lt ha) (h.root_lt hb) (h.leads_root a).self
      (h.leads_root b).self hne hle
    rw [root x, root y]
    by_cases hx : p.root x = p.root b <;> by_cases hy : p.root y = p.root b
    · simp [hx, hy]
    · simp only [hx, hy, if_true, if_false, true_and, and_false, false_or]
      rw [eq_comm (a := p.root b)]
      simp [hy, eq_comm]
    · simp [hx, hy]
    · simp [hx, hy]

theorem Joins.swap {q : Partition} {a b : Nat} (h : q.Joins p a b) : q.Joins p b a :=
  ⟨h.forest, h.size_eq, fun x y => by rw [h.root_eq_iff, Or.comm (a := _ ∧ _)]⟩

/-- A union joins what was not one class before. -/
theorem Forest.union_joined (h : p.Forest) {a : Nat} (ha : a < p.size) (b : Nat) :
    (p.union a b).1 = true ↔ ¬ p.root a = p.root b := by
  have hk := h.keeps_find ha
  have e₁ : (p.find a).1 = p.root a := rfl
  have e₂ : ((p.find a).2.find b).1 = p.root b := hk.root_eq b
  rw [union]
  simp only [e₁, e₂]
  split <;> simp_all

/-- A union shortens the ways from both elements and links their roots unless they are one. -/
theorem Forest.union_cases (h : p.Forest) {a b : Nat} (ha : a < p.size) (hb : b < p.size) :
    ∃ q : Partition, q.Keeps p ∧ q.rank = p.rank ∧
      (p.root a = p.root b ∧ (p.union a b).2 = q ∨
        p.root a ≠ p.root b ∧ (p.union a b).2 = q.link (p.root a) (p.root b)) := by
  have hk₁ := h.keeps_find ha
  have hk₂ := hk₁.forest.keeps_find (x := b) (by rw [hk₁.size_eq]; exact hb)
  have e₁ : (p.find a).1 = p.root a := rfl
  have e₂ : ((p.find a).2.find b).1 = p.root b := hk₁.root_eq b
  refine ⟨((p.find a).2.find b).2, hk₂.trans hk₁, (rank_find _ b).trans (rank_find p a), ?_⟩
  rw [union]
  simp only [e₁, e₂]
  split
  · exact .inl ⟨by assumption, rfl⟩
  · exact .inr ⟨by assumption, rfl⟩

theorem Forest.joins_union (h : p.Forest) {a b : Nat} (ha : a < p.size) (hb : b < p.size) :
    (p.union a b).2.Joins p a b := by
  obtain ⟨q, ⟨hf, hs, hr⟩, -, ⟨he, hu⟩ | ⟨hne, hu⟩⟩ := h.union_cases ha hb
  · rw [hu]
    refine ⟨hf, hs, fun x y => ?_⟩
    simp only [hr, he]
    grind
  · have back {p' : Partition} (hj : p'.Joins q a b) : p'.Joins p a b :=
      ⟨hj.forest, hj.size_eq.trans hs, fun x y => by rw [hj.root_eq_iff]; simp only [hr]⟩
    have ha' : a < q.size := by omega
    have hb' : b < q.size := by omega
    rw [hu, link_eq, ← hr a, ← hr b]
    rw [← hr a, ← hr b] at hne
    split
    · rename_i hlt
      exact (back (hf.joins_attach hb' ha' (Ne.symm hne) (Nat.le_of_lt hlt)).swap)
    · rename_i hge
      exact back (hf.joins_attach ha' hb' hne (Nat.le_of_not_lt hge))

def unionAll (p : Partition) (pairs : List (Nat × Nat)) : Partition :=
  pairs.foldl (fun p e => (p.union e.1 e.2).2) p

/-- Elements that were in one class or are linked by a chain of pairs. -/
def Linked (p : Partition) (pairs : List (Nat × Nat)) : Nat → Nat → Prop :=
  Relation.EqvGen fun a b => p.root a = p.root b ∨ (a, b) ∈ pairs

/-- A chain stays within every equivalence that its links are in. -/
theorem of_linked {r : Nat → Nat → Prop} (hr : Equivalence r)
    (hroot : ∀ a b, p.root a = p.root b → r a b) {pairs : List (Nat × Nat)}
    (hpairs : ∀ e ∈ pairs, r e.1 e.2) {x y : Nat} (h : p.Linked pairs x y) : r x y := by
  apply hr.eqvGen_iff.mp
  apply Relation.EqvGen.eqvGen_mono _ _ _ h
  intro a b hab
  exact hab.elim (hroot a b) (hpairs (a, b))

theorem linked_nil (x y : Nat) : p.Linked [] x y ↔ p.root x = p.root y := by
  constructor
  · exact of_linked (eq_equivalence.comap p.root) (fun _ _ h => h) (fun _ he => absurd he List.not_mem_nil)
  · exact fun h => .rel x y (.inl h)

/-- A first union can be taken into the chain. -/
theorem Joins.linked_iff {q : Partition} {a b : Nat} (h : q.Joins p a b)
    (pairs : List (Nat × Nat)) (x y : Nat) :
    q.Linked pairs x y ↔ p.Linked ((a, b) :: pairs) x y := by
  have here : p.Linked ((a, b) :: pairs) a b := .rel a b (.inr List.mem_cons_self)
  have same {u v : Nat} (huv : p.root u = p.root v) : p.Linked ((a, b) :: pairs) u v :=
    .rel u v (.inl huv)
  constructor
  · apply of_linked (Relation.EqvGen.is_equivalence _)
    · intro u v huv
      rcases (h.root_eq_iff u v).mp huv with he | ⟨hu, hv⟩ | ⟨hu, hv⟩
      · exact same he
      · exact ((same hu).trans _ _ _ here).trans _ _ _ (same hv.symm)
      · exact ((same hu).trans _ _ _ (here.symm _ _)).trans _ _ _ (same hv.symm)
    · exact fun e he => .rel _ _ (.inr (List.mem_cons_of_mem _ he))
  · apply of_linked (Relation.EqvGen.is_equivalence _)
    · exact fun u v huv => .rel u v (.inl ((h.root_eq_iff u v).mpr (.inl huv)))
    · intro e he
      rcases List.mem_cons.mp he with rfl | he
      · exact .rel _ _ (.inl ((h.root_eq_iff _ _).mpr (.inr (.inl ⟨rfl, rfl⟩))))
      · exact .rel _ _ (.inr he)

/-- Unions put exactly those elements into one class that their pairs link. -/
theorem Forest.unionAll (h : p.Forest) (pairs : List (Nat × Nat))
    (hin : ∀ e ∈ pairs, e.1 < p.size ∧ e.2 < p.size) :
    (p.unionAll pairs).Forest ∧ (p.unionAll pairs).size = p.size ∧
      ∀ x y, (p.unionAll pairs).root x = (p.unionAll pairs).root y ↔ p.Linked pairs x y := by
  induction pairs generalizing p with
  | nil => exact ⟨h, rfl, fun x y => (linked_nil x y).symm⟩
  | cons e pairs ih =>
    obtain ⟨he, hrest⟩ := List.forall_mem_cons.mp hin
    have hj := h.joins_union he.1 he.2
    obtain ⟨hf, hs, hr⟩ := ih hj.forest fun e' he' => by rw [hj.size_eq]; exact hrest e' he'
    exact ⟨hf, hs.trans hj.size_eq, fun x y => (hr x y).trans (hj.linked_iff pairs x y)⟩

theorem size_discrete (n : Nat) : (discrete n).size = n := by simp [discrete, size]

theorem parentOf_discrete (n x : Nat) : (discrete n).parentOf x = x := by
  simp only [discrete, parentOf, Array.getD_eq_getD_getElem?]
  by_cases h : x < n <;> simp [h]

theorem forest_discrete (n : Nat) : (discrete n).Forest where
  ranks := by simp [discrete, size]
  inside x hx := by rw [parentOf_discrete]; exact hx
  climbs x _ up := absurd (parentOf_discrete n x) up

theorem root_discrete (n x : Nat) : (discrete n).root x = x :=
  (forest_discrete n).root_eq (.root x (parentOf_discrete n x))

theorem of_linked_discrete {r : Nat → Nat → Prop} (hr : Equivalence r) {n : Nat}
    {pairs : List (Nat × Nat)} (hpairs : ∀ e ∈ pairs, r e.1 e.2) {x y : Nat}
    (h : (discrete n).Linked pairs x y) : r x y := by
  refine of_linked hr (fun a b hab => ?_) hpairs h
  rw [root_discrete, root_discrete] at hab
  exact hab ▸ hr.refl a

theorem Forest.roots_eq (h : p.Forest) (xs : List Nat) (hxs : ∀ x ∈ xs, x < p.size) :
    (roots xs p).1 = xs.map p.root := by
  induction xs generalizing p with
  | nil => rfl
  | cons x xs ih =>
    obtain ⟨hx, hrest⟩ := List.forall_mem_cons.mp hxs
    have hk := h.keeps_find hx
    rw [roots]
    simp only [List.map_cons]
    rw [ih hk.forest fun y hy => by rw [hk.size_eq]; exact hrest y hy]
    exact congrArg (p.root x :: ·) (List.map_congr_left fun y _ => hk.root_eq y)

theorem Forest.keeps_roots (h : p.Forest) (xs : List Nat) (hxs : ∀ x ∈ xs, x < p.size) :
    (roots xs p).2.Keeps p := by
  induction xs generalizing p with
  | nil => exact h.keeps_self
  | cons x xs ih =>
    obtain ⟨hx, hrest⟩ := List.forall_mem_cons.mp hxs
    have hk := h.keeps_find hx
    exact (ih hk.forest fun y hy => by rw [hk.size_eq]; exact hrest y hy).trans hk

theorem rank_roots (xs : List Nat) (p : Partition) : (roots xs p).2.rank = p.rank := by
  induction xs generalizing p with
  | nil => rfl
  | cons x xs ih => exact (ih _).trans (rank_find p x)

theorem Forest.keeps_labels (h : p.Forest) : p.labels.2.Keeps p :=
  h.keeps_roots _ fun _ hx => List.mem_range.mp hx

theorem Forest.labels_eq (h : p.Forest) : p.labels.1 = number ((List.range p.size).map p.root) := by
  rw [← h.roots_eq _ fun x hx => List.mem_range.mp hx]
  rfl

theorem length_number (rs : List Nat) : (number rs).length = rs.length := by simp [number]

/-- Numbers tell members apart. -/
theorem number_eq_iff (rs : List Nat) {i j : Nat} (hi : i < rs.length) (hj : j < rs.length) :
    (number rs)[i]? = (number rs)[j]? ↔ rs[i] = rs[j] := by
  have hm : rs[i] ∈ rs.eraseDups := List.mem_eraseDups.mpr (List.getElem_mem hi)
  simp only [number, List.getElem?_map, List.getElem?_eq_getElem hi, List.getElem?_eq_getElem hj,
    Option.map_some, Option.some.injEq]
  exact List.idxOf_inj hm

/-- Elements have one label exactly when they have one root. -/
theorem Forest.labels_eq_iff (h : p.Forest) {x y : Nat} (hx : x < p.size) (hy : y < p.size) :
    p.labels.1[x]? = p.labels.1[y]? ↔ p.root x = p.root y := by
  rw [h.labels_eq, number_eq_iff _ (by simpa using hx) (by simpa using hy)]
  simp

theorem Forest.length_labels (h : p.Forest) : p.labels.1.length = p.size := by
  rw [h.labels_eq, length_number, List.length_map, List.length_range]

theorem nodup_eraseDups (rs : List Nat) : rs.eraseDups.Nodup := by
  induction hn : rs.length using Nat.strong_induction_on generalizing rs with
  | _ n ih =>
    cases rs with
    | nil => simp
    | cons r rs =>
      have hle := List.length_filter_le (fun b => !b == r) rs
      rw [List.eraseDups_cons, List.nodup_cons]
      refine ⟨?_, ih _ (by simp at hn; omega) _ rfl⟩
      rw [List.mem_eraseDups, List.mem_filter]
      simp

/-- Numbers leave no gaps. -/
theorem number_dense (rs : List Nat) {k l : Nat} (hl : l ∈ number rs) (hk : k ≤ l) :
    k ∈ number rs := by
  obtain ⟨r, hr, rfl⟩ := List.mem_map.mp hl
  have hlt := List.idxOf_lt_length_of_mem (List.mem_eraseDups.mpr hr)
  have hk' : k < rs.eraseDups.length := by omega
  exact List.mem_map.mpr ⟨rs.eraseDups[k], List.mem_eraseDups.mp (List.getElem_mem hk'),
    (nodup_eraseDups rs).idxOf_getElem k hk'⟩

/-- Members that come first have the smaller numbers. -/
theorem exists_number_before (rs : List Nat) {e i k : Nat} (he : (number rs)[e]? = some i) (hk : k < i) :
    ∃ f < e, (number rs)[f]? = some k := by
  rw [number, List.getElem?_map] at he
  obtain ⟨r, hr, hi⟩ := Option.map_eq_some_iff.mp he
  obtain ⟨hlt, hget⟩ := List.getElem?_eq_some_iff.mp hr
  -- what is listed of the members before place `e` is listed first
  have hdrop : rs.drop e = r :: rs.drop (e + 1) := by rw [List.drop_eq_getElem_cons hlt, hget]
  have hfirsts : rs.eraseDups = (rs.take e).eraseDups ++
      ((rs.drop e).removeAll (rs.take e)).eraseDups := by
    rw [← List.eraseDups_append, List.take_append_drop]
  have hle : i ≤ (rs.take e).eraseDups.length := by
    rw [← hi, hfirsts]
    by_cases hmem : r ∈ rs.take e
    · have hmem' := List.mem_eraseDups.mpr hmem
      rw [List.idxOf_append_of_mem hmem']
      exact Nat.le_of_lt (List.idxOf_lt_length_of_mem hmem')
    · have hnot : r ∉ (rs.take e).eraseDups := fun h => hmem (List.mem_eraseDups.mp h)
      rw [List.idxOf_append_of_notMem hnot, hdrop, List.cons_removeAll]
      simp [hmem, List.eraseDups_cons]
  have hk' : k < (rs.take e).eraseDups.length := by omega
  have hkf : rs.eraseDups[k]? = some (rs.take e).eraseDups[k] := by
    rw [hfirsts, List.getElem?_append_left hk', List.getElem?_eq_getElem hk']
  obtain ⟨hkl, hkget⟩ := List.getElem?_eq_some_iff.mp hkf
  have hmem := List.mem_eraseDups.mp (List.getElem_mem hk')
  rw [← hkget] at hmem
  obtain ⟨f, hf, hfget⟩ := List.mem_iff_getElem.mp hmem
  rw [List.length_take] at hf
  rw [List.getElem_take] at hfget
  refine ⟨f, by omega, ?_⟩
  rw [number, List.getElem?_map, List.getElem?_eq_getElem (by omega), Option.map_some, hfget]
  exact congrArg some ((nodup_eraseDups rs).idxOf_getElem k hkl)

/-- One more than the largest of some numbers is more than each of them. -/
theorem lt_count {ls : List Nat} {l : Nat} (h : l ∈ ls) : l < (ls.map (· + 1)).foldl max 0 := by
  have hle : ∀ (ns : List Nat) (a : Nat), a ≤ ns.foldl max a ∧ ∀ k ∈ ns, k ≤ ns.foldl max a := by
    intro ns
    induction ns with
    | nil => simp
    | cons k ns ih =>
      intro a
      obtain ⟨h₁, h₂⟩ := ih (max a k)
      refine ⟨Nat.le_trans (Nat.le_max_left a k) h₁, List.forall_mem_cons.mpr ⟨?_, h₂⟩⟩
      exact Nat.le_trans (Nat.le_max_right a k) h₁
  exact (hle _ 0).2 _ (List.mem_map_of_mem h)

/-- What is less than one more than the largest of some numbers is at most one of them. -/
theorem exists_of_lt_count {ls : List Nat} {k : Nat} (h : k < (ls.map (· + 1)).foldl max 0) :
    ∃ l ∈ ls, k ≤ l := by
  have hmem : ∀ (ns : List Nat) (a : Nat), ns.foldl max a = a ∨ ns.foldl max a ∈ ns := by
    intro ns
    induction ns with
    | nil => simp
    | cons k ns ih =>
      intro a
      rcases ih (max a k) with h | h
      · rw [List.foldl_cons, h]
        rcases Nat.le_total a k with hk | hk
        · exact .inr (by rw [Nat.max_eq_right hk]; exact List.mem_cons_self)
        · exact .inl (Nat.max_eq_left hk)
      · exact .inr (List.mem_cons_of_mem _ h)
  rcases hmem (ls.map (· + 1)) 0 with h₀ | h₀
  · rw [h₀] at h
    exact absurd h (Nat.not_lt_zero k)
  · obtain ⟨l, hl, he⟩ := List.mem_map.mp h₀
    exact ⟨l, hl, by omega⟩

end Transcription.Partition
