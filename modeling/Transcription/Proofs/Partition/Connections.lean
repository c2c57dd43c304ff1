import Transcription.Proofs.Partition

namespace Transcription.Partition

variable {p q : Partition} {pairs : List (Nat × Nat)}

inductive Shortens (r : Nat) : Nat → Partition → Partition → Prop where
  | stop {x : Nat} {p : Partition} (there : p.parentOf x = r) : Shortens r x p p
  | step {x : Nat} {p q : Partition} (away : p.parentOf x ≠ r)
      (rest : Shortens r (p.parentOf x) (p.point x r) q) : Shortens r x p q

/-- Elements of higher rank stay what they are. -/
theorem above_point (p : Partition) (x r y : Nat) : (p.point x r).above y = p.above y := by
  simp [above, rankOf, point, size]

/-- Ranks rise on the way, so a lookup has enough fuel to shorten all of it. -/
theorem Forest.shortens_compress (h : p.Forest) (fuel : Nat) {x : Nat} (hx : x < p.size)
    (hf : p.above x ≤ fuel) : Shortens (p.root x) x p (compress (p.root x) fuel x p) := by
  induction fuel generalizing x p with
  | zero =>
    have self : p.parentOf x = x := by
      by_contra up
      have := h.above_parent hx up
      omega
    exact .stop (by rw [self, h.root_eq (.root x self)])
  | succ fuel ih =>
    rw [compress]
    split
    case isTrue there => exact .stop there
    case isFalse away =>
      have hl := h.leads_root x
      have up : p.parentOf x ≠ x := fun self => away (by rw [self, hl.of_root self])
      have hne : x ≠ p.root x := fun he => up (by rw [he]; exact hl.self)
      have hk := h.keeps_point hx hl hne
      have hroot : (p.point x (p.root x)).root (p.parentOf x) = p.root x := by
        rw [hk.root_eq]
        exact h.root_eq hl.parent
      have hlt := h.above_parent hx up
      have hrest := ih hk.forest (x := p.parentOf x) (by rw [hk.size_eq]; exact h.inside x hx)
        (by rw [above_point]; omega)
      rw [hroot] at hrest
      exact .step away hrest

theorem Forest.shortens_find (h : p.Forest) {x : Nat} (hx : x < p.size) :
    Shortens (p.find x).1 x p (p.find x).2 :=
  h.shortens_compress p.size hx (p.above_le x)

def weight (p : Partition) (r : Nat) : Nat := (List.range p.size).countP fun x => p.root x = r

theorem weight_pos {x : Nat} (hx : x < p.size) : 0 < p.weight (p.root x) := by
  apply List.countP_pos_iff.mpr
  exact ⟨x, List.mem_range.mpr hx, decide_eq_true rfl⟩

/-- A class has at least as many elements as the rank of its root asks for. -/
def Heavy (p : Partition) : Prop := ∀ x < p.size, 2 ^ p.rankOf (p.root x) ≤ p.weight (p.root x)

theorem Keeps.weight_eq (h : q.Keeps p) (r : Nat) : q.weight r = p.weight r := by
  simp only [weight, h.size_eq, h.root_eq]

theorem Heavy.of_keeps (h : p.Heavy) (hk : q.Keeps p) (hr : q.rank = p.rank) : q.Heavy := by
  intro x hx
  rw [hk.size_eq] at hx
  rw [hk.root_eq, hk.weight_eq, rankOf, hr]
  exact h x hx

theorem heavy_discrete (n : Nat) : (discrete n).Heavy := by
  intro x hx
  have hrank : (discrete n).rankOf ((discrete n).root x) = 0 := by
    simp only [rankOf, discrete, Array.getD_eq_getD_getElem?, Array.getElem?_replicate]
    split <;> rfl
  rw [hrank, Nat.pow_zero]
  exact weight_pos hx

/-- What becomes one class is counted together. -/
theorem countP_merge (f : Nat → Nat) {a b : Nat} (hne : a ≠ b) (xs : List Nat) :
    xs.countP (fun x => (if f x = b then a else f x) = a) =
      xs.countP (fun x => f x = a) + xs.countP fun x => f x = b := by
  induction xs with
  | nil => rfl
  | cons x xs ih =>
    simp only [List.countP_cons, ih]
    by_cases hb : f x = b
    · simp [hb, Ne.symm hne]
      omega
    · simp [hb]
      omega

section Attach

variable {a b : Nat} (h : p.Forest) (ha : a < p.size) (hb : b < p.size) (hra : p.parentOf a = a)
  (hrb : p.parentOf b = b) (hne : a ≠ b) (hle : p.rankOf b ≤ p.rankOf a)

include h ha hb hra hrb hne hle

theorem weight_attach : (p.attach a b).weight a = p.weight a + p.weight b := by
  simp only [weight, size_attach, h.root_attach ha hb hra hrb hne hle]
  exact countP_merge p.root hne _

theorem weight_attach_of_ne {r : Nat} (hr : r ≠ a) (hr' : r ≠ b) :
    (p.attach a b).weight r = p.weight r := by
  simp only [weight, size_attach, h.root_attach ha hb hra hrb hne hle]
  apply List.countP_congr
  intro x _
  by_cases hx : p.root x = b
  · simp [hx, Ne.symm hr, Ne.symm hr']
  · simp [hx]

/-- The rank of a root goes up only when another class of that rank comes to its own. -/
theorem Heavy.attach (hheavy : p.Heavy) : (p.attach a b).Heavy := by
  intro x hx
  rw [size_attach] at hx
  have hrank (y : Nat) : (p.attach a b).rankOf y = _ := rankOf_attach h ha y
  have hwa : 2 ^ p.rankOf a ≤ p.weight a := by
    simpa [h.root_eq (.root a hra)] using hheavy a ha
  have hwb : 2 ^ p.rankOf b ≤ p.weight b := by
    simpa [h.root_eq (.root b hrb)] using hheavy b hb
  have hroot := h.root_attach ha hb hra hrb hne hle x
  by_cases hxa : (p.attach a b).root x = a
  · rw [hxa, hrank, weight_attach h ha hb hra hrb hne hle]
    split
    case isTrue he =>
      calc 2 ^ (p.rankOf a + 1) = 2 ^ p.rankOf a + 2 ^ p.rankOf b := by
            rw [← he.1, Nat.pow_succ, Nat.mul_two]
        _ ≤ p.weight a + p.weight b := Nat.add_le_add hwa hwb
    case isFalse => exact Nat.le_add_right_of_le hwa
  · have hxb : p.root x ≠ b := fun he => hxa (by rw [hroot, if_pos he])
    rw [if_neg hxb] at hroot
    rw [hroot] at hxa ⊢
    rw [hrank, if_neg fun he => hxa he.2, weight_attach_of_ne h ha hb hra hrb hne hle hxa hxb]
    exact hheavy x hx

end Attach

theorem Heavy.link {a b : Nat} (hheavy : p.Heavy) (h : p.Forest) (ha : a < p.size) (hb : b < p.size)
    (hra : p.parentOf a = a) (hrb : p.parentOf b = b) (hne : a ≠ b) : (p.link a b).Heavy := by
  rw [link_eq]
  split
  case isTrue hlt => exact Heavy.attach h hb ha hrb hra (Ne.symm hne) (Nat.le_of_lt hlt) hheavy
  case isFalse hge => exact Heavy.attach h ha hb hra hrb hne (Nat.le_of_not_lt hge) hheavy

theorem Heavy.union {a b : Nat} (hheavy : p.Heavy) (h : p.Forest) (ha : a < p.size) (hb : b < p.size) :
    (p.union a b).2.Heavy := by
  obtain ⟨q, hk, hr, ⟨-, hu⟩ | ⟨hne, hu⟩⟩ := h.union_cases ha hb
  · rw [hu]
    exact hheavy.of_keeps hk hr
  · have hsize := hk.size_eq
    rw [hu, ← hk.root_eq a, ← hk.root_eq b]
    rw [← hk.root_eq a, ← hk.root_eq b] at hne
    apply (hheavy.of_keeps hk hr).link hk.forest
    · exact hk.forest.root_lt (by omega)
    · exact hk.forest.root_lt (by omega)
    · exact (hk.forest.leads_root a).self
    · exact (hk.forest.leads_root b).self
    · exact hne

theorem size_add (p : Partition) : p.add.size = p.size + 1 := by simp [add, size]

/-- An element is its own parent before it is added and after. -/
theorem parentOf_add (x : Nat) : p.add.parentOf x = p.parentOf x := by
  simp only [parentOf, add, Array.getD_eq_getD_getElem?, Array.getElem?_push]
  split
  case isTrue he => simp [he, size]
  case isFalse => rfl

theorem rankOf_add (x : Nat) : p.add.rankOf x = p.rankOf x := by
  simp only [rankOf, add, Array.getD_eq_getD_getElem?, Array.getElem?_push]
  split
  case isTrue he => simp [he]
  case isFalse => rfl

theorem Leads.add {x r : Nat} (h : p.Leads x r) : p.add.Leads x r := by
  induction h with
  | root r self => exact .root r (by rw [parentOf_add, self])
  | step x r up rest ih => exact .step x r (by rw [parentOf_add]; exact up) (by rw [parentOf_add]; exact ih)

theorem Forest.add (h : p.Forest) : p.add.Forest where
  ranks := by
    have := h.ranks
    simp_all [Partition.add, size]
  inside x hx := by
    rw [size_add] at hx ⊢
    rw [parentOf_add]
    by_cases hin : x < p.size
    · exact Nat.lt_succ_of_lt (h.inside x hin)
    · rw [parentOf_outside (Nat.le_of_not_lt hin)]
      exact hx
  climbs x _ up := by
    rw [parentOf_add] at up ⊢
    rw [rankOf_add, rankOf_add]
    by_cases hin : x < p.size
    · exact h.climbs x hin up
    · exact absurd (parentOf_outside (Nat.le_of_not_lt hin)) up

theorem Forest.root_add (h : p.Forest) (x : Nat) : p.add.root x = p.root x :=
  h.add.root_eq (h.leads_root x).add

theorem Heavy.add (hheavy : p.Heavy) (h : p.Forest) : p.add.Heavy := by
  intro x hx
  rw [size_add] at hx
  rw [rankOf_add]
  by_cases hin : x < p.size
  · have hle : p.weight (p.root x) ≤ p.add.weight (p.root x) := by
      simp [weight, size_add, List.range_succ, h.root_add]
    rw [h.root_add]
    exact (hheavy x hin).trans hle
  · have hroot : p.add.root x = x := by
      rw [h.root_add, h.root_eq (.root x (parentOf_outside (Nat.le_of_not_lt hin)))]
    have hrank : p.rankOf x = 0 := by
      have : p.rank.size ≤ x := by rw [h.ranks]; omega
      simp [rankOf, Array.getD_eq_getD_getElem?, Array.getElem?_eq_none this]
    have hpos := weight_pos (p := p.add) (x := x) (by rw [size_add]; exact hx)
    rw [hroot] at hpos ⊢
    rw [hrank]
    exact hpos

inductive Call where
  | add
  | find (x : Nat)
  | union (a b : Nat)
  | labels

def call (p : Partition) : Call → Partition
  | .add => p.add
  | .find x => (p.find x).2
  | .union a b => (p.union a b).2
  | .labels => p.labels.2

namespace Call

def Valid (n : Nat) : Call → Prop
  | find x => x < n
  | union a b => a < n ∧ b < n
  | _ => True

def joins : Call → List (Nat × Nat)
  | union a b => [(a, b)]
  | _ => []

end Call

/-- What calls make of `n` single elements, with the pairs joined so far. -/
inductive Reached (n : Nat) : Partition → List (Nat × Nat) → Prop where
  | start : Reached n (discrete n) []
  | call {p : Partition} {pairs : List (Nat × Nat)} (h : Reached n p pairs) (c : Call)
      (valid : c.Valid p.size) : Reached n (p.call c) (c.joins ++ pairs)

def Connected (pairs : List (Nat × Nat)) : Nat → Nat → Prop :=
  Relation.EqvGen fun a b => (a, b) ∈ pairs

theorem connected_nil {x y : Nat} (h : Connected [] x y) : x = y := by
  apply eq_equivalence.eqvGen_iff.mp
  exact Relation.EqvGen.mono (fun _ _ hab => absurd hab List.not_mem_nil) x y h

/-- A union connects what its pair does. -/
theorem Joins.root_eq_iff_connected {a b : Nat} (h : q.Joins p a b)
    (hp : ∀ x y, p.root x = p.root y ↔ Connected pairs x y) (x y : Nat) :
    q.root x = q.root y ↔ Connected ((a, b) :: pairs) x y := by
  rw [← linked_nil, h.linked_iff]
  constructor
  · apply of_linked (Relation.EqvGen.is_equivalence _)
    · intro u v huv
      exact Relation.EqvGen.mono (fun _ _ => List.mem_cons_of_mem _) u v ((hp u v).mp huv)
    · intro e he
      rw [List.mem_singleton.mp he]
      exact .rel a b List.mem_cons_self
  · apply Relation.EqvGen.mono
    intro u v huv
    rcases List.mem_cons.mp huv with he | hmem
    · exact .inr (List.mem_singleton.mpr he)
    · exact .inl ((hp u v).mpr (.rel u v hmem))

structure Grown (p : Partition) (pairs : List (Nat × Nat)) : Prop where
  forest : p.Forest
  heavy : p.Heavy
  root_eq_iff : ∀ x y, p.root x = p.root y ↔ Connected pairs x y

theorem grown_discrete (n : Nat) : (discrete n).Grown [] where
  forest := forest_discrete n
  heavy := heavy_discrete n
  root_eq_iff x y := by
    rw [root_discrete, root_discrete]
    constructor
    · rintro rfl
      exact .refl x
    · exact connected_nil

theorem Grown.of_keeps (h : p.Grown pairs) (hk : q.Keeps p) (hr : q.rank = p.rank) : q.Grown pairs where
  forest := hk.forest
  heavy := h.heavy.of_keeps hk hr
  root_eq_iff x y := by
    rw [hk.root_eq, hk.root_eq]
    exact h.root_eq_iff x y

theorem Grown.add (h : p.Grown pairs) : p.add.Grown pairs where
  forest := h.forest.add
  heavy := h.heavy.add h.forest
  root_eq_iff x y := by
    rw [h.forest.root_add, h.forest.root_add]
    exact h.root_eq_iff x y

theorem Grown.union (h : p.Grown pairs) {a b : Nat} (ha : a < p.size) (hb : b < p.size) :
    (p.union a b).2.Grown ((a, b) :: pairs) where
  forest := (h.forest.joins_union ha hb).forest
  heavy := h.heavy.union h.forest ha hb
  root_eq_iff := (h.forest.joins_union ha hb).root_eq_iff_connected h.root_eq_iff

theorem Grown.call (h : p.Grown pairs) (c : Call) (hc : c.Valid p.size) :
    (p.call c).Grown (c.joins ++ pairs) := by
  cases c with
  | add => exact h.add
  | find x => exact h.of_keeps (h.forest.keeps_find hc) (rank_find p x)
  | union a b => exact h.union hc.1 hc.2
  | labels => exact h.of_keeps h.forest.keeps_labels (rank_roots _ p)

theorem Reached.grown {n : Nat} (h : Reached n p pairs) : p.Grown pairs := by
  induction h with
  | start => exact grown_discrete n
  | call _ c valid ih => exact ih.call c valid

/-- An element that is the smallest of its class. -/
def Least (same : Nat → Nat → Prop) (x : Nat) : Prop := ∀ z, same z x → x ≤ z

/-- Numbers of `n` elements that tell classes apart, leave no gaps and follow the smallest members. -/
structure Labelling (ls : List Nat) (n : Nat) (same : Nat → Nat → Prop) : Prop where
  length_eq : ls.length = n
  dense : ∀ l ∈ ls, ∀ k ≤ l, k ∈ ls
  eq_iff : ∀ x < n, ∀ y < n, ls[x]? = ls[y]? ↔ same x y
  ordered : ∀ x y i j, ls[x]? = some i → ls[y]? = some j → Least same x → Least same y →
    (i < j ↔ x < y)

/-- A partition holds what some pairs connect: its pointers and ranks are sound, its loops end, and
calls answer accordingly. -/
structure Answers (p : Partition) (pairs : List (Nat × Nat)) : Prop where
  forest : p.Forest
  heavy : ∀ r < p.size, p.parentOf r = r → 2 ^ p.rankOf r ≤ p.weight r
  find_leads : ∀ x < p.size, p.Leads x (p.find x).1
  find_shortens : ∀ x < p.size, Shortens (p.find x).1 x p (p.find x).2
  find_eq_iff : ∀ a < p.size, ∀ b < p.size,
    (p.find a).1 = ((p.find a).2.find b).1 ↔ Connected pairs a b
  find_keeps : ∀ x < p.size, (p.find x).2.Keeps p
  labels_keeps : p.labels.2.Keeps p
  union_eq_true_iff : ∀ a < p.size, ∀ b < p.size, (p.union a b).1 = true ↔ ¬ Connected pairs a b
  labels_answer : Labelling p.labels.1 p.size (Connected pairs)

/-- Of two smallest members the larger one has the larger label. -/
theorem Grown.label_lt (h : p.Grown pairs) {x y i j : Nat} (hx : p.labels.1[x]? = some i)
    (hy : p.labels.1[y]? = some j) (hl : Least (Connected pairs) y) (hlt : x < y) : i < j := by
  have hsize (z k : Nat) (hz : p.labels.1[z]? = some k) : z < p.size := by
    rw [← h.forest.length_labels]
    exact (List.getElem?_eq_some_iff.mp hz).1
  have hfirst (z : Nat) (hz : p.labels.1[z]? = some j) : y ≤ z := by
    apply hl
    rw [← h.root_eq_iff, ← h.forest.labels_eq_iff (hsize z j hz) (hsize y j hy), hz, hy]
  by_contra hge
  obtain he | hji := (Nat.le_of_not_lt hge).eq_or_lt
  · exact Nat.not_le_of_lt hlt (hfirst x (he ▸ hx))
  · rw [h.forest.labels_eq] at hx hfirst
    obtain ⟨z, hzx, hz⟩ := exists_number_before _ hx hji
    exact Nat.not_le_of_lt (hzx.trans hlt) (hfirst z hz)

theorem Grown.labelling (h : p.Grown pairs) : Labelling p.labels.1 p.size (Connected pairs) where
  length_eq := h.forest.length_labels
  dense l hl k hk := by
    rw [h.forest.labels_eq] at hl ⊢
    exact number_dense _ hl hk
  eq_iff x hx y hy := (h.forest.labels_eq_iff hx hy).trans (h.root_eq_iff x y)
  ordered x y i j hx hy hlx hly := by
    constructor
    · intro hij
      by_contra hge
      obtain rfl | hyx := (Nat.le_of_not_lt hge).eq_or_lt
      · cases hx.symm.trans hy
        exact Nat.lt_irrefl _ hij
      · exact Nat.lt_asymm hij (h.label_lt hy hx hlx hyx)
    · exact h.label_lt hx hy hly

/-- Whatever calls were made on elements, a partition holds what the joined pairs connect. -/
theorem calls_answer {n : Nat} (h : Reached n p pairs) : p.Answers pairs := by
  obtain ⟨hf, hheavy, hiff⟩ := h.grown
  exact {
    forest := hf
    heavy := fun r hr self => by simpa [hf.root_eq (.root r self)] using hheavy r hr
    find_leads := fun x _ => hf.leads_root x
    find_shortens := fun x hx => hf.shortens_find hx
    find_eq_iff := fun a ha b _ => by
      rw [← hiff, ← (hf.keeps_find ha).root_eq b]
      rfl
    find_keeps := fun x hx => hf.keeps_find hx
    labels_keeps := hf.keeps_labels
    union_eq_true_iff := fun a ha b _ => (hf.union_joined ha b).trans (not_congr (hiff a b))
    labels_answer := h.grown.labelling }

/-- Two of three elements are joined, another is added, and the second one is looked up. -/
theorem calls_answer_four :
    ((((discrete 3).call (.union 0 2)).call .add).call (.find 2)).Answers [(0, 2)] :=
  calls_answer ((((Reached.start (n := 3)).call (.union 0 2) ⟨by decide, by decide⟩).call .add
    trivial).call (.find 2) (by change 2 < _; decide))

end Transcription.Partition
