import Transcription.Proofs.Network.Reach

namespace Transcription

theorem lookup_setNamed (name other : String) (v : Value) (entries : List (String × Value)) :
    (setNamed name v entries).lookup other =
      if other = name then some v else entries.lookup other := by
  induction entries with
  | nil =>
    by_cases ho : other = name
    · simp [setNamed, ho]
    · simp [setNamed, ho, List.lookup_cons, beq_false_of_ne ho]
  | cons e entries ih =>
    obtain ⟨n, w⟩ := e
    rw [setNamed]
    split
    · rename_i hn
      subst hn
      by_cases ho : other = n
      · simp [ho]
      · simp [ho, List.lookup_cons, beq_false_of_ne ho]
    · rename_i hn
      by_cases ho : other = n
      · subst ho
        simp [hn]
      · simp [List.lookup_cons, beq_false_of_ne ho, ih]

/-- A name has a value among those gathered exactly if one was given. -/
theorem isSome_lookup_collectNamed (name : String) (entries : List (String × Value)) :
    ((collectNamed entries).lookup name).isSome = true ↔ name ∈ entries.map (·.1) := by
  have hfold (acc : List (String × Value)) :
      ((entries.foldl (fun acc e => setNamed e.1 e.2 acc) acc).lookup name).isSome = true ↔
        name ∈ entries.map (·.1) ∨ (acc.lookup name).isSome = true := by
    induction entries generalizing acc with
    | nil => simp
    | cons e entries ih =>
      rw [List.foldl_cons, ih, lookup_setNamed]
      by_cases hn : name = e.1 <;> simp [hn]
  exact (hfold []).trans (by simp)

namespace Diagram

variable {d d' : Diagram} {b c : Draft} {bs : List Draft} {i j : Nat} {n : Int}

def addAll (d : Diagram) (bs : List Draft) : Except Fault Diagram :=
  bs.foldlM (fun d b => (·.2) <$> d.add b) d

def Draft.Automatic (b : Draft) : Prop :=
  (b.type = "Inport" ∨ b.type = "Outport") ∧ "Port" ∉ b.params.map (·.1)

def Draft.Sibling (b c : Draft) : Prop := c.parent = b.parent ∧ c.type = b.type

instance : DecidablePred b.Sibling := fun _ => inferInstanceAs (Decidable (_ ∧ _))

def Draft.Fits (c : Draft) (block : Block) : Prop := block.parent = c.parent ∧ block.type = c.type

def Draft.siblings (b : Draft) (bs : List Draft) : Nat := bs.countP fun c => b.Sibling c

theorem siblings_cons (b c : Draft) (bs : List Draft) :
    b.siblings (c :: bs) = if b.Sibling c then b.siblings bs + 1 else b.siblings bs := by
  simp only [Draft.siblings, List.countP_cons, decide_eq_true_eq]
  split <;> rfl

theorem of_block_eq_ok {block : Block} (h : b.block d = .ok block) :
    block.parent = b.parent ∧ block.type = b.type ∧ block.params = b.numbered d := by
  obtain ⟨_, _, h⟩ := except_bind_eq_ok.mp h
  cases h
  exact ⟨rfl, rfl, rfl⟩

/-- A port block without a number gets the next one. -/
theorem Draft.Automatic.lookup_numbered (h : b.Automatic) (d : Diagram) :
    (b.numbered d).lookup "Port" = some (.int (d.nextPort b.type b.parent)) := by
  have hnone : ((collectNamed b.params).lookup "Port").isNone = true := by
    rw [← Option.not_isSome, Bool.not_eq_true', ← Bool.not_eq_true, isSome_lookup_collectNamed]
    exact h.2
  have hport : (b.type = "Inport" || b.type = "Outport") = true := by simpa using h.1
  simp [numbered, hport, hnone, lookup_setNamed]

theorem block_push (block : Block) (i : Nat) :
    { d with blocks := d.blocks.push block, compiled := none }.block i =
      if i = d.blocks.size then block else d.block i := by
  simp only [Diagram.block, Array.getD_eq_getD_getElem?, Array.getElem?_push]
  split <;> rfl

structure Drawn (bs : List Draft) (d : Diagram) : Prop where
  alike : List.Forall₂ Draft.Fits bs d.blocks.toList
  /-- A block without a number has the one behind the count of its siblings before it. -/
  number : ∀ i b, bs[i]? = some b → b.Automatic →
    (d.block i).param? "Port" = some (.int ((b.siblings (bs.take i) : Nat) + 1))

theorem drawn_empty (name : String) (workspace : List (String × Value)) :
    Drawn [] (emptyDiagram name workspace) := ⟨.nil, nofun⟩

theorem Drawn.size_eq (h : Drawn bs d) : d.blocks.size = bs.length := h.alike.length_eq.symm

theorem Drawn.fits (h : Drawn bs d) (hc : bs[i]? = some c) : c.Fits (d.block i) := by
  obtain ⟨hi, rfl⟩ := List.getElem?_eq_some_iff.mp hc
  have hsize : i < d.blocks.size := by rwa [h.size_eq]
  have halike := (List.forall₂_iff_get.mp h.alike).2 i hi (by simpa using hsize)
  simpa [Diagram.block, Array.getD_eq_getD_getElem?, hsize] using halike

theorem length_filter_alike {blocks : List Block} (h : List.Forall₂ Draft.Fits bs blocks) (b : Draft) :
    (blocks.filter fun x => x.parent = b.parent && x.type = b.type).length = b.siblings bs := by
  induction h with
  | nil => rfl
  | @cons c block _ _ hc _ ih =>
    obtain ⟨hparent, htype⟩ := hc
    have hsame : (block.parent = b.parent && block.type = b.type) = decide (b.Sibling c) := by
      rw [hparent, htype]
      exact (Bool.decide_and _ _).symm
    simp only [List.filter_cons, siblings_cons, hsame, decide_eq_true_eq]
    split <;> simp [ih]

/-- The next number is the one behind the count of siblings. -/
theorem Drawn.nextPort_eq (h : Drawn bs d) (b : Draft) :
    d.nextPort b.type b.parent = b.siblings bs + 1 :=
  congrArg (· + 1) (length_filter_alike h.alike b)

theorem Drawn.add (h : Drawn bs d) (hadd : d.add b = .ok (i, d')) : Drawn (bs ++ [b]) d' := by
  obtain ⟨block, hblock, hd⟩ := except_bind_eq_ok.mp hadd
  cases hd
  obtain ⟨hparent, htype, hparams⟩ := of_block_eq_ok hblock
  refine ⟨?_, fun k c hc hauto => ?_⟩
  · rw [Array.toList_push]
    exact List.rel_append h.alike (.cons ⟨hparent, htype⟩ .nil)
  · rw [block_push, h.size_eq]
    split
    case isTrue hk =>
      subst hk
      obtain rfl : b = c := by simpa using hc
      rw [Block.param?, hparams, hauto.lookup_numbered, h.nextPort_eq]
      simp
    case isFalse hk =>
      have hlt : k < bs.length := by
        have := (List.getElem?_eq_some_iff.mp hc).1
        simp only [List.length_append, List.length_singleton] at this
        omega
      rw [List.getElem?_append_left hlt] at hc
      rw [h.number k c hc hauto, List.take_append_of_le_length (Nat.le_of_lt hlt)]

theorem Drawn.addAll {cs : List Draft} (h : Drawn bs d) (hadd : d.addAll cs = .ok d') :
    Drawn (bs ++ cs) d' := by
  induction cs generalizing bs d with
  | nil =>
    cases hadd
    rwa [List.append_nil]
  | cons c cs ih =>
    rw [Diagram.addAll, List.foldlM_cons] at hadd
    obtain ⟨next, hnext, hrest⟩ := except_bind_eq_ok.mp hadd
    obtain ⟨⟨k, e⟩, hc, rfl⟩ := except_map_eq_ok.mp hnext
    rw [List.append_cons]
    exact ih (h.add hc) hrest

theorem firstNumbered_cons {k : Int} {rest : List Nat} (hi : d.Numbered i k) :
    d.firstNumbered n (i :: rest) = if k = n then .ok (some i) else d.firstNumbered n rest := by
  obtain ⟨v, hv, hk⟩ := hi
  simp only [firstNumbered, hv, hk, bind, Except.bind]
  rfl

/-- Only a block whose number can be read is looked at. -/
theorem exists_numbered {rest : List Nat} {o : Option Nat}
    (h : d.firstNumbered n (i :: rest) = .ok o) : ∃ k, d.Numbered i k := by
  obtain ⟨v, hv, h⟩ := except_bind_eq_ok.mp h
  obtain ⟨k, hk, _⟩ := except_bind_eq_ok.mp h
  exact ⟨k, v, hv, hk⟩

/-- A block is found by its number exactly if those before it have other numbers. -/
theorem firstNumbered_eq_iff {before after : List Nat} (hi : d.Numbered i n) (hnot : i ∉ before) :
    d.firstNumbered n (before ++ i :: after) = .ok (some i) ↔
      ∀ j ∈ before, ∃ m, d.Numbered j m ∧ m ≠ n := by
  induction before with
  | nil => simp [firstNumbered_cons hi]
  | cons j before ih =>
    obtain ⟨hij, hnot⟩ := not_or.mp (List.mem_cons.not.mp hnot)
    rw [List.forall_mem_cons, ← ih hnot, List.cons_append]
    constructor
    · intro hfound
      obtain ⟨k, hk⟩ := exists_numbered hfound
      rw [firstNumbered_cons hk] at hfound
      split at hfound
      case isTrue => cases hfound; exact absurd rfl hij
      case isFalse hne => exact ⟨⟨k, hk, hne⟩, hfound⟩
    · rintro ⟨⟨k, hk, hne⟩, hfound⟩
      rw [firstNumbered_cons hk, if_neg hne, hfound]

/-- The siblings of a block before it are the blocks that are looked at before it. -/
theorem Drawn.innerPort?_eq_iff (h : Drawn bs d) (hb : bs[i]? = some b) {p : Nat}
    (hparent : b.parent = some p) (hi : d.Numbered i n) :
    d.innerPort? p b.type n = .ok (some i) ↔
      ∀ j c, j < i → bs[j]? = some c → b.Sibling c → ∃ m, d.Numbered j m ∧ m ≠ n := by
  obtain ⟨rest, hrest⟩ : ∃ rest, d.blocks.size = i + (rest + 1) := by
    obtain ⟨hlt, _⟩ := List.getElem?_eq_some_iff.mp hb
    exact ⟨bs.length - i - 1, by rw [h.size_eq]; omega⟩
  obtain ⟨hbparent, hbtype⟩ := h.fits hb
  have hkept : ((d.block i).parent = some p && (d.block i).type = b.type) = true := by
    simp [hbparent, hbtype, hparent]
  rw [innerPort?, hrest, List.range_add, List.range_succ_eq_map, List.map_cons, Nat.add_zero,
    List.filter_append, List.filter_cons, if_pos hkept, firstNumbered_eq_iff hi (by simp)]
  simp only [List.mem_filter, List.mem_range, Bool.and_eq_true, decide_eq_true_eq]
  constructor
  · intro hbefore j c hj hc hs
    obtain ⟨hcparent, hctype⟩ := h.fits hc
    exact hbefore j ⟨hj, by rw [hcparent, hs.1, hparent], by rw [hctype, hs.2]⟩
  · rintro hbefore j ⟨hj, hjparent, hjtype⟩
    obtain ⟨c, hc⟩ : ∃ c, bs[j]? = some c :=
      ⟨_, List.getElem?_eq_getElem (hj.trans (List.getElem?_eq_some_iff.mp hb).1)⟩
    obtain ⟨hcparent, hctype⟩ := h.fits hc
    exact hbefore j c hj hc ⟨by rw [← hcparent, hjparent, hparent], by rw [← hctype, hjtype]⟩

theorem Drawn.numbered (h : Drawn bs d) (hb : bs[i]? = some b) (hauto : b.Automatic) :
    d.Numbered i (b.siblings (bs.take i) + 1) :=
  ⟨.int (b.siblings (bs.take i) + 1), by simp [required, Diagram.param?, h.number i b hb hauto]; rfl, rfl⟩

/-- A block counts itself among the siblings of a later one. -/
theorem siblings_take_lt (hc : bs[j]? = some c) (hs : b.Sibling c) (hj : j < i) :
    c.siblings (bs.take j) < b.siblings (bs.take i) := by
  have hsame : c.Sibling = b.Sibling := by
    funext x
    simp [Draft.Sibling, hs.1, hs.2]
  calc c.siblings (bs.take j)
      < b.siblings (bs.take (j + 1)) := by
        simp [Draft.siblings, hsame, List.take_add_one, hc, hs]
    _ ≤ b.siblings (bs.take i) := (List.take_sublist_take_left hj).countP_le

/-- However blocks are added, a port block without a number gets the one behind the count of its
siblings before it. None of those carries the number without having been given it, and the port of the
subsystem leads to the block exactly if all that were given a number have another one. -/
theorem automatic_number {name : String} {workspace : List (String × Value)}
    (hadd : (emptyDiagram name workspace).addAll bs = .ok d) (hb : bs[i]? = some b)
    (hauto : b.Automatic) (hn : n = b.siblings (bs.take i) + 1) :
    d.Numbered i n ∧
      (∀ j c, j < i → bs[j]? = some c → b.Sibling c → d.Numbered j n → ¬ c.Automatic) ∧
      ∀ p, b.parent = some p → (d.innerPort? p b.type n = .ok (some i) ↔
        ∀ j c, j < i → bs[j]? = some c → b.Sibling c → ¬ c.Automatic →
          ∃ m, d.Numbered j m ∧ m ≠ n) := by
  have h : Drawn bs d := by simpa using (drawn_empty name workspace).addAll hadd
  have hi : d.Numbered i n := hn ▸ h.numbered hb hauto
  have hother (j : Nat) (c : Draft) (hj : j < i) (hc : bs[j]? = some c) (hs : b.Sibling c)
      (hcauto : c.Automatic) : ∃ m, d.Numbered j m ∧ m ≠ n := by
    refine ⟨_, h.numbered hc hcauto, ?_⟩
    have := siblings_take_lt hc hs hj
    omega
  refine ⟨hi, fun j c hj hc hs hjn hcauto => ?_, fun p hp => ?_⟩
  · obtain ⟨m, hm, hne⟩ := hother j c hj hc hs hcauto
    exact hne (hm.unique hjn)
  · rw [h.innerPort?_eq_iff hb hp hi]
    constructor
    · intro hall j c hj hc hs _
      exact hall j c hj hc hs
    · intro hgiven j c hj hc hs
      by_cases hcauto : c.Automatic
      · exact hother j c hj hc hs hcauto
      · exact hgiven j c hj hc hs hcauto

def portPair (given : Int) : List Draft :=
  [{ name := "s", inports := some 2 },
    { name := "x", type := "Inport", parent := some 0, params := [("Port", .int given)] },
    { name := "y", type := "Inport", parent := some 0 }]

/-- Behind the number 1, the second inport gets 2 and is found by it. -/
theorem automatic_number_behind : ∃ d, (emptyDiagram "m" []).addAll (portPair 1) = .ok d ∧
    d.Numbered 2 2 ∧ d.innerPort? 0 "Inport" 2 = .ok (some 2) := by
  have hauto : Draft.Automatic { name := "y", type := "Inport", parent := some 0 } := by
    simp [Draft.Automatic]
  have hadd : (emptyDiagram "m" []).addAll (portPair 1) = .ok _ := rfl
  obtain ⟨hi, _, hfound⟩ := automatic_number (i := 2) (n := 2) hadd rfl hauto (by decide)
  refine ⟨_, rfl, hi, (hfound 0 rfl).mpr fun j c hj hc hs _ => ?_⟩
  obtain rfl | rfl : j = 0 ∨ j = 1 := by omega
  · cases hc
    exact absurd hs.2 (by decide)
  · exact ⟨1, ⟨.int 1, rfl, rfl⟩, by decide⟩

/-- Behind the number 2, the second inport gets 2 as well, and the port of the subsystem leads to the
first. -/
theorem automatic_number_taken : ∃ d, (emptyDiagram "m" []).addAll (portPair 2) = .ok d ∧
    d.Numbered 1 2 ∧ d.Numbered 2 2 ∧ d.innerPort? 0 "Inport" 2 = .ok (some 1) :=
  ⟨_, rfl, ⟨.int 2, rfl, rfl⟩, ⟨.int 2, rfl, rfl⟩, rfl⟩

end Diagram

end Transcription
