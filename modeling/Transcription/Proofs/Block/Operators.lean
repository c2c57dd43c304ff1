import Transcription.Proofs.Exact
import Transcription.Proofs.Noted
import Transcription.Block.Operators

namespace Transcription

namespace Operators

/-- The operators that a value spells. A number, or a text of digits, counts inputs that all have the
first symbol. In any other text every character is an operator, bars apart. -/
def spelled (first : Char) : Value → List Char
  | .bool b => List.replicate b.toNat first
  | .int k => List.replicate k.toNat first
  | .text s =>
    if !s.isEmpty && s.all Digit.isDigit then List.replicate ((Numeral.toInt? s).getD 0).toNat first
    else s.toList.filter (· != '|')
  | v => v.plain.toList.filter (· != '|')

def sign? {α : Type} [LinearOrder α] [ExactScalar α] : Char → Option α
  | '+' => some 1
  | '-' => some (-1)
  | _ => none

def exponent? : Char → Option ℤ
  | '*' => some 1
  | '/' => some (-1)
  | _ => none

/-- A list has an index of 64 bits and eight bytes for each member. -/
def Listable (k : ℤ) : Prop := -2 ^ 63 ≤ k ∧ k < 2 ^ 60

/-- What counts operators, a number or a text of digits, counts so many that they can be listed. -/
def Countable : Value → Prop
  | .int k => Listable k
  | .text s => s.isEmpty = false → s.all Digit.isDigit = true → ∃ k, Numeral.toInt? s = some k ∧ Listable k
  | _ => True

variable {first second : Char} {symbols ops : List Char} {v : Value} {n : Nat}

theorem listed_eq_ok {k l : ℤ} : listed k = .ok l ↔ k = l ∧ Listable k := by
  have hhigh : Int.pow 2 63 = 2 ^ 63 := rfl
  have hlow : Int.pow 2 60 = 2 ^ 60 := rfl
  unfold listed Listable
  rw [hhigh, hlow]
  split_ifs with hindex hroom
  · simp only [Bool.or_eq_true, decide_eq_true_eq] at hindex
    refine iff_of_false nofun ?_
    omega
  · refine iff_of_false nofun ?_
    omega
  · simp only [Bool.or_eq_true, decide_eq_true_eq, not_or] at hindex
    refine ⟨fun h => ⟨except_pure_eq_ok.mp h, ?_⟩, fun h => except_pure_eq_ok.mpr h.1⟩
    omega

/-- What can be counted is what can be read. -/
theorem exists_count? : (∃ count, count? v = .ok count) ↔ Countable v := by
  have hlisted (k : ℤ) : (∃ count, some <$> listed k = .ok count) ↔ Listable k := by
    simp only [except_map_eq_ok, listed_eq_ok]
    exact ⟨fun ⟨_, _, h, _⟩ => h.2, fun h => ⟨_, _, ⟨rfl, h⟩, rfl⟩⟩
  cases v with
  | bool b =>
    refine iff_of_true ((hlisted _).mpr ?_) trivial
    cases b <;> exact ⟨by decide, by decide⟩
  | int k => exact hlisted k
  | text s =>
    simp only [count?, Value.integer?, Countable]
    split_ifs with hdigits
    · simp only [Bool.and_eq_true, Bool.not_eq_true'] at hdigits
      split
      · rename_i k hk
        rw [hlisted k]
        exact ⟨fun h _ _ => ⟨k, hk, h⟩, fun h => by
          obtain ⟨l, hl, hlistable⟩ := h hdigits.1 hdigits.2
          cases hk.symm.trans hl
          exact hlistable⟩
      · rename_i hnone
        refine iff_of_false nofun fun h => ?_
        obtain ⟨l, hl, _⟩ := h hdigits.1 hdigits.2
        cases hnone.symm.trans hl
    · refine iff_of_true ⟨_, rfl⟩ fun hempty hall => ?_
      exact absurd (by rw [hempty, hall]; rfl) hdigits
  | _ => exact iff_of_true ⟨_, rfl⟩ trivial

/-- What counts inputs spells the first symbol as often. -/
theorem spelled_of_count {k : ℤ} (h : count? v = .ok (some k)) :
    spelled first v = List.replicate k.toNat first := by
  have hlisted {l : ℤ} (hl : some <$> listed l = .ok (some k)) : k = l := by
    obtain ⟨m, hm, hk⟩ := except_map_eq_ok.mp hl
    exact (Option.some.inj hk).symm.trans (listed_eq_ok.mp hm).1.symm
  cases v with
  | bool b =>
    rw [hlisted h]
    cases b <;> rfl
  | int l =>
    rw [hlisted h]
    rfl
  | text s =>
    simp only [count?, Value.integer?] at h
    rw [spelled]
    split_ifs at h ⊢ with hdigits
    split at h
    · rename_i l hl
      rw [hlisted h, hl]
      rfl
    · cases h
    · cases h
  | _ => cases h

theorem spelled_of_text (h : count? v = .ok none) :
    spelled first v = v.plain.toList.filter (· != '|') := by
  have hlisted {l : ℤ} (hl : some <$> listed l = .ok none) : False := by
    obtain ⟨m, _, hm⟩ := except_map_eq_ok.mp hl
    cases hm
  cases v with
  | bool b => exact (hlisted h).elim
  | int l => exact (hlisted h).elim
  | text s =>
    simp only [count?, Value.integer?] at h
    rw [spelled]
    split_ifs at h ⊢ with hdigits
    · split at h
      · exact (hlisted h).elim
      · cases h
    · rfl
  | _ => rfl

/-- There are as many operators as inputs. -/
theorem length_parse {spec : Value} {n : Nat} {symbols ops : List Char}
    (h : parse spec n symbols = .ok ops) : ops.length = n := by
  unfold parse at h
  obtain ⟨count, _, h⟩ := except_bind_eq_ok.mp h
  cases count with
  | some k =>
    cases symbols with
    | nil => cases h
    | cons first symbols =>
      simp only [pure_bind] at h
      split at h
      · cases h
        exact List.length_replicate
      · cases h
  | none =>
    dsimp only at h
    split at h
    · cases h
    split at h
    · cases h
    · rename_i hlength
      cases h
      simpa using hlength

/-- Operators that are read are those that the value spells, all of them symbols. -/
theorem spelled_of_parse (h : parse v n (first :: symbols) = .ok ops) :
    spelled first v = ops ∧ ∀ c ∈ ops, c ∈ first :: symbols := by
  unfold parse at h
  obtain ⟨count, hcount, h⟩ := except_bind_eq_ok.mp h
  cases count with
  | some k =>
    simp only [pure_bind] at h
    split at h
    · rename_i hn
      cases h
      have hk : k.toNat = n := by
        simp only [Bool.or_eq_true, Bool.and_eq_true, decide_eq_true_eq] at hn
        omega
      refine ⟨hk ▸ spelled_of_count hcount, fun c hc => ?_⟩
      rw [List.eq_of_mem_replicate hc]
      exact List.mem_cons_self
    · cases h
  | none =>
    dsimp only at h
    split at h
    · cases h
    rename_i hknown
    rw [Bool.not_eq_true, Bool.not_eq_false', List.isEmpty_iff] at hknown
    split at h
    · cases h
    cases h
    refine ⟨spelled_of_text hcount, fun c hc => ?_⟩
    by_contra hunknown
    have hmem := List.mem_filter (p := fun c => !(first :: symbols).contains c).mpr
      ⟨hc, by simpa using hunknown⟩
    rw [hknown] at hmem
    cases hmem

/-- Operators for no inputs can be read if none are spelled. -/
theorem exists_parse_zero (hv : Countable v) :
    (∃ ops, parse v 0 (first :: symbols) = .ok ops) ↔ spelled first v = [] := by
  constructor
  · rintro ⟨ops, hops⟩
    rw [(spelled_of_parse hops).1]
    exact List.length_eq_zero_iff.mp (length_parse hops)
  · intro hnil
    obtain ⟨count, hcount⟩ := exists_count?.mpr hv
    cases count with
    | some k =>
      have hk : k ≤ 0 := by
        rw [spelled_of_count hcount, List.replicate_eq_nil_iff] at hnil
        omega
      refine ⟨[], ?_⟩
      simp only [parse, hcount]
      exact if_pos (by simp [hk])
    | none =>
      rw [spelled_of_text hcount] at hnil
      refine ⟨[], ?_⟩
      simp only [parse, hcount, hnil]
      rfl

/-- Of two symbols each operator is read as one of two numbers. -/
theorem mapM_spelled {β : Type} {f : Char → Option β} {a b : β} (hfirst : f first = some a)
    (hsecond : f second = some b) (h : parse v n [first, second] = .ok ops) :
    (spelled first v).mapM f = some (ops.map fun c => if c = first then a else b) := by
  obtain ⟨hspelled, hsymbols⟩ := spelled_of_parse h
  rw [hspelled, option_mapM_eq_some, List.forall₂_map_right_iff]
  refine List.forall₂_same.mpr fun c hc => ?_
  split
  · rename_i heq
    rw [heq, hfirst]
  · rename_i hne
    rw [List.mem_singleton.mp ((List.mem_cons.mp (hsymbols c hc)).resolve_left hne), hsecond]

theorem mapM_sign? {α : Type} [LinearOrder α] [ExactScalar α] (h : parse v n ['+', '-'] = .ok ops) :
    (spelled '+' v).mapM sign? = some (ops.map fun c => if c = '+' then (1 : α) else -1) :=
  mapM_spelled (f := sign?) rfl rfl h

theorem mapM_exponent? (h : parse v n ['*', '/'] = .ok ops) :
    (spelled '*' v).mapM exponent? = some (ops.map fun c => if c = '*' then 1 else -1) :=
  mapM_spelled (f := exponent?) rfl rfl h

end Operators

end Transcription
