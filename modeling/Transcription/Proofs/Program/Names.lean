import Mathlib
import Transcription.Program.Basic

namespace Transcription

section Digits

theorem isDigit_toDigits {n : Nat} {c : Char} (h : c ∈ Nat.toDigits 10 n) : c.isDigit = true :=
  Nat.isDigit_of_mem_toDigits (by decide) (by decide) h

theorem toDigits_injective {m n : Nat} (h : Nat.toDigits 10 m = Nat.toDigits 10 n) : m = n := by
  refine Nat.repr_injective (String.toList_inj.mp ?_)
  rw [Nat.toList_repr, Nat.toList_repr, h]

/-- The digits at the end of a text, the last one first. -/
theorem takeWhile_reverse_toDigits (cs : List Char) {c : Char} (hc : c.isDigit = false) (n : Nat) :
    (cs ++ c :: Nat.toDigits 10 n).reverse.takeWhile Char.isDigit = (Nat.toDigits 10 n).reverse := by
  rw [List.reverse_append, List.reverse_cons, List.append_assoc, List.takeWhile_append_of_pos]
  · simp [hc]
  · exact fun d hd => isDigit_toDigits (List.mem_reverse.mp hd)

/-- A text followed by a number shows both, as long as the text does not end in a digit. -/
theorem numbered_inj {as bs : List Char} {c : Char} (hc : c.isDigit = false) {m n : Nat}
    (h : as ++ c :: Nat.toDigits 10 m = bs ++ c :: Nat.toDigits 10 n) : as = bs ∧ m = n := by
  have hdigits : Nat.toDigits 10 m = Nat.toDigits 10 n := by
    have := takeWhile_reverse_toDigits as hc m
    rw [h, takeWhile_reverse_toDigits bs hc n] at this
    exact (List.reverse_injective this).symm
  rw [hdigits] at h
  exact ⟨List.append_cancel_right h, toDigits_injective hdigits⟩

end Digits

namespace Program

section Wires

variable {α : Type} [Scalar α]

theorem toList_wireName (d : Diagram) (w : Wire α) (step stage : Nat) :
    (wireName d w step stage).toList = ((((d.path w.port.block).toList ++ ".ou".toList ++
      't' :: Nat.toDigits 10 w.port.number) ++ ".".toList ++ 't' :: Nat.toDigits 10 step) ++
      ".id".toList ++ 'x' :: Nat.toDigits 10 (w.sub + 1)) ++ ".mino".toList ++
      'r' :: Nat.toDigits 10 stage := by
  have htext (s : String) : toString s = s := rfl
  simp [wireName, htext, String.toList_append, Nat.toString_eq_repr, Nat.toList_repr]

/-- A name shows the path of its block and all of its numbers. -/
theorem wireName_inj {d : Diagram} {w v : Wire α} {step step' stage stage' : Nat}
    (h : wireName d w step stage = wireName d v step' stage') :
    d.path w.port.block = d.path v.port.block ∧ w.port.number = v.port.number ∧ w.sub = v.sub ∧
      step = step' ∧ stage = stage' := by
  have h := String.toList_inj.mpr h
  rw [toList_wireName, toList_wireName] at h
  obtain ⟨h, hstage⟩ := numbered_inj (by decide) h
  obtain ⟨h, hsub⟩ := numbered_inj (by decide) (List.append_cancel_right h)
  obtain ⟨h, hstep⟩ := numbered_inj (by decide) (List.append_cancel_right h)
  obtain ⟨h, hnumber⟩ := numbered_inj (by decide) (List.append_cancel_right h)
  exact ⟨String.toList_inj.mp (List.append_cancel_right h), hnumber, Nat.succ.inj hsub, hstep, hstage⟩

/-- A name has a semicolon only if the path of its block has one. -/
theorem semicolon_notMem_wireName {d : Diagram} {w : Wire α}
    (h : ';' ∉ (d.path w.port.block).toList) (step stage : Nat) :
    ';' ∉ (wireName d w step stage).toList := by
  have hdigits (n : Nat) : ';' ∉ Nat.toDigits 10 n := fun hn => absurd (isDigit_toDigits hn) (by decide)
  rw [toList_wireName]
  simp [h, hdigits]

end Wires

theorem splitNames_eq (cs : List Char) : splitNames cs = cs.splitOn ';' := by
  induction cs with
  | nil => rfl
  | cons c cs ih =>
    rw [splitNames, ih, List.splitOn, List.splitOn, List.splitOnP_cons_eq_if_modifyHead]
    by_cases hc : c = ';'
    · simp [hc]
    · rw [if_neg hc, if_neg (by simpa using hc)]
      cases hs : cs.splitOnP (· == ';') with
      | nil => exact absurd hs (List.splitOnP_ne_nil _ _)
      | cons s rest => rfl

/-- Names without a semicolon are the parts of the name they are joined to. -/
theorem nameParts_joinNames {names : List String} (hne : names ≠ [])
    (h : ∀ s ∈ names, ';' ∉ s.toList) : nameParts (joinNames names) = names := by
  have hplain : ∀ cs ∈ names.map String.toList, ';' ∉ cs := List.forall_mem_map.mpr h
  have hsplit := List.splitOn_intercalate ';' hplain (by simpa using hne)
  rw [nameParts, splitNames_eq, joinNames, String.toList_intercalate]
  refine (congrArg (List.map String.ofList) hsplit).trans ?_
  simp [Function.comp_def]

variable {α : Type} {p : Program α}

/-- A program whose variables have names, and no two of them a common one. -/
structure Named (p : Program α) : Prop where
  some_name : ∀ names ∈ p.names, names ≠ []
  plain : ∀ names ∈ p.names, ∀ s ∈ names, ';' ∉ s.toList
  apart : ∀ (i j : Nat) (ns ms : List String) (s : String), p.names[i]? = some ns →
    p.names[j]? = some ms → s ∈ ns → s ∈ ms → i = j

/-- A name is looked up at the variable that has it. -/
theorem Named.index?_eq_some (h : p.Named) {name : String} {i : Nat} :
    p.index? name = some i ↔ ∃ names, p.names[i]? = some names ∧ name ∈ names := by
  have hcontains : ∀ j (hj : j < p.names.length),
      (nameParts (joinNames p.names[j])).contains name = true ↔ name ∈ p.names[j] := by
    intro j hj
    have hmem := List.getElem_mem hj
    rw [nameParts_joinNames (h.some_name _ hmem) (h.plain _ hmem), List.contains_iff_mem]
  rw [index?, fullNames, List.findIdx?_eq_some_iff_getElem]
  simp only [List.length_map, List.getElem_map]
  constructor
  · intro ⟨hi, hname, _⟩
    exact ⟨_, List.getElem?_eq_getElem hi, (hcontains i hi).mp hname⟩
  · intro ⟨names, hi, hname⟩
    obtain ⟨hlt, rfl⟩ := List.getElem?_eq_some_iff.mp hi
    refine ⟨hlt, (hcontains i hlt).mpr hname, fun j hj hother => ?_⟩
    have hj' := Nat.lt_trans hj hlt
    have := h.apart i j _ _ name hi (List.getElem?_eq_getElem hj') hname
      ((hcontains j hj').mp hother)
    omega

theorem index_eq_ok {name : String} {i : Nat} : p.index name = .ok i ↔ p.index? name = some i := by
  rw [index]
  cases p.index? name with
  | none => exact ⟨nofun, nofun⟩
  | some j =>
    exact ⟨fun h => congrArg some (Except.ok.inj h), fun h => congrArg Except.ok (Option.some.inj h)⟩

def lastValue (p : Program α) (fill : α) (values : List (String × α)) (i : Nat) : α :=
  ((values.filter fun v => p.index? v.1 = some i).getLast?.map (·.2)).getD fill

theorem lastValue_cons (fill : α) (v : String × α) (values : List (String × α)) (i : Nat) :
    p.lastValue fill (v :: values) i =
      p.lastValue (if p.index? v.1 = some i then v.2 else fill) values i := by
  rw [lastValue, lastValue, List.filter_cons]
  by_cases hv : p.index? v.1 = some i
  · simp only [hv, decide_true, if_true, List.getLast?_cons]
    cases (values.filter fun v => p.index? v.1 = some i).getLast? <;> rfl
  · simp [hv]

/-- Values given under known names, one after the other, over those that stood there before. -/
theorem foldlM_set {values : List (String × α)} (h : ∀ v ∈ values, ∃ i, p.index? v.1 = some i)
    (xs : List α) : ∃ ys,
      values.foldlM (fun x (v : String × α) => do return x.set (← p.index v.1) v.2) xs =
        (.ok ys : Except Fault (List α)) ∧
      ys.length = xs.length ∧
      ∀ (i : Nat) a, xs[i]? = some a → ys[i]? = some (p.lastValue a values i) := by
  induction values generalizing xs with
  | nil => exact ⟨xs, rfl, rfl, fun i a ha => ha⟩
  | cons v values ih =>
    obtain ⟨⟨j, hj⟩, hvalues⟩ := List.forall_mem_cons.mp h
    obtain ⟨ys, hys, hlength, hget⟩ := ih hvalues (xs.set j v.2)
    refine ⟨ys, ?_, hlength.trans List.length_set, fun i a ha => ?_⟩
    · rw [List.foldlM_cons, index_eq_ok.mpr hj]
      exact hys
    · rw [lastValue_cons, hj]
      have hlt := (List.getElem?_eq_some_iff.mp ha).1
      by_cases hi : j = i
      · subst hi
        rw [if_pos rfl]
        exact hget j v.2 (List.getElem?_set_self hlt)
      · rw [if_neg fun he => hi (Option.some.inj he)]
        exact hget i a ((List.getElem?_set_ne hi).trans ha)

/-- A point made of named values has at each variable the last value under a name of it. -/
theorem point_eq {values : List (String × α)} (h : ∀ v ∈ values, ∃ i, p.index? v.1 = some i)
    (fill : α) : ∃ xs, p.point fill values = .ok xs ∧ xs.length = p.size ∧
      ∀ i < p.size, xs[i]? = some (p.lastValue fill values i) := by
  obtain ⟨xs, hxs, hlength, hget⟩ := foldlM_set h (List.replicate p.size fill)
  exact ⟨xs, hxs, hlength.trans List.length_replicate,
    fun i hi => hget i fill (List.getElem?_replicate_of_lt hi)⟩

end Program

end Transcription
