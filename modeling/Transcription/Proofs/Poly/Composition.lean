import Transcription.Proofs.Noted
import Transcription.Proofs.Poly.Evaluation

namespace Transcription

namespace System

variable {α : Type} [Scalar α]

/-- The coordinates that a system reads are those that it would be given alone. -/
theorem point_take (xs : List α) {n c : Nat} (hc : c < n) : point (xs.take n) c = point xs c := by
  simp [point_eq_getD, hc]

theorem point_append_left {xs : List α} (ys : List α) {c : Nat} (hc : c < xs.length) :
    point (xs ++ ys) c = point xs c := by
  simp [point_eq_getD, List.getElem?_append_left hc]

theorem point_append_right (xs ys : List α) (c : Nat) :
    point (xs ++ ys) (c + xs.length) = point ys c := by
  simp [point_eq_getD, List.getElem?_append_right]

/-- A system leaves at the first coordinates of a point what it leaves at the whole point. -/
theorem Proper.residual_take {s : System α} (hs : s.Proper) {xs : List α} (h : s.width ≤ xs.length) :
    s.residual (xs.take s.width) = .ok (s.residualAt (point xs)) := by
  have hlength : (xs.take s.width).length = s.width := by simp [h]
  rw [residual_of_length hlength]
  exact congrArg Except.ok (residualAt_congr hs fun c hc => point_take xs hc)

/-- Systems over the same variables leave what each of them leaves. -/
theorem residual_stacked {n : Nat} {ss : List (System α)} (h : ∀ s ∈ ss, s.Proper ∧ s.width ≤ n)
    {xs : List α} (hx : xs.length = n) :
    ∃ values, ss.mapM (fun s => s.residual (xs.take s.width)) = .ok values ∧
      (stacked n ss).residual xs = .ok values.flatten := by
  refine ⟨ss.map fun s => s.residualAt (point xs), ?_, ?_⟩
  · apply except_mapM_eq_ok.mpr
    apply List.forall₂_map_right_iff.mpr
    apply List.forall₂_same.mpr
    intro s hs
    exact (h s hs).1.residual_take (hx ▸ (h s hs).2)
  · have hresidual : (stacked n ss).residual xs = .ok ((stacked n ss).residualAt (point xs)) :=
      residual_of_length hx
    rw [hresidual, residualAt_stacked (fun s hs => (h s hs).1), List.flatMap_def]

/-- Two systems side by side read the two parts of a point. -/
theorem residual_join {s t : System α} (hs : s.Proper) {xs ys : List α} (hx : xs.length = s.width)
    (hy : ys.length = t.width) :
    (s.join t).residual (xs ++ ys) =
      .ok (s.residualAt (point xs) ++ t.residualAt (point ys)) := by
  have hlength : (xs ++ ys).length = (s.join t).width := by simp [join, hx, hy]
  have hleft : s.residualAt (point (xs ++ ys)) = s.residualAt (point xs) :=
    residualAt_congr hs fun c hc => point_append_left ys (hx ▸ hc)
  have hright : (fun c => point (xs ++ ys) (c + s.width)) = point ys := by
    funext c
    rw [← hx, point_append_right]
  rw [residual_of_length hlength, residualAt_join hs, hleft, hright]

omit [Scalar α] in
/-- Points of systems side by side are a point of the systems together. -/
theorem length_flatten_points {ss : List (System α)} {points : List (List α)}
    (h : List.Forall₂ (fun s xs => xs.length = s.width) ss points) :
    points.flatten.length = (directSum ss).width := by
  induction h with
  | nil => rfl
  | cons hx _ ih => simp [directSum_cons, join, hx, ih]

/-- Systems side by side leave what each of them leaves at its part of a point. -/
theorem residual_directSum {ss : List (System α)} (h : ∀ s ∈ ss, s.Proper) {points : List (List α)}
    (hpoints : List.Forall₂ (fun s xs => xs.length = s.width) ss points) :
    ∃ values, (ss.zip points).mapM (fun p => p.1.residual p.2) = .ok values ∧
      (directSum ss).residual points.flatten = .ok values.flatten := by
  induction hpoints with
  | nil => exact ⟨[], rfl, rfl⟩
  | @cons s xs ss points hx hrest ih =>
    obtain ⟨hs, hss⟩ := List.forall_mem_cons.mp h
    obtain ⟨values, hvalues, hsum⟩ := ih hss
    have hflat : points.flatten.length = (directSum ss).width := length_flatten_points hrest
    refine ⟨s.residualAt (point xs) :: values, ?_, ?_⟩
    · rw [List.zip_cons_cons, List.mapM_cons, residual_of_length hx, hvalues]
      rfl
    · rw [residual_of_length hflat] at hsum
      rw [directSum_cons, List.flatten_cons, residual_join hs hx hflat, Except.ok.inj hsum]
      rfl

/-- Composed systems concatenate residuals. Systems over the same variables leave, one after the other,
what each leaves at the first coordinates of a point; systems side by side what each leaves at a point of
its own. Copies of a system are the same systems side by side, matrix for matrix. -/
theorem residuals_concatenate {ss : List (System α)} (h : ∀ s ∈ ss, s.Proper) :
    (∀ n, (∀ s ∈ ss, s.width ≤ n) → ∃ t, combine n ss = .ok t ∧ ∀ xs : List α, xs.length = n →
      ∃ values, ss.mapM (fun s => s.residual (xs.take s.width)) = .ok values ∧
        t.residual xs = .ok values.flatten) ∧
    (∀ points : List (List α), List.Forall₂ (fun s xs => xs.length = s.width) ss points →
      ∃ values, (ss.zip points).mapM (fun p => p.1.residual p.2) = .ok values ∧
        (directSum ss).residual points.flatten = .ok values.flatten) ∧
    ∀ (s : System α) (n : Nat), s.replicate n = directSum (List.replicate n s) := by
  refine ⟨fun n hn => ?_, fun points hpoints => ?_, replicate_eq_directSum⟩
  · refine ⟨stacked n ss, combine_eq hn, fun xs hx => ?_⟩
    exact residual_stacked (fun s hs => ⟨h s hs, hn s hs⟩) hx
  · exact residual_directSum h hpoints

def lacking : List (System ℚ) :=
  [⟨2, [[(0, 1), (1, 1)], []], [[(0, 1), (1, -6)]]⟩, empty 3, ⟨0, [], [[]]⟩, ⟨0, [[]], [[(0, 3)]]⟩]

def lackingPoints : List (List ℚ) := [[2, 3], [1, 1, 1], [], []]

/-- Over three variables they leave `0`, `0` and `3` where `a * b` is six, and so they do side by
side. -/
theorem residuals_concatenate_lacking :
    (∀ s ∈ lacking, s.Proper) ∧ (∀ s ∈ lacking, s.width ≤ 3) ∧
      List.Forall₂ (fun s xs => xs.length = s.width) lacking lackingPoints ∧
      (∃ t, combine 3 lacking = .ok t ∧
        ∃ values, lacking.mapM (fun s => s.residual ([2, 3, 5].take s.width)) = .ok values ∧
          t.residual [2, 3, 5] = .ok values.flatten ∧ values = [[0], [], [0], [3]]) ∧
      (∃ values, (lacking.zip lackingPoints).mapM (fun p => p.1.residual p.2) = .ok values ∧
        (directSum lacking).residual [2, 3, 1, 1, 1] = .ok values.flatten ∧
          values = [[0], [], [0], [3]]) ∧
      (empty 3 : System ℚ).replicate 2 = directSum [empty 3, empty 3] := by
  have hproper : ∀ s ∈ lacking, s.Proper := by
    simp only [lacking, List.forall_mem_cons]
    refine ⟨⟨?_, ?_⟩, proper_empty 3, ⟨?_, ?_⟩, ⟨?_, ?_⟩, nofun⟩
    all_goals simp only [Row.Within]
    all_goals decide
  have hwidth : ∀ s ∈ lacking, s.width ≤ 3 := by simp [lacking, empty]
  have hpoints : List.Forall₂ (fun s xs => xs.length = s.width) lacking lackingPoints := by
    simp [lacking, lackingPoints, empty]
  obtain ⟨hcombine, hsum, hcopies⟩ := residuals_concatenate hproper
  obtain ⟨t, ht, hresidual⟩ := hcombine 3 hwidth
  obtain ⟨values, hvalues, htogether⟩ := hresidual [2, 3, 5] rfl
  obtain ⟨values', hvalues', hbeside⟩ := hsum lackingPoints hpoints
  refine ⟨hproper, hwidth, hpoints, ⟨t, ht, values, hvalues, htogether, ?_⟩,
    ⟨values', hvalues', hbeside, ?_⟩, hcopies (empty 3) 2⟩
  · exact (Except.ok.inj hvalues).symm.trans (by decide +kernel)
  · exact (Except.ok.inj hvalues').symm.trans (by decide +kernel)

end System

end Transcription
