import Transcription.Value.Equality

namespace Transcription.Value

@[simp]
theorem isWord_text (s t : String) : (text s).isWord t = .ok (s = t) := rfl

mutual

/-- Values that can be looked up hold no arrays, so that it can be said whether they are equal. -/
theorem exists_same : ∀ v w : Value, v.isKey = true → w.isKey = true → ∃ b, v.same w = .ok b
  | tuple vs, w, hv, hw => by
    cases w with
    | tensor | sparse | list => cases hw
    | tuple ws => exact exists_sameAll vs ws hv hw
    | _ => exact ⟨_, rfl⟩
  | other (.set _), _, hv, _ | other (.dict _), _, hv, _ => nomatch hv
  | list _, _, hv, _ | tensor _, _, hv, _ | sparse _, _, hv, _ => nomatch hv
  | none, w, _, hw | bool _, w, _, hw | int _, w, _, hw | float _, w, _, hw | complex _ _, w, _, hw
  | text _, w, _, hw => by
    cases w with
    | tensor | sparse | list => cases hw
    | _ => exact ⟨_, rfl⟩
  | other (.bytes _), w, _, hw | other .ellipsis, w, _, hw => by
    cases w with
    | tensor | sparse | list => cases hw
    | other o => cases o <;> exact ⟨_, rfl⟩
    | _ => exact ⟨_, rfl⟩

theorem exists_sameAll : ∀ vs ws : List Value, areKeys vs = true → areKeys ws = true →
    ∃ b, sameAll vs ws = .ok b
  | [], [], _, _ | [], _ :: _, _, _ | _ :: _, [], _, _ => ⟨_, rfl⟩
  | v :: vs, w :: ws, hvs, hws => by
    rw [areKeys, Bool.and_eq_true] at hvs hws
    obtain ⟨b, hb⟩ := exists_same v w hvs.1 hws.1
    rw [sameAll, hb]
    cases b with
    | true => exact exists_sameAll vs ws hvs.2 hws.2
    | false => exact ⟨_, rfl⟩

end

theorem exists_sameItself {v : Value} (h : v.isKey = true) : ∃ b, v.sameItself = .ok b := by
  unfold sameItself
  split
  · exact ⟨_, rfl⟩
  · exact ⟨_, rfl⟩
  · exact ⟨_, rfl⟩
  · exact exists_same _ _ h h

end Transcription.Value
