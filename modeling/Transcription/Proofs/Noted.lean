import Mathlib
import Transcription.Noted

namespace Transcription

theorem except_bind_eq_ok {ε β γ : Type} {x : Except ε β} {f : β → Except ε γ} {c : γ} :
    x >>= f = .ok c ↔ ∃ b, x = .ok b ∧ f b = .ok c := by
  cases x with
  | error e =>
    constructor
    · intro h
      cases h
    · rintro ⟨_, h, _⟩
      cases h
  | ok b =>
    constructor
    · intro h
      exact ⟨b, rfl, h⟩
    · rintro ⟨_, h, k⟩
      cases h
      exact k

theorem except_pure_eq_ok {ε β : Type} {b c : β} : (pure b : Except ε β) = .ok c ↔ b = c := by
  simp [pure, Except.pure]

theorem except_map_eq_ok {ε β γ : Type} {x : Except ε β} {f : β → γ} {c : γ} :
    f <$> x = .ok c ↔ ∃ b, x = .ok b ∧ f b = c := by
  cases x <;> simp [Functor.map, Except.map]

theorem except_mapM_eq_ok {ε β γ : Type} {f : β → Except ε γ} {xs : List β} {ys : List γ} :
    xs.mapM f = .ok ys ↔ List.Forall₂ (fun x y => f x = .ok y) xs ys := by
  induction xs generalizing ys with
  | nil => rw [List.mapM_nil, except_pure_eq_ok, List.forall₂_nil_left_iff, eq_comm]
  | cons x xs ih =>
    simp only [List.mapM_cons, except_bind_eq_ok, except_pure_eq_ok, ih]
    constructor
    · rintro ⟨y, hy, ys, hys, rfl⟩
      exact .cons hy hys
    · rintro (_ | ⟨hy, hys⟩)
      exact ⟨_, hy, _, hys, rfl⟩

theorem option_mapM_eq_some {β γ : Type} {f : β → Option γ} {xs : List β} {ys : List γ} :
    xs.mapM f = some ys ↔ List.Forall₂ (fun x y => f x = some y) xs ys := by
  induction xs generalizing ys with
  | nil => simp [eq_comm]
  | cons x xs ih =>
    simp only [List.mapM_cons, Option.bind_eq_bind, Option.bind_eq_some_iff, ih]
    constructor
    · intro ⟨y, hy, zs, hzs, h⟩
      cases h
      exact .cons hy hzs
    · intro h
      cases h with
      | cons hy hys => exact ⟨_, hy, _, hys, rfl⟩

theorem option_mapM_isSome {β γ : Type} {f : β → Option γ} {xs : List β}
    (h : ∀ x ∈ xs, (f x).isSome = true) : ∃ ys, xs.mapM f = some ys := by
  induction xs with
  | nil => exact ⟨[], rfl⟩
  | cons x xs ih =>
    obtain ⟨hx, hxs⟩ := List.forall_mem_cons.mp h
    obtain ⟨y, hy⟩ := Option.isSome_iff_exists.mp hx
    obtain ⟨ys, hys⟩ := ih hxs
    exact ⟨y :: ys, by simp [List.mapM_cons, hy, hys]⟩

/-- Lists with related members at every place are related. -/
theorem forall₂_of_getElem? {β γ : Type} {R : β → γ → Prop} {xs : List β} {ys : List γ}
    (hlength : xs.length = ys.length)
    (h : ∀ (i : Nat) (x : β) (y : γ), xs[i]? = some x → ys[i]? = some y → R x y) :
    List.Forall₂ R xs ys :=
  List.forall₂_iff_get.mpr ⟨hlength, fun i hx hy =>
    h i _ _ (List.getElem?_eq_getElem hx) (List.getElem?_eq_getElem hy)⟩

theorem forall₂_exists_right {β γ : Type} {R : β → γ → Prop} {xs : List β} {ys : List γ}
    (h : List.Forall₂ R xs ys) {x : β} (hx : x ∈ xs) : ∃ y ∈ ys, R x y := by
  induction h with
  | nil => cases hx
  | cons hxy hrest ih =>
    rcases List.mem_cons.mp hx with rfl | hx
    · exact ⟨_, List.mem_cons_self, hxy⟩
    · obtain ⟨y, hy, hr⟩ := ih hx
      exact ⟨y, List.mem_cons_of_mem _ hy, hr⟩

theorem forall₂_exists_left {β γ : Type} {R : β → γ → Prop} {xs : List β} {ys : List γ}
    (h : List.Forall₂ R xs ys) {y : γ} (hy : y ∈ ys) : ∃ x ∈ xs, R x y :=
  forall₂_exists_right (List.Forall₂.flip h) hy

theorem forall₂_comp {β γ δ : Type} {R : β → γ → Prop} {S : γ → δ → Prop} {xs : List β} {ys : List γ}
    {zs : List δ} (h : List.Forall₂ R xs ys) (k : List.Forall₂ S ys zs) :
    List.Forall₂ (fun x z => ∃ y, R x y ∧ S y z) xs zs := by
  induction h generalizing zs with
  | nil =>
    cases k
    exact .nil
  | cons hxy _ ih =>
    cases k with
    | cons hyz k => exact .cons ⟨_, hxy, hyz⟩ (ih k)

theorem except_mapM_mem {ε β γ : Type} {f : β → Except ε γ} {xs : List β} {ys : List γ}
    (h : xs.mapM f = .ok ys) {y : γ} (hy : y ∈ ys) : ∃ x ∈ xs, f x = .ok y :=
  forall₂_exists_left (except_mapM_eq_ok.mp h) hy

theorem except_mapM_of_mem {ε β γ : Type} {f : β → Except ε γ} {xs : List β} {ys : List γ}
    (h : xs.mapM f = .ok ys) {x : β} (hx : x ∈ xs) : ∃ y ∈ ys, f x = .ok y :=
  forall₂_exists_right (except_mapM_eq_ok.mp h) hx

/-- What stands at a place was made from what stood there. -/
theorem except_mapM_getElem? {ε β γ : Type} {f : β → Except ε γ} {xs : List β} {ys : List γ}
    (h : xs.mapM f = .ok ys) {i : Nat} {y : γ} (hy : ys[i]? = some y) :
    ∃ x, xs[i]? = some x ∧ f x = .ok y := by
  have hall := except_mapM_eq_ok.mp h
  obtain ⟨hi, rfl⟩ := List.getElem?_eq_some_iff.mp hy
  have hi' : i < xs.length := hall.length_eq ▸ hi
  exact ⟨xs[i], List.getElem?_eq_getElem hi', hall.get hi' hi⟩

/-- What every step keeps is the same of all results. -/
theorem except_mapM_map {ε β γ δ : Type} {f : β → Except ε γ} {g : β → δ} {g' : γ → δ}
    (hf : ∀ x y, f x = .ok y → g' y = g x) {xs : List β} {ys : List γ} (h : xs.mapM f = .ok ys) :
    ys.map g' = xs.map g := by
  induction except_mapM_eq_ok.mp h with
  | nil => rfl
  | cons hxy hrest ih =>
    rw [List.map_cons, List.map_cons, hf _ _ hxy, ih (except_mapM_eq_ok.mpr hrest)]

theorem except_mapM_ok {ε β γ : Type} {f : β → Except ε γ} {xs : List β}
    (h : ∀ x ∈ xs, ∃ y, f x = .ok y) : ∃ ys, xs.mapM f = .ok ys := by
  induction xs with
  | nil => exact ⟨[], rfl⟩
  | cons x xs ih =>
    obtain ⟨⟨y, hy⟩, hxs⟩ := List.forall_mem_cons.mp h
    obtain ⟨ys, hys⟩ := ih hxs
    exact ⟨y :: ys, except_mapM_eq_ok.mpr (.cons hy (except_mapM_eq_ok.mp hys))⟩

namespace Noted

variable {α β γ : Type}

theorem id_map (x : Noted α β) : id <$> x = x := by
  obtain ⟨notes, _ | b⟩ := x <;> simp [Functor.map, andThen]

theorem pure_bind (b : β) (f : β → Noted α γ) : pure b >>= f = f b := by
  simp [pure, bind, andThen]

theorem bind_assoc {δ : Type} (x : Noted α β) (f : β → Noted α γ) (g : γ → Noted α δ) :
    x >>= f >>= g = x >>= fun b => f b >>= g := by
  obtain ⟨notes, _ | b⟩ := x
  · rfl
  · simp only [bind, andThen]
    cases (f b).result <;> simp [List.append_assoc]

instance : LawfulMonad (Noted α) := LawfulMonad.mk' _ id_map pure_bind bind_assoc

def Quiet (x : Noted α β) (b : β) : Prop := x = ⟨[], .ok b⟩

theorem result_bind {x : Noted α β} {f : β → Noted α γ} {c : γ} :
    (x >>= f).result = .ok c ↔ ∃ b, x.result = .ok b ∧ (f b).result = .ok c := by
  obtain ⟨notes, e | b⟩ := x
  · constructor
    · intro h
      cases h
    · rintro ⟨_, h, _⟩
      cases h
  · constructor
    · intro h
      exact ⟨b, rfl, h⟩
    · rintro ⟨_, h, k⟩
      cases h
      exact k

theorem quiet_pure {b c : β} : Quiet (pure b : Noted α β) c ↔ b = c := by
  simp [Quiet, pure]

theorem quiet_ofResult {r : Except Fault β} {b : β} : Quiet (ofResult r : Noted α β) b ↔ r = .ok b := by
  simp [Quiet, ofResult]

theorem quiet_lift {r : Except Fault β} {b : β} :
    Quiet (liftM r : Noted α β) b ↔ r = .ok b := quiet_ofResult

theorem not_quiet_note {f : Finding α} {b : Option String} {u : Unit} : ¬ Quiet (note f b) u := by
  simp [Quiet, note]

theorem lift_of_ok {r : Except Fault β} {b : β} (h : r = .ok b) :
    (liftM r : Noted α β) = pure b := by
  rw [h]
  rfl

/-- Nothing is noted only if no step notes anything. -/
theorem quiet_bind {x : Noted α β} {f : β → Noted α γ} {c : γ} :
    Quiet (x >>= f) c ↔ ∃ b, Quiet x b ∧ Quiet (f b) c := by
  obtain ⟨notes, e | b⟩ := x
  · constructor
    · intro h
      cases congrArg Noted.result h
    · rintro ⟨_, h, _⟩
      cases congrArg Noted.result h
  · simp only [Quiet, bind, andThen, mk.injEq, List.append_eq_nil_iff, Except.ok.injEq]
    constructor
    · rintro ⟨⟨h, k⟩, hr⟩
      exact ⟨b, ⟨h, rfl⟩, by cases hf : f b; simp_all⟩
    · rintro ⟨_, ⟨h, rfl⟩, hf⟩
      simp [h, hf]

theorem quiet_mapM {f : β → Noted α γ} {xs : List β} {ys : List γ} :
    Quiet (xs.mapM f) ys ↔ List.Forall₂ (fun x y => Quiet (f x) y) xs ys := by
  induction xs generalizing ys with
  | nil => simp [quiet_pure, eq_comm]
  | cons x xs ih =>
    simp only [List.mapM_cons, quiet_bind, quiet_pure, ih]
    constructor
    · rintro ⟨y, hy, ys, hys, rfl⟩
      exact .cons hy hys
    · rintro (_ | ⟨hy, hys⟩)
      exact ⟨_, hy, _, hys, rfl⟩

theorem quiet_mapM_map {f : β → Noted α γ} {g : β → γ} {xs : List β}
    (h : ∀ x ∈ xs, (f x).Quiet (g x)) : (xs.mapM f).Quiet (xs.map g) :=
  quiet_mapM.mpr (List.forall₂_map_right_iff.mpr (List.forall₂_same.mpr h))

theorem quiet_forM {f : β → Noted α Unit} {xs : List β} :
    Quiet (xs.forM f) () ↔ ∀ x ∈ xs, Quiet (f x) () := by
  induction xs with
  | nil => simp [quiet_pure]
  | cons x xs ih =>
    change (f x >>= fun _ => xs.forM f).Quiet () ↔ _
    rw [quiet_bind, List.forall_mem_cons, ← ih]
    constructor
    · rintro ⟨⟨⟩, h, k⟩
      exact ⟨h, k⟩
    · rintro ⟨h, k⟩
      exact ⟨(), h, k⟩

/-- A step that succeeds passes its notes on. -/
theorem bind_eq {x : Noted α β} {f : β → Noted α γ} {b : β} (h : x.result = .ok b) :
    x >>= f = ⟨x.notes ++ (f b).notes, (f b).result⟩ := by
  simp [bind, andThen, h]

/-- Steps that all succeed note what each of them notes. -/
theorem mapM_eq {f : β → Noted α γ} {g : β → γ} {xs : List β}
    (h : ∀ x ∈ xs, (f x).result = .ok (g x)) :
    xs.mapM f = ⟨xs.flatMap fun x => (f x).notes, .ok (xs.map g)⟩ := by
  induction xs with
  | nil => rfl
  | cons x xs ih =>
    obtain ⟨hx, hxs⟩ := List.forall_mem_cons.mp h
    rw [List.mapM_cons, ih hxs, bind_eq hx, bind_eq rfl]
    simp [pure]

theorem forM_eq {f : β → Noted α Unit} {xs : List β} (h : ∀ x ∈ xs, (f x).result = .ok ()) :
    xs.forM f = ⟨xs.flatMap fun x => (f x).notes, .ok ()⟩ := by
  induction xs with
  | nil => rfl
  | cons x xs ih =>
    obtain ⟨hx, hxs⟩ := List.forall_mem_cons.mp h
    change (f x >>= fun _ => xs.forM f) = _
    rw [bind_eq hx, ih hxs]
    rfl

/-- A step passes its notes on. -/
theorem mem_notes_bind {x : Noted α β} {f : β → Noted α γ} {e : Diagnostic α} (h : e ∈ x.notes) :
    e ∈ (x >>= f).notes := by
  obtain ⟨notes, r⟩ := x
  cases r with
  | error _ => exact h
  | ok b => exact List.mem_append_left _ h

theorem mem_notes_next {x : Noted α β} {f : β → Noted α γ} {b : β} {e : Diagnostic α}
    (hx : x.result = .ok b) (h : e ∈ (f b).notes) : e ∈ (x >>= f).notes := by
  rw [bind_eq hx]
  exact List.mem_append_right _ h

/-- Steps that all succeed pass on the notes of each of them. -/
theorem mem_notes_mapM {f : β → Noted α γ} {xs : List β}
    (h : ∀ x ∈ xs, ∃ y, (f x).result = .ok y) {x : β} (hx : x ∈ xs) {e : Diagnostic α}
    (he : e ∈ (f x).notes) : e ∈ (xs.mapM f).notes := by
  induction xs with
  | nil => cases hx
  | cons y ys ih =>
    obtain ⟨⟨z, hz⟩, hys⟩ := List.forall_mem_cons.mp h
    rw [List.mapM_cons]
    cases List.mem_cons.mp hx with
    | inl hxy =>
      subst hxy
      exact mem_notes_bind he
    | inr hmem => exact mem_notes_next hz (mem_notes_bind (ih hys hmem))

theorem mem_notes_forM {f : β → Noted α Unit} {xs : List β} (h : ∀ x ∈ xs, (f x).result = .ok ())
    {x : β} (hx : x ∈ xs) {e : Diagnostic α} (he : e ∈ (f x).notes) : e ∈ (xs.forM f).notes := by
  rw [forM_eq h]
  exact List.mem_flatMap_of_mem hx he

theorem result_mapM_map {f : β → Noted α γ} {g : β → γ} {xs : List β}
    (h : ∀ x ∈ xs, (f x).result = .ok (g x)) : (xs.mapM f).result = .ok (xs.map g) :=
  congrArg Noted.result (mapM_eq h)

theorem result_forM {f : β → Noted α Unit} {xs : List β} (h : ∀ x ∈ xs, (f x).result = .ok ()) :
    (xs.forM f).result = .ok () := congrArg Noted.result (forM_eq h)

theorem result_forM_iff {f : β → Noted α Unit} {xs : List β} :
    (xs.forM f).result = .ok () ↔ ∀ x ∈ xs, (f x).result = .ok () := by
  refine ⟨fun h => ?_, result_forM⟩
  induction xs with
  | nil => exact List.forall_mem_nil _
  | cons x xs ih =>
    obtain ⟨_, hx, hxs⟩ := result_bind.mp h
    exact List.forall_mem_cons.mpr ⟨hx, ih hxs⟩

def Only (P : Diagnostic α → Prop) (x : Noted α β) : Prop := ∀ e ∈ x.notes, P e

section Only

variable {P : Diagnostic α → Prop}

theorem only_pure (b : β) : Only P (pure b) := List.forall_mem_nil _

theorem only_lift (r : Except Fault β) : Only P (liftM r) := List.forall_mem_nil _

theorem only_note {f : Finding α} {b : Option String} (h : P ⟨f, b⟩) : Only P (note f b) :=
  List.forall_mem_singleton.mpr h

theorem Only.bind {x : Noted α β} {f : β → Noted α γ} (hx : Only P x) (hf : ∀ b, Only P (f b)) :
    Only P (x >>= f) := by
  obtain ⟨notes, r⟩ := x
  cases r with
  | error _ => exact hx
  | ok b => exact List.forall_mem_append.mpr ⟨hx, hf b⟩

theorem only_forM {f : β → Noted α Unit} (h : ∀ x, Only P (f x)) (xs : List β) :
    Only P (xs.forM f) := by
  induction xs with
  | nil => exact only_pure ()
  | cons x xs ih => exact (h x).bind fun _ => ih

theorem only_foldlM {f : γ → β → Noted α γ} (h : ∀ c x, Only P (f c x)) (xs : List β) (c : γ) :
    Only P (xs.foldlM f c) := by
  induction xs generalizing c with
  | nil => exact only_pure c
  | cons x xs ih =>
    rw [List.foldlM_cons]
    exact (h c x).bind ih

end Only

end Noted

end Transcription
