import Mathlib
import Transcription.Diagram.Sheet
import Transcription.Proofs.Diagram.Settling
import Transcription.Proofs.Diagram.Measuring

namespace Transcription

namespace Sheet

variable {s : Sheet}

def withBlock (s : Sheet) (parent : Option Nat) (b : Diagram.Block) : Sheet :=
  forget (push b (adopt s.blocks.size parent s))

def lineFrom (s : Sheet) (out : Port) : Nat := (s.line? out).getD s.lines.length

def withLineFrom (s : Sheet) (out : Port) : Sheet :=
  { s with
    line? := if (s.line? out).isSome then s.line? else (setLine out s.lines.length s).line?
    lines := if (s.line? out).isSome then s.lines else (startLine out s).lines }

def withTarget (s : Sheet) (out inp : Port) : Sheet :=
  forget (setLine inp (s.lineFrom out) (extend (s.lineFrom out) inp (s.withLineFrom out)))

theorem add_eq (b : Diagram.Draft) (s : Sheet) : add b s = match b.block s.diagram with
    | .ok block => .ok s.blocks.size (s.withBlock b.parent block)
    | .error e => .error e s := by
  unfold add
  simp only [bind, EStateM.bind, get, getThe, MonadStateOf.get, EStateM.get, Op.ofExcept]
  cases b.block s.diagram <;> rfl

theorem connect_eq (source : Nat) (sourcePort : Int) (target : Nat) (targetPort : Int) (s : Sheet) :
    connect source sourcePort target targetPort s =
      match s.diagram.port .outport source sourcePort, s.diagram.port .inport target targetPort with
      | .ok out, .ok inp =>
        if (s.line? inp).isSome then .error (.alreadyDriven (s.diagram.path target) inp.number) s
        else .ok (s.lineFrom out) (s.withTarget out inp)
      | .ok _, .error e => .error e s
      | .error e, _ => .error e s := by
  unfold connect
  simp only [bind, EStateM.bind, get, getThe, MonadStateOf.get, EStateM.get, Op.ofExcept]
  cases s.diagram.port .outport source sourcePort with
  | error e => rfl
  | ok out =>
    cases s.diagram.port .inport target targetPort with
    | error e => rfl
    | ok inp =>
      dsimp only
      split
      · rfl
      · unfold withTarget lineFrom withLineFrom
        cases s.line? out <;> rfl

theorem compile_eq (s : Sheet) : compile s = match s.diagram.dimensions with
    | .ok known => .ok () { s with compiled := some known }
    | .error e => .error e s := by
  unfold compile
  simp only [bind, EStateM.bind, get, getThe, MonadStateOf.get, EStateM.get, Op.ofExcept]
  cases s.diagram.dimensions <;> rfl

theorem driver_eq (p : Port) (s : Sheet) : driver p s = match s.source? p with
    | some q => .ok q s
    | none => .error (.connection (s.diagram.path p.block) (.inport p.number)) s := by
  unfold driver
  simp only [bind, EStateM.bind, get, getThe, MonadStateOf.get, EStateM.get]
  cases s.source? p <;> rfl

def remembered (s : Sheet) : Except Fault Diagram.Known :=
  match s.compiled with
  | some known => .ok known
  | none => s.diagram.dimensions

theorem outportDims_eq (p : Port) (s : Sheet) : outportDims p s = match s.remembered with
    | .error e => .error e s
    | .ok known => match known.lookup p with
      | some ds => .ok ds { s with compiled := some known }
      | none => .error .keyMissing { s with compiled := some known } := by
  unfold outportDims remembered
  simp only [bind, EStateM.bind, get, getThe, MonadStateOf.get, EStateM.get]
  cases hcompiled : s.compiled with
  | some known =>
    have hsame : ({ s with compiled := some known } : Sheet) = s := by rw [← hcompiled]
    simp only [Option.isNone_some, Bool.false_eq_true, if_false, EStateM.bind, EStateM.get, hcompiled,
      Option.getD_some, hsame]
    cases known.lookup p <;> rfl
  | none =>
    simp only [Option.isNone_none, if_true, EStateM.bind, compile_eq]
    cases s.diagram.dimensions with
    | error e => rfl
    | ok known =>
      simp only [EStateM.get, Option.getD_some]
      cases known.lookup p <;> rfl

theorem portDims_eq (p : Port) (s : Sheet) : portDims p s = match p.side, s.source? p with
    | .outport, _ => outportDims p s
    | .inport, some q => outportDims q s
    | .inport, none => .error (.connection (s.diagram.path p.block) (.inport p.number)) s := by
  unfold portDims
  cases p.side with
  | outport => rfl
  | inport =>
    simp only [bind, EStateM.bind, driver_eq]
    cases s.source? p <;> rfl

structure Wired (s : Sheet) : Prop where
  /-- An inport is on a line exactly when the line leads to it. -/
  inport : ∀ q, q.side = .inport → ∀ l,
    s.line? q = some l ↔ ∃ line, s.lines[l]? = some line ∧ q ∈ line.targets
  once : ∀ line ∈ s.lines, line.targets.Nodup
  targets : ∀ line ∈ s.lines, ∀ q ∈ line.targets, q ∈ s.inports
  fed : ∀ line ∈ s.lines, line.targets ≠ []
  /-- An outport is on a line exactly when the line leaves it. -/
  outport : ∀ p, p.side = .outport → ∀ l,
    s.line? p = some l ↔ ∃ line, s.lines[l]? = some line ∧ line.source = p
  sources : ∀ line ∈ s.lines, line.source ∈ s.diagram.allOutports
  children : ∀ i, s.children i =
    (List.range s.blocks.size).filter fun j => (s.frame.block j).parent = some i
  /-- Dimensions that are remembered are those of what is drawn. -/
  current : s.diagram.Current

theorem wired_empty (name : String) (workspace : List (String × Value)) :
    (empty name workspace).Wired where
  inport q _ l := by simp [empty]
  once _ h := nomatch h
  targets _ h := nomatch h
  fed _ h := nomatch h
  outport p _ l := by simp [empty]
  sources _ h := nomatch h
  children _ := rfl
  current _ h := nomatch h

theorem mem_inports {q : Port} :
    q ∈ s.inports ↔ q.block < s.blocks.size ∧ q ∈ s.frame.inports q.block := by
  simp only [inports, List.mem_flatMap, List.mem_range]
  constructor
  · rintro ⟨i, hi, hq⟩
    obtain rfl : q.block = i := by
      obtain ⟨_, _, rfl⟩ := List.mem_map.mp hq
      rfl
    exact ⟨hi, hq⟩
  · intro ⟨hi, hq⟩
    exact ⟨_, hi, hq⟩

theorem side_of_mem_inports {q : Port} (h : q ∈ s.inports) : q.side = .inport := by
  obtain ⟨_, _, hq⟩ := List.mem_map.mp (mem_inports.mp h).2
  rw [← hq]

theorem Wired.exists_line (h : s.Wired) {q : Port} {l : Nat} (hl : s.line? q = some l) :
    ∃ line, s.lines[l]? = some line := by
  cases hq : q.side with
  | inport =>
    obtain ⟨line, hline, _⟩ := (h.inport q hq l).mp hl
    exact ⟨line, hline⟩
  | outport =>
    obtain ⟨line, hline, _⟩ := (h.outport q hq l).mp hl
    exact ⟨line, hline⟩

section WithBlock

variable {parent : Option Nat} {b : Diagram.Block}

theorem size_withBlock : (s.withBlock parent b).blocks.size = s.blocks.size + 1 := Array.size_push _

theorem block_withBlock {i : Nat} : (s.withBlock parent b).frame.block i =
    if i = s.blocks.size then b else s.frame.block i := by
  have hget : (s.withBlock parent b).frame.block i = ((s.blocks.push b)[i]?).getD default :=
    Array.getD_eq_getD_getElem? ..
  have hold : s.frame.block i = (s.blocks[i]?).getD default := Array.getD_eq_getD_getElem? ..
  rw [hget, hold, Array.getElem?_push]
  split <;> rfl

theorem block_withBlock_of_lt {i : Nat} (hi : i < s.blocks.size) :
    (s.withBlock parent b).frame.block i = s.frame.block i := by
  rw [block_withBlock, if_neg hi.ne]

theorem Wired.withBlock (h : s.Wired) (hb : b.parent = parent) : (s.withBlock parent b).Wired where
  inport := h.inport
  once := h.once
  targets line hline q hq := by
    obtain ⟨hlt, hmem⟩ := mem_inports.mp (h.targets line hline q hq)
    refine mem_inports.mpr ⟨by rw [size_withBlock]; omega, ?_⟩
    rw [Diagram.inports, block_withBlock_of_lt hlt]
    exact hmem
  fed := h.fed
  outport := h.outport
  sources line hline := by
    obtain ⟨hlt, hmem⟩ := Diagram.mem_allOutports.mp (h.sources line hline)
    refine Diagram.mem_allOutports.mpr ⟨Nat.lt_of_lt_of_eq (Nat.lt_succ_of_lt hlt) size_withBlock.symm, ?_⟩
    change line.source ∈ (s.withBlock parent b).frame.outports line.source.block
    rw [Diagram.outports, block_withBlock_of_lt hlt]
    exact hmem
  children i := by
    have hchildren : (s.withBlock parent b).children i =
        if parent = some i then s.children i ++ [s.blocks.size] else s.children i := rfl
    have hbefore : (List.range s.blocks.size).filter
        (fun j => ((s.withBlock parent b).frame.block j).parent = some i) = s.children i := by
      rw [h.children i]
      refine List.filter_congr fun j hj => ?_
      rw [block_withBlock_of_lt (List.mem_range.mp hj)]
    rw [hchildren, size_withBlock, List.range_succ, List.filter_append, hbefore,
      List.filter_singleton, block_withBlock, if_pos rfl, hb]
    by_cases hi : parent = some i
    · simp [hi]
    · simp [hi]
  current _ hknown := nomatch hknown

end WithBlock

section WithTarget

variable {out inp : Port}

def targetsFrom (s : Sheet) (out : Port) : List Port :=
  ((s.lines[s.lineFrom out]?).map (·.targets)).getD []

theorem mem_targetsFrom {q : Port} : q ∈ s.targetsFrom out ↔
    ∃ line, s.lines[s.lineFrom out]? = some line ∧ q ∈ line.targets := by
  unfold targetsFrom
  cases s.lines[s.lineFrom out]? <;> simp

theorem targetsFrom_eq_nil {p : Port} (h : s.line? p = none) : s.targetsFrom p = [] := by
  simp [targetsFrom, lineFrom, h]

theorem line?_withTarget (q : Port) : (s.withTarget out inp).line? q =
    if q = inp ∨ q = out then some (s.lineFrom out) else s.line? q := by
  have hset : (s.withTarget out inp).line? q =
      if q = inp then some (s.lineFrom out) else (s.withLineFrom out).line? q := rfl
  rw [hset]
  by_cases hq : q = inp
  · rw [if_pos hq, if_pos (.inl hq)]
  rw [if_neg hq]
  simp only [withLineFrom, lineFrom, hq, false_or]
  cases hout : s.line? out with
  | some l =>
    rw [Option.isSome_some, if_pos rfl, Option.getD_some]
    split
    · rename_i heq
      rw [heq, hout]
    · rfl
  | none =>
    rw [Option.isSome_none, if_neg Bool.false_ne_true, Option.getD_none]
    rfl

/-- The line from an outport leaves it, if there is one. -/
theorem Wired.getElem?_lineFrom (h : s.Wired) (hout : out.side = .outport) :
    s.lines[s.lineFrom out]? = if (s.line? out).isSome then some ⟨out, s.targetsFrom out⟩ else none := by
  unfold targetsFrom lineFrom
  cases hl : s.line? out with
  | some l =>
    obtain ⟨⟨source, targets⟩, hline, rfl⟩ := (h.outport out hout l).mp hl
    simp [hline]
  | none => simp

theorem Wired.getElem?_withTarget (h : s.Wired) (hout : out.side = .outport) (l : Nat) :
    (s.withTarget out inp).lines[l]? =
      if l = s.lineFrom out then some ⟨out, s.targetsFrom out ++ [inp]⟩ else s.lines[l]? := by
  have hmodify : (s.withTarget out inp).lines = (s.withLineFrom out).lines.modify (s.lineFrom out)
      fun line => { line with targets := line.targets ++ [inp] } := rfl
  have hbefore : (s.withLineFrom out).lines[l]? =
      if l = s.lineFrom out then some ⟨out, s.targetsFrom out⟩ else s.lines[l]? := by
    have hfrom := h.getElem?_lineFrom hout
    simp only [withLineFrom]
    cases hl : s.line? out with
    | some k =>
      rw [hl, Option.isSome_some, if_pos rfl] at hfrom
      rw [Option.isSome_some, if_pos rfl]
      split
      · rename_i heq
        rw [heq, hfrom]
      · rfl
    | none =>
      have hplace : s.lineFrom out = s.lines.length := by rw [lineFrom, hl, Option.getD_none]
      rw [Option.isSome_none, if_neg Bool.false_ne_true, startLine, hplace, targetsFrom_eq_nil hl]
      rcases Nat.lt_trichotomy l s.lines.length with hlt | rfl | hgt
      · rw [if_neg hlt.ne, List.getElem?_append_left hlt]
      · simp
      · rw [if_neg hgt.ne', List.getElem?_eq_none (by simp; omega), List.getElem?_eq_none hgt.le]
  rw [hmodify, List.getElem?_modify, hbefore]
  by_cases hl : l = s.lineFrom out
  · simp [hl]
  · simp [hl, Ne.symm hl]

theorem Wired.inport_withTarget (h : s.Wired) (hout : out.side = .outport) (hinp : inp.side = .inport)
    (hfree : s.line? inp = none) {q : Port} (hq : q.side = .inport) (l : Nat) :
    (s.withTarget out inp).line? q = some l ↔
      ∃ line, (s.withTarget out inp).lines[l]? = some line ∧ q ∈ line.targets := by
  have hne : q ≠ out := by
    rintro rfl
    cases hq.symm.trans hout
  rw [line?_withTarget, h.getElem?_withTarget hout]
  by_cases hqi : q = inp
  · subst hqi
    rw [if_pos (.inl rfl)]
    constructor
    · rintro ⟨rfl⟩
      exact ⟨_, if_pos rfl, List.mem_append_right _ (List.mem_singleton.mpr rfl)⟩
    · intro hline
      by_cases hl : l = s.lineFrom out
      · rw [hl]
      · rw [if_neg hl] at hline
        rw [(h.inport q hq l).mpr hline] at hfree
        cases hfree
  · rw [if_neg (not_or.mpr ⟨hqi, hne⟩), h.inport q hq]
    by_cases hl : l = s.lineFrom out
    · simp [hl, ← mem_targetsFrom, hqi]
    · simp only [if_neg hl]

theorem Wired.outport_withTarget (h : s.Wired) (hout : out.side = .outport) (hinp : inp.side = .inport)
    {p : Port} (hp : p.side = .outport) (l : Nat) :
    (s.withTarget out inp).line? p = some l ↔
      ∃ line, (s.withTarget out inp).lines[l]? = some line ∧ line.source = p := by
  have hne : p ≠ inp := by
    rintro rfl
    cases hp.symm.trans hinp
  rw [line?_withTarget, h.getElem?_withTarget hout]
  by_cases hpo : p = out
  · subst hpo
    rw [if_pos (.inr rfl)]
    constructor
    · rintro ⟨rfl⟩
      exact ⟨_, if_pos rfl, rfl⟩
    · intro hline
      by_cases hl : l = s.lineFrom p
      · rw [hl]
      · rw [if_neg hl] at hline
        rw [lineFrom, (h.outport p hp l).mpr hline, Option.getD_some]
  · rw [if_neg (not_or.mpr ⟨hne, hpo⟩), h.outport p hp]
    by_cases hl : l = s.lineFrom out
    · -- the line from `out` does not leave another outport, before or after
      rw [if_pos hl, hl, h.getElem?_lineFrom hout]
      constructor
      · rintro ⟨line, hline, rfl⟩
        rw [Option.ite_none_right_eq_some] at hline
        exact absurd (congrArg Stroke.source (Option.some.inj hline.2)).symm hpo
      · rintro ⟨line, hline, rfl⟩
        exact absurd (congrArg Stroke.source (Option.some.inj hline)).symm hpo
    · simp only [if_neg hl]

theorem Wired.once_targetsFrom (h : s.Wired) (hinp : inp.side = .inport) (hfree : s.line? inp = none) :
    (s.targetsFrom out ++ [inp]).Nodup := by
  have hnodup : (s.targetsFrom out).Nodup := by
    unfold targetsFrom
    cases hl : s.lines[s.lineFrom out]? with
    | none => exact List.nodup_nil
    | some line => exact h.once line (List.mem_of_getElem? hl)
  have hfresh : inp ∉ s.targetsFrom out := by
    intro hmem
    rw [(h.inport inp hinp _).mpr (mem_targetsFrom.mp hmem)] at hfree
    cases hfree
  exact hnodup.append (List.nodup_singleton inp) (List.disjoint_singleton.mpr hfresh)

theorem Wired.withTarget (h : s.Wired) (hout : out ∈ s.diagram.allOutports) (hinp : inp ∈ s.inports)
    (hfree : s.line? inp = none) : (s.withTarget out inp).Wired := by
  have hside := Diagram.side_of_mem hout
  have hinside := side_of_mem_inports hinp
  have hforall {P : Stroke → Prop} (hnew : P ⟨out, s.targetsFrom out ++ [inp]⟩)
      (hrest : ∀ line ∈ s.lines, P line) : ∀ line ∈ (s.withTarget out inp).lines, P line := by
    intro line hline
    obtain ⟨l, hl⟩ := List.mem_iff_getElem?.mp hline
    rw [h.getElem?_withTarget hside] at hl
    split at hl
    · rw [← Option.some.inj hl]
      exact hnew
    · exact hrest line (List.mem_of_getElem? hl)
  have htargets : ∀ q ∈ s.targetsFrom out ++ [inp], q ∈ s.inports := by
    intro q hq
    rcases List.mem_append.mp hq with hq | hq
    · obtain ⟨line, hl, hmem⟩ := mem_targetsFrom.mp hq
      exact h.targets line (List.mem_of_getElem? hl) q hmem
    · rw [List.mem_singleton.mp hq]
      exact hinp
  exact {
    inport := fun _ hq l => h.inport_withTarget hside hinside hfree hq l
    once := hforall (h.once_targetsFrom hinside hfree) h.once
    targets := hforall htargets h.targets
    fed := hforall (by simp) h.fed
    outport := fun _ hp l => h.outport_withTarget hside hinside hp l
    sources := hforall hout h.sources
    children := h.children
    current := fun _ hknown => nomatch hknown }

theorem Wired.source?_withTarget (h : s.Wired) (hout : out.side = .outport) (q : Port) :
    (s.withTarget out inp).source? q = if q = inp ∨ q = out then some out else s.source? q := by
  rw [source?, line?_withTarget]
  by_cases hq : q = inp ∨ q = out
  · rw [if_pos hq, if_pos hq, Option.bind_some, h.getElem?_withTarget hout, if_pos rfl]
    rfl
  rw [if_neg hq, if_neg hq, source?]
  refine Option.bind_congr fun l hl => ?_
  rw [h.getElem?_withTarget hout]
  split
  · -- the line is that of `out`, which goes on
    rename_i heq
    have hfrom := h.getElem?_lineFrom hout
    obtain ⟨line, hline⟩ := h.exists_line hl
    rw [← heq, hline] at hfrom
    rw [hline, ← (Option.ite_none_right_eq_some.mp hfrom.symm).2]
    rfl
  · rfl

/-- No other outport has its inports changed. -/
theorem Wired.targetsFrom_withTarget (h : s.Wired) (hout : out.side = .outport)
    (hinp : inp.side = .inport) {p : Port} (hp : p.side = .outport) :
    (s.withTarget out inp).targetsFrom p =
      if p = out then s.targetsFrom out ++ [inp] else s.targetsFrom p := by
  have hne : p ≠ inp := by
    rintro rfl
    cases hp.symm.trans hinp
  by_cases hpo : p = out
  · subst hpo
    rw [if_pos rfl, targetsFrom, lineFrom, line?_withTarget, if_pos (.inr rfl), Option.getD_some,
      h.getElem?_withTarget hout, if_pos rfl]
    rfl
  rw [if_neg hpo]
  have hline : (s.withTarget out inp).line? p = s.line? p := by
    rw [line?_withTarget, if_neg (not_or.mpr ⟨hne, hpo⟩)]
  cases hl : s.line? p with
  | none => rw [targetsFrom_eq_nil hl, targetsFrom_eq_nil (hline.trans hl)]
  | some l =>
    have hother : l ≠ s.lineFrom out := by
      rintro rfl
      obtain ⟨line, hfrom, hsource⟩ := (h.outport p hp _).mp hl
      rw [h.getElem?_lineFrom hout, Option.ite_none_right_eq_some] at hfrom
      rw [← Option.some.inj hfrom.2] at hsource
      exact hpo hsource.symm
    rw [targetsFrom, lineFrom, hline, hl, Option.getD_some, h.getElem?_withTarget hout,
      if_neg hother, targetsFrom, lineFrom, hl, Option.getD_some]

end WithTarget

theorem find?_lines (f : Port → Option Port) (qs : List Port) (q : Port) :
    ((qs.filterMap fun q => (f q).map fun p => (⟨p, q⟩ : Line)).find? fun l => l.target = q).map
      (·.source) = if q ∈ qs then f q else none := by
  induction qs with
  | nil => rfl
  | cons r qs ih =>
    cases hr : f r with
    | none =>
      rw [List.filterMap_cons_none (by simp [hr]), ih]
      by_cases hq : q = r
      · simp [hq, hr]
      · simp [hq]
    | some p =>
      rw [List.filterMap_cons_some (by rw [hr]; rfl)]
      by_cases hq : r = q
      · simp [hq, ← hr]
      · rw [List.find?_cons_of_neg (by simpa using hq), ih]
        simp [Ne.symm hq]

theorem Wired.source?_eq_some (h : s.Wired) {q : Port} (hq : q.side = .inport) {p : Port} :
    s.source? q = some p ↔ ∃ line ∈ s.lines, line.source = p ∧ q ∈ line.targets := by
  rw [source?, Option.bind_eq_some_iff]
  constructor
  · rintro ⟨l, hl, hsource⟩
    obtain ⟨line, hline, hmem⟩ := (h.inport q hq l).mp hl
    rw [hline] at hsource
    exact ⟨line, List.mem_of_getElem? hline, Option.some.inj hsource, hmem⟩
  · rintro ⟨line, hline, hsource, hmem⟩
    obtain ⟨l, hl⟩ := List.mem_iff_getElem?.mp hline
    refine ⟨l, (h.inport q hq l).mpr ⟨line, hl, hmem⟩, ?_⟩
    rw [hl, ← hsource]
    rfl

theorem Wired.source?_outport (h : s.Wired) {p : Port} (hp : p.side = .outport) :
    s.source? p = if s.lines.any fun line => line.source = p then some p else none := by
  cases hl : s.line? p with
  | some l =>
    obtain ⟨line, hline, hsource⟩ := (h.outport p hp l).mp hl
    have hany : (s.lines.any fun line => line.source = p) = true :=
      List.any_eq_true.mpr ⟨line, List.mem_of_getElem? hline, by simpa using hsource⟩
    rw [source?, hl, Option.bind_some, hline, Option.map_some, hsource, hany, if_pos rfl]
  | none =>
    have hany : ¬ (s.lines.any fun line => line.source = p) = true := by
      intro hany
      obtain ⟨line, hline, hsource⟩ := List.any_eq_true.mp hany
      obtain ⟨l, hl'⟩ := List.mem_iff_getElem?.mp hline
      rw [(h.outport p hp l).mpr ⟨line, hl', by simpa using hsource⟩] at hl
      cases hl
    rw [source?, hl, Option.bind_none, if_neg hany]

/-- Outports with a line are those that drive some inport. -/
theorem Wired.any_lines (h : s.Wired) (p : Port) :
    (s.diagram.lines.any fun l => l.source = p) = s.lines.any fun line => line.source = p := by
  rw [Bool.eq_iff_iff, List.any_eq_true, List.any_eq_true]
  constructor
  · rintro ⟨l, hl, hsource⟩
    obtain ⟨q, hq, hdrawn⟩ := List.mem_filterMap.mp hl
    obtain ⟨r, hr, rfl⟩ := Option.map_eq_some_iff.mp hdrawn
    obtain ⟨line, hline, hfrom, _⟩ := (h.source?_eq_some (side_of_mem_inports hq)).mp hr
    exact ⟨line, hline, hfrom ▸ hsource⟩
  · rintro ⟨line, hline, hsource⟩
    obtain ⟨q, hq⟩ := List.exists_mem_of_ne_nil _ (h.fed line hline)
    have hmem := h.targets line hline q hq
    have hdriver := (h.source?_eq_some (side_of_mem_inports hmem)).mpr ⟨line, hline, rfl, hq⟩
    exact ⟨⟨line.source, q⟩, List.mem_filterMap.mpr ⟨q, hmem, by rw [hdriver]; rfl⟩, hsource⟩

/-- The diagram has the drivers that the sheet has. -/
theorem Wired.source?_diagram (h : s.Wired) : s.diagram.source? = s.source? := by
  funext q
  rw [Diagram.source?]
  cases hside : q.side with
  | inport =>
    refine (find?_lines s.source? s.inports q).trans ?_
    split
    · rfl
    · rename_i hq
      refine (Option.eq_none_iff_forall_ne_some.mpr fun p hp => hq ?_).symm
      obtain ⟨line, hline, _, hmem⟩ := (h.source?_eq_some hside).mp hp
      exact h.targets line hline q hmem
  | outport =>
    rw [h.source?_outport hside, ← h.any_lines]

end Sheet

end Transcription
