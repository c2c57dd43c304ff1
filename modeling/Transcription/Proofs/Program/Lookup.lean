import Transcription.Proofs.Network.Producers
import Transcription.Proofs.Program.Indexing
import Transcription.Proofs.Program.Names

namespace Transcription

variable {α : Type} [Scalar α]

namespace Network

section Wires

variable {n : Network α} {w v : Wire α}

/-- A wire leaves a block that is recorded, whose path stands in its names. -/
theorem Linked.exists_path (h : n.Linked) (hw : w ∈ n.wires.wires) :
    ∃ b, n.block? w.block = some b ∧ b.source = w.port.block ∧
      n.diagram.path w.port.block = n.path b := by
  obtain ⟨i, hi⟩ := List.mem_iff_getElem?.mp hw
  obtain ⟨b, hb, hsource⟩ := h.owner i w hi
  exact ⟨b, hb, hsource, by rw [path, hsource]⟩

/-- Where blocks have different paths, wires have different names at all steps and stages. -/
theorem Linked.of_wireName_eq (h : n.Linked) (hpaths : (n.blocks.blocks.map n.path).Nodup)
    (hout : ∀ q, (n.wires.first? q).isSome = true → q.side = .outport) (hw : w ∈ n.wires.wires)
    (hv : v ∈ n.wires.wires) {step step' stage stage' : Nat}
    (hname : Program.wireName n.diagram w step stage = Program.wireName n.diagram v step' stage') :
    w = v ∧ step = step' ∧ stage = stage' := by
  obtain ⟨hpath, hnumber, hsub, hstep, hstage⟩ := Program.wireName_inj hname
  obtain ⟨b, hb, hsource, hbpath⟩ := h.exists_path hw
  obtain ⟨c, hc, hcsource, hcpath⟩ := h.exists_path hv
  have hplace : w.block = v.block := by
    have hlt := (List.getElem?_eq_some_iff.mp hb).1
    refine (List.getElem?_inj (by simpa using hlt) hpaths).mp ?_
    rw [List.getElem?_map, List.getElem?_map]
    change (n.block? w.block).map n.path = (n.block? v.block).map n.path
    rw [hb, hc, Option.map_some, Option.map_some, ← hbpath, hpath, hcpath]
  have hblock : w.port.block = v.port.block := by
    rw [hplace, hc] at hb
    rw [← hsource, ← hcsource, Option.some.inj hb]
  obtain ⟨i, hi⟩ := List.mem_iff_getElem?.mp hw
  obtain ⟨j, hj⟩ := List.mem_iff_getElem?.mp hv
  have hside {k : Nat} {u : Wire α} (hu : n.wires.wires[k]? = some u) : u.port.side = .outport := by
    obtain ⟨first, _, hfirst, _⟩ := h.registered.port_of_wire k u hu
    exact hout u.port (Option.isSome_of_eq_some hfirst)
  have hport : w.port = v.port := by
    have hsides := (hside hi).trans (hside hj).symm
    revert hblock hnumber hsides
    cases w.port
    cases v.port
    rintro rfl rfl rfl
    rfl
  have htap : w.tap = v.tap := by rw [Wire.tap, Wire.tap, hport, hsub]
  obtain rfl := h.registered.tap_inj hi hj htap
  exact ⟨Option.some.inj (hi.symm.trans hj), hstep, hstage⟩

end Wires

end Network

namespace Program

section Names

variable {n : Network α} {g : Grid α} {name : String} {i : Nat}

def Names (n : Network α) (e : Entry α) (name : String) : Prop :=
  ∃ w ∈ n.wires.group e.net, name = wireName n.diagram w e.step e.stage

theorem mem_variableNames :
    name ∈ variableNames n g i ↔ ∃ e ∈ g.entries, e.index = i ∧ Names n e name := by
  simp only [variableNames, Grid.entriesAt, entryNames, Names, List.mem_eraseDups, List.mem_flatMap,
    List.mem_filter, decide_eq_true_eq, List.mem_map, and_assoc, eq_comm (a := name)]

theorem variableNames_withLiveness (n : Network α) (live : List PhaseSet) :
    variableNames (n.withLiveness live) = variableNames n := by
  have hentry : entryNames (n.withLiveness live) = entryNames n := by
    funext e
    rw [entryNames, Network.group_withLiveness_eq, List.map_map]
    rfl
  funext g i
  rw [variableNames, hentry, variableNames]

theorem names_build {equalities : System α} {p : Program α} (hp : build n g equalities = .ok p) :
    p.size = g.size ∧ p.names = (List.range g.size).map (variableNames n g) := by
  obtain ⟨combined, hcombined, hp⟩ := except_bind_eq_ok.mp hp
  obtain ⟨rfl, _⟩ := System.combine_eq_ok hcombined
  cases hp
  exact ⟨rfl, rfl⟩

end Names

end Program

namespace Run

open Network

variable {d : Diagram} {hold : Hold} {steps count : Nat} {dt : α} {tableau : Option (Tableau α)}
  {n : Network α} {g : Grid α} {e : Equalities α} {p : Program α}

/-- The names of each variable are listed at its index. -/
theorem names_of_completes
    (hrun : (ofDiagram (.full steps dt hold tableau) d).Completes n steps dt tableau g e p)
    {i : Nat} {names : List String} :
    p.names[i]? = some names ↔ i < g.size ∧ Program.variableNames n g i = names := by
  obtain ⟨_, hnames⟩ := Program.names_build hrun.build_eq
  rw [Program.variableNames_withLiveness] at hnames
  rw [hnames, List.getElem?_map]
  by_cases hi : i < g.size
  · simp [hi]
  · simp [hi]

/-- Where the blocks of a diagram have different paths, the names in a program tell variables apart. -/
theorem named_of_completes (hmerged : (ofDiagram (.full steps dt hold tableau) d).merged = some (count, n))
    (hrun : (ofDiagram (.full steps dt hold tableau) d).Completes n steps dt tableau g e p)
    (hpaths : (n.blocks.blocks.map n.path).Nodup)
    (hplain : ∀ b ∈ n.blocks.blocks, ';' ∉ (n.path b).toList) : p.Named := by
  obtain ⟨n₀, ht, hm⟩ := merged_eq_some hmerged
  have hout {q : Port} := outward_mergeWires (d := d.prepared) ht hm (q := q)
  have hlaid := hrun.laid
  have hlinked : n.Linked := hlaid.netted.toLinked
  exact {
    some_name := fun names hmem => by
      obtain ⟨i, hi⟩ := List.mem_iff_getElem?.mp hmem
      obtain ⟨hlt, rfl⟩ := (names_of_completes hrun).mp hi
      obtain ⟨x, hx, hindex⟩ := (Network.lt_size_iff hrun.expand_eq).mp hlt
      obtain ⟨w, hw⟩ := List.exists_mem_of_ne_nil _ (hlaid.entries hrun.expand_eq hx).2
      exact List.ne_nil_of_mem (Program.mem_variableNames.mpr ⟨x, hx, hindex, w, hw, rfl⟩)
    plain := fun names hmem name hname => by
      obtain ⟨i, hi⟩ := List.mem_iff_getElem?.mp hmem
      obtain ⟨_, rfl⟩ := (names_of_completes hrun).mp hi
      obtain ⟨x, _, _, w, hw, rfl⟩ := Program.mem_variableNames.mp hname
      obtain ⟨b, hb, _, hpath⟩ := hlinked.exists_path (List.mem_filter.mp hw).1
      exact Program.semicolon_notMem_wireName (hpath ▸ hplain b (List.mem_of_getElem? hb)) _ _
    apart := fun i j _ _ name hi hj hname hother => by
      obtain ⟨_, rfl⟩ := (names_of_completes hrun).mp hi
      obtain ⟨_, rfl⟩ := (names_of_completes hrun).mp hj
      obtain ⟨x, hx, rfl, w, hw, rfl⟩ := Program.mem_variableNames.mp hname
      obtain ⟨y, hy, rfl, v, hv, heq⟩ := Program.mem_variableNames.mp hother
      obtain ⟨hwires, hwnet⟩ := List.mem_filter.mp hw
      obtain ⟨hvires, hvnet⟩ := List.mem_filter.mp hv
      obtain ⟨rfl, hstep, hstage⟩ :=
        hlinked.of_wireName_eq hpaths (fun q hq => hout hq) hwires hvires heq
      -- the net of the wire is that of both entries
      have hnet : x.net = y.net := (of_decide_eq_true hwnet).symm.trans (of_decide_eq_true hvnet)
      exact Network.index_entry_inj hrun.expand_eq hx hy hnet hstep hstage }

/-- A program with such names finds the variable of an entry under the names of the entry, and under no
others. -/
theorem index?_of_completes
    (hrun : (ofDiagram (.full steps dt hold tableau) d).Completes n steps dt tableau g e p)
    (hnamed : p.Named) {name : String} {i : Nat} :
    p.index? name = some i ↔ ∃ x ∈ g.entries, x.index = i ∧ Program.Names n x name := by
  rw [hnamed.index?_eq_some]
  constructor
  · intro ⟨names, hi, hname⟩
    obtain ⟨_, rfl⟩ := (names_of_completes hrun).mp hi
    exact Program.mem_variableNames.mp hname
  · intro ⟨x, hx, hindex, hname⟩
    have hlt := (hrun.laid.entries hrun.expand_eq hx).1
    exact ⟨_, (names_of_completes hrun).mpr ⟨hindex ▸ hlt, rfl⟩,
      Program.mem_variableNames.mpr ⟨x, hx, hindex, hname⟩⟩

/-- Where the blocks of a diagram have different paths without a semicolon, a run over any steps finds
the variable of an entry under the name of every wire of its net, and nothing under any other text. A
point made of values under such names has at each variable the last value whose name leads there. -/
theorem names_found (hmerged : (ofDiagram (.full steps dt hold tableau) d).merged = some (count, n))
    (h₁ : 1 ≤ steps) (hpaths : (n.blocks.blocks.map n.path).Nodup)
    (hplain : ∀ b ∈ n.blocks.blocks, ';' ∉ (n.path b).toList) :
    ∃ g p, (ofDiagram (.full steps dt hold tableau) d).grid = some g ∧
      (ofDiagram (.full steps dt hold tableau) d).program = some p ∧
      (∀ x ∈ g.entries, n.wires.group x.net ≠ [] ∧ ∀ w ∈ n.wires.group x.net,
        p.index (Program.wireName n.diagram w x.step x.stage) = .ok x.index) ∧
      (∀ name, (∀ x ∈ g.entries, ¬ Program.Names n x name) →
        p.index name = .error (.noVariable name)) ∧
      ∀ (fill : α) (values : List (String × α)),
        (∀ v ∈ values, ∃ x ∈ g.entries, Program.Names n x v.1) →
        ∃ xs, p.point fill values = .ok xs ∧ xs.length = p.size ∧
          ∀ i < p.size, xs[i]? = some (p.lastValue fill values i) := by
  obtain ⟨g, e, p, hrun⟩ := exists_completion hmerged h₁
  have hindex (name : String) (i : Nat) :
      p.index? name = some i ↔ ∃ x ∈ g.entries, x.index = i ∧ Program.Names n x name :=
    index?_of_completes hrun (named_of_completes hmerged hrun hpaths hplain)
  refine ⟨g, p, hrun.grid_eq, hrun.program_eq, fun x hx => ?_, fun name hname => ?_,
    fun fill values hvalues => ?_⟩
  · refine ⟨(hrun.laid.entries hrun.expand_eq hx).2, fun w hw => ?_⟩
    exact Program.index_eq_ok.mpr ((hindex _ _).mpr ⟨x, hx, rfl, w, hw, rfl⟩)
  · have hnone : p.index? name = none := by
      rw [Option.eq_none_iff_forall_ne_some]
      intro i hi
      obtain ⟨x, hx, _, hnames⟩ := (hindex name i).mp hi
      exact hname x hx hnames
    rw [Program.index, hnone]
    rfl
  · refine Program.point_eq (fun v hv => ?_) fill
    obtain ⟨x, hx, hnames⟩ := hvalues v hv
    exact ⟨x.index, (hindex v.1 x.index).mpr ⟨x, hx, rfl, hnames⟩⟩

/-- The running total over three steps, with stages. -/
theorem names_found_total :
    let n := RunningTotal.network
    let r := ofDiagram (.full 3 (1 / 2 : ℚ) .firstOrder (some .trapez)) RunningTotal.diagram
    r.merged = some (4, n) ∧ 1 ≤ 3 ∧ (n.blocks.blocks.map n.path).Nodup ∧
      (∀ b ∈ n.blocks.blocks, ';' ∉ (n.path b).toList) ∧
      ∃ g p, r.grid = some g ∧ r.program = some p ∧
        (∀ x ∈ g.entries, n.wires.group x.net ≠ [] ∧ ∀ w ∈ n.wires.group x.net,
          p.index (Program.wireName n.diagram w x.step x.stage) = .ok x.index) ∧
        (∀ name, (∀ x ∈ g.entries, ¬ Program.Names n x name) →
          p.index name = .error (.noVariable name)) ∧
        ∀ (fill : ℚ) (values : List (String × ℚ)),
          (∀ v ∈ values, ∃ x ∈ g.entries, Program.Names n x v.1) →
          ∃ xs, p.point fill values = .ok xs ∧ xs.length = p.size ∧
            ∀ i < p.size, xs[i]? = some (p.lastValue fill values i) := by
  intro n r
  have hmerged := RunningTotal.merged_diagram 3 (1 / 2) (some .trapez)
  have hpaths : (n.blocks.blocks.map n.path).Nodup := by decide +kernel
  have hplain : ∀ b ∈ n.blocks.blocks, ';' ∉ (n.path b).toList := by decide +kernel
  exact ⟨hmerged, by decide, hpaths, hplain, names_found hmerged (by decide) hpaths hplain⟩

end Run

end Transcription
