/-
Folding layers, cell by cell.

Folding a layer is the product of what it does to the cells (`outcome_foldInto_eq_ok_iff`), so
a run of folds is a run in every cell (`run_of_foldLayers`). What is proved here about such a run
comes in two forms. `Field.run_induction` carries a property of a cell along the layers, and
`run_accepted` says of a field that only grows that the whole run has accepted the entries of all
layers as if they had stood in one.
-/
import LayeredConfig.Compose
import LayeredConfig.Proofs.Fold.Effect

namespace LayeredConfig

/-! ## One layer -/

def Layer.site (root : Path) (layer : Layer) : Site := ⟨root, layer.dir⟩

/-- A layer without bases becomes a base of the result, and nothing else of it is looked at. -/
def Field.foldWhole (site : Site) : (field : Field) → Cell field → Except FoldError (Cell field)
  | .bases, c => do
    let base ← site.rebase .bases "."
    return if base ∈ c.seen then c else addBase base c
  | _, c => .ok c

namespace Field

open Folding

theorem foldWhole_of_ne {site : Site} {field : Field} (hne : field ≠ .bases) (c : Cell field) :
    foldWhole site field c = .ok c := by
  cases field with
  | bases => exact absurd rfl hne
  | _ => rfl

theorem foldWhole_bases (site : Site) (c : Cell .bases) :
    foldWhole site .bases c =
      (site.rebase .bases ".").map fun base => if base ∈ c.seen then c else addBase base c := by
  unfold foldWhole
  cases site.rebase .bases "." <;> rfl

theorem outcome_foldWhole (site : Site) (acc : Accumulator) :
    outcome (lift (site.rebase .bases ".") >>= fun base =>
        mark .bases base >>= fun isNew =>
          if isNew = true then Policy.addBase base else pure ()) acc =
      (foldWhole site .bases (acc.cell .bases)).map fun c => ((), acc.put .bases c) := by
  rw [outcome_bind, outcome_lift, foldWhole]
  cases site.rebase .bases "." with
  | error e => rfl
  | ok base =>
    rw [map_ok, ok_bind, ok_bind, outcome_bind, outcome_mark, ok_bind]
    have hknown : acc.ledger.contains .bases base = decide (base ∈ (acc.cell .bases).seen) := rfl
    by_cases hk : base ∈ (acc.cell .bases).seen
    · rw [if_neg (by simp [hknown, hk]), if_pos hk, Ledger.add_of_mem hk]
      show Except.ok ((), acc) = Except.ok ((), acc.put .bases (acc.cell .bases))
      rw [Accumulator.put_cell]
    · rw [if_pos (by simp [hknown, hk]), if_neg hk]
      show _ = Except.ok ((), acc.put .bases (addBase base (acc.cell .bases)))
      rw [addBase, Policy.put_take]
      rfl

end Field

/-- What folding a layer makes of the cell. -/
def Fragment.foldCell (site : Site) (child : Fragment) (field : Field) (c : Cell field) :
    Except FoldError (Cell field) :=
  match child.unsupportedFields.head? with
  | some key => .error (.unsupported key site.file)
  | none =>
    if child.bases.isNone then field.foldWhole site c else field.fold site (child.get field) c

namespace Fragment

open Folding

variable {site : Site} {child : Fragment} {field : Field}

/-- Folding a layer is the product of what it does to the cells. -/
theorem outcome_foldInto_eq_ok_iff {acc acc' : Accumulator} :
    outcome (child.foldInto site) acc = .ok ((), acc') ↔
      acc'.fragment.header = acc.fragment.header ∧
        ∀ field, child.foldCell site field (acc.cell field) = .ok (acc'.cell field) := by
  unfold foldInto foldCell
  cases child.unsupportedFields.head? with
  | some key =>
    constructor
    · intro h
      exact absurd h (by simp [outcome_throw])
    · intro ⟨_, h⟩
      exact absurd (h .bases) (by simp)
  | none =>
    by_cases hb : child.bases.isNone = true
    -- Only the cell of the bases moves, so the others can be read off the accumulator.
    · simp only [hb, if_true]
      rw [Field.outcome_foldWhole]
      constructor
      · intro h
        obtain ⟨c, hc, hput⟩ := map_eq_ok_iff.1 h
        obtain ⟨hh, hself, hrest⟩ := Accumulator.put_eq_iff.1 (Prod.mk.inj hput).2
        refine ⟨hh, fun field => ?_⟩
        by_cases hf : field = .bases
        · subst hf
          rw [hc, hself]
        · rw [Field.foldWhole_of_ne hf, hrest field hf]
      · intro ⟨hh, hcells⟩
        rw [hcells .bases, map_ok]
        have hput : acc.put .bases (acc'.cell .bases) = acc' := by
          refine Accumulator.put_eq_iff.2 ⟨hh, rfl, fun g hg => ?_⟩
          have hg' := hcells g
          rw [Field.foldWhole_of_ne hg] at hg'
          exact (Except.ok.inj hg').symm
        rw [hput]
    · simp only [hb, Bool.false_eq_true, if_false]
      rw [Policy.outcome_forM_eq_ok_iff Policy.actsOn_of_mem_all Policy.nodup_fields]
      constructor
      · intro ⟨hh, hin, _⟩
        exact ⟨hh, fun field => hin field (Policy.mem_fields field)⟩
      · intro ⟨hh, hcells⟩
        refine ⟨hh, fun field _ => hcells field, fun field hout => ?_⟩
        exact absurd (Policy.mem_fields field) hout

theorem foldCell_of_isSome (hu : child.unsupportedFields.head? = none)
    (hb : child.bases.isSome = true) (c : Cell field) :
    child.foldCell site field c = field.fold site (child.get field) c := by
  unfold foldCell
  rw [hu]
  cases hbases : child.bases with
  | none =>
    rw [hbases] at hb
    exact absurd hb (by simp)
  | some bases => rfl

/-- A layer that has been folded has no key that cannot be folded. Then it is taken apart or
not, which depends on whether it has bases. -/
theorem foldCell_eq_ok {c c' : Cell field} (h : child.foldCell site field c = .ok c') :
    (child.bases.isSome = false ∧ field.foldWhole site c = .ok c') ∨
      (child.bases.isSome = true ∧ field.fold site (child.get field) c = .ok c') := by
  unfold foldCell at h
  cases hu : child.unsupportedFields.head? with
  | some key =>
    rw [hu] at h
    exact absurd h (by simp)
  | none =>
    rw [hu] at h
    cases hb : child.bases with
    | none =>
      rw [hb] at h
      exact .inl ⟨rfl, h⟩
    | some bases =>
      rw [hb] at h
      exact .inr ⟨rfl, h⟩

end Fragment

/-! ## A run of layers -/

/-- What folding the layers makes of the cell. -/
def Field.run (root : Path) (field : Field) (layers : List Layer) (c : Cell field) :
    Except FoldError (Cell field) :=
  layers.foldlM (fun c layer => layer.fragment.foldCell (layer.site root) field c) c

theorem Field.run_cons {root : Path} {field : Field} {layer : Layer} {rest : List Layer}
    {c c' : Cell field} :
    field.run root (layer :: rest) c = .ok c' ↔
      ∃ d, layer.fragment.foldCell (layer.site root) field c = .ok d ∧
        field.run root rest d = .ok c' := by
  show (layer.fragment.foldCell (layer.site root) field c >>= field.run root rest) = _ ↔ _
  exact bind_eq_ok_iff

theorem Field.run_induction {root : Path} {field : Field} {motive : Cell field → Prop}
    {layers : List Layer}
    (hstep : ∀ layer ∈ layers, ∀ c c',
      layer.fragment.foldCell (layer.site root) field c = .ok c' → motive c → motive c')
    {c c' : Cell field} (h : field.run root layers c = .ok c') (hc : motive c) : motive c' := by
  induction layers generalizing c with
  | nil =>
    obtain rfl : c = c' := Except.ok.inj h
    exact hc
  | cons layer rest ih =>
    obtain ⟨d, hd, hrest⟩ := run_cons.1 h
    have hmotive : motive d := hstep layer List.mem_cons_self c d hd hc
    exact ih (fun l hl => hstep l (List.mem_cons_of_mem layer hl)) hrest hmotive

/-- What adding a new base and marking the directory of the layer preserve, folding a list of bases
preserves. -/
theorem Field.foldBases_induction {site : Site} {motive : Cell .bases → Prop}
    (hadd : ∀ value base c, site.rebase .bases value = .ok base → base ∉ c.seen →
      motive c → motive (addBase base c))
    (hown : ∀ own c, site.rebase .bases "." = .ok own → motive c → motive (c.take [own] c.value))
    {values : List String} {c c' : Cell .bases} (h : foldBases site values c = .ok c')
    (hc : motive c) : motive c' := by
  induction values generalizing c with
  | nil =>
    obtain rfl : c = c' := Except.ok.inj h
    exact hc
  | cons value rest ih =>
    unfold foldBases at h
    obtain ⟨base, hbase, hrest⟩ := bind_eq_ok_iff.1 h
    by_cases hk : base ∈ c.seen
    · rw [if_pos hk] at hrest
      obtain ⟨own, ho, hrest⟩ := bind_eq_ok_iff.1 hrest
      exact ih hrest (hown own c ho hc)
    · rw [if_neg hk] at hrest
      exact ih hrest (hadd value base c hbase hk hc)

/-- The same for a run: it is all that ever happens to the bases. -/
theorem Field.run_bases_induction {root : Path} {layers : List Layer}
    {motive : Cell .bases → Prop}
    (hadd : ∀ layer ∈ layers, ∀ value base c, root.rebase layer.dir value = .ok base →
      base ∉ c.seen → motive c → motive (addBase base c))
    (hown : ∀ layer ∈ layers, ∀ own c, root.rebase layer.dir "." = .ok own →
      motive c → motive (c.take [own] c.value))
    {c c' : Cell .bases} (h : run root .bases layers c = .ok c') (hc : motive c) : motive c' := by
  refine run_induction (fun layer hl d d' hd hmotive => ?_) h hc
  rcases Fragment.foldCell_eq_ok hd with ⟨-, hd⟩ | ⟨-, hd⟩
  · rw [foldWhole_bases] at hd
    obtain ⟨base, hbase, rfl⟩ := map_eq_ok_iff.1 hd
    by_cases hk : base ∈ d.seen
    · rw [if_pos hk]
      exact hmotive
    · rw [if_neg hk]
      exact hadd layer hl "." base d (Site.rebase_eq_ok_iff.1 hbase) hk hmotive
  · refine foldBases_induction ?_ ?_ hd hmotive
    · intro value base e hbase
      exact hadd layer hl value base e (Site.rebase_eq_ok_iff.1 hbase)
    · intro own e ho
      exact hown layer hl own e (Site.rebase_eq_ok_iff.1 ho)

theorem Component.foldLayers_cons {root : Path} {layer : Layer} {rest : List Layer}
    {acc acc' : Accumulator} :
    foldLayers root (layer :: rest) acc = .ok acc' ↔
      ∃ mid, (layer.fold root).outcome acc = .ok ((), mid) ∧
        foldLayers root rest mid = .ok acc' := by
  rw [foldLayers]
  cases hl : (layer.fold root).run acc with
  | error e mid =>
    have hout : (layer.fold root).outcome acc = .error e := by
      show Folding.outcome _ acc = _
      unfold Folding.outcome
      rw [show (layer.fold root) acc = _ from hl]
    simp [hout]
  | ok a mid =>
    have hout : (layer.fold root).outcome acc = .ok ((), mid) := Folding.outcome_eq_ok_iff.2 hl
    simp [hout]

/-- A run of layers is a run in every cell, and leaves the header alone. -/
theorem Component.run_of_foldLayers {root : Path} {layers : List Layer} {acc acc' : Accumulator}
    (h : foldLayers root layers acc = .ok acc') :
    acc'.fragment.header = acc.fragment.header ∧
      ∀ field, Field.run root field layers (acc.cell field) = .ok (acc'.cell field) := by
  induction layers generalizing acc with
  | nil =>
    obtain rfl : acc = acc' := Except.ok.inj h
    exact ⟨rfl, fun _ => rfl⟩
  | cons layer rest ih =>
    obtain ⟨mid, hmid, hrest⟩ := foldLayers_cons.1 h
    obtain ⟨hh, hcells⟩ := Fragment.outcome_foldInto_eq_ok_iff.1 hmid
    obtain ⟨hh', hruns⟩ := ih hrest
    refine ⟨hh'.trans hh, fun field => ?_⟩
    exact Field.run_cons.2 ⟨mid.cell field, hcells field, hruns field⟩

/-- Runs in all cells make a run of layers. -/
theorem Component.foldLayers_of_runs {root : Path} {layers : List Layer} {acc acc' : Accumulator}
    (hh : acc'.fragment.header = acc.fragment.header)
    (h : ∀ field, Field.run root field layers (acc.cell field) = .ok (acc'.cell field)) :
    foldLayers root layers acc = .ok acc' := by
  induction layers generalizing acc with
  | nil =>
    have hcells : ∀ field, acc.cell field = acc'.cell field := fun field => Except.ok.inj (h field)
    have hacc : acc = acc' := Accumulator.ext_cells hh.symm hcells
    rw [hacc]
    rfl
  | cons layer rest ih =>
    choose mid hfirst hrest using fun field => Field.run_cons.1 (h field)
    obtain ⟨acc₁, hheader, hcells⟩ := Accumulator.exists_of_cells acc.fragment.header mid
    have hone : (layer.fold root).outcome acc = .ok ((), acc₁) := by
      refine Fragment.outcome_foldInto_eq_ok_iff.2 ⟨hheader, fun field => ?_⟩
      rw [hcells field]
      exact hfirst field
    have hmore : foldLayers root rest acc₁ = .ok acc' := by
      refine ih (hh.trans hheader.symm) fun field => ?_
      rw [hcells field]
      exact hrest field
    exact foldLayers_cons.2 ⟨acc₁, hone, hmore⟩

/-- Composing is a run from nothing, after which the name space is decided on. -/
theorem Component.merge_eq_ok_iff {d : Deployment} {root : Path} {base : Layer}
    {overlays : List Layer} {parameters : List Parameter} {f : Fragment} :
    merge d root base overlays parameters = .ok f ↔
      ∃ acc, foldLayers root (base :: overlays) .blank = .ok acc ∧
        f = acc.fragment.set .nameSpace (nameSpace d parameters acc.fragment.nameSpace) := by
  unfold merge
  rw [bind_eq_ok_iff]
  refine exists_congr fun acc => and_congr_right fun _ => ?_
  constructor
  · intro h
    exact (Except.ok.inj h).symm
  · rintro rfl
    rfl

/-- A fragment that is taken apart and has nothing in it. -/
def Fragment.hollow : Fragment := { bases := some [] }

theorem Field.fold_hollow (site : Site) (field : Field) :
    field.fold site (Fragment.hollow.get field) (Accumulator.blank.cell field) =
      .ok (Accumulator.blank.cell field) := by
  cases field <;> rfl

/-- A run of one layer that has one field. -/
theorem Component.exists_foldLayers (root dir : Path) {field : Field} {v : field.Value}
    {c : Cell field} (hu : (Fragment.hollow.set field v).unsupportedFields.head? = none)
    (hb : (Fragment.hollow.set field v).bases.isSome = true)
    (hfield : field.fold ⟨root, dir⟩ v (Accumulator.blank.cell field) = .ok c) :
    ∃ acc, foldLayers root [⟨dir, Fragment.hollow.set field v⟩] .blank = .ok acc ∧
      acc.cell field = c := by
  refine ⟨Accumulator.blank.put field c, ?_, Accumulator.cell_put_self .blank field c⟩
  refine foldLayers_of_runs (Accumulator.header_put .blank field c) fun g => ?_
  refine Field.run_cons.2 ⟨(Accumulator.blank.put field c).cell g, ?_, rfl⟩
  rw [Fragment.foldCell_of_isSome hu hb]
  by_cases hg : g = field
  · subst hg
    rw [Accumulator.cell_put_self, Fragment.get_set_self]
    exact hfield
  · rw [Accumulator.cell_put_of_ne _ c hg, Fragment.get_set_of_ne _ v hg]
    exact Field.fold_hollow ⟨root, dir⟩ g

/-! ## Entries of the layers that are taken apart -/

namespace Layer

variable {α : Type}

/-- The entries of the layers that have bases, each with the directory of its layer. -/
def entries (values : Fragment → List α) (layers : List Layer) : List (Path × α) :=
  (layers.filter fun layer => layer.fragment.bases.isSome).flatMap fun layer =>
    (values layer.fragment).map (layer.dir, ·)

def located (root : Path) (es : List (Path × α)) : List (Site × α) :=
  es.map fun e => (⟨root, e.1⟩, e.2)

theorem located_append (root : Path) (xs ys : List (Path × α)) :
    located root (xs ++ ys) = located root xs ++ located root ys :=
  List.map_append

theorem map_snd_located (root : Path) (es : List (Path × α)) :
    (located root es).map (·.2) = es.map (·.2) := by
  unfold located
  rw [List.map_map]
  rfl

theorem entries_of_isSome {layer : Layer} (h : layer.fragment.bases.isSome = true)
    (values : Fragment → List α) (rest : List Layer) :
    entries values (layer :: rest) =
      (values layer.fragment).map (layer.dir, ·) ++ entries values rest := by
  unfold entries
  rw [List.filter_cons, if_pos h, List.flatMap_cons]

theorem entries_of_not_isSome {layer : Layer} (h : layer.fragment.bases.isSome = false)
    (values : Fragment → List α) (rest : List Layer) :
    entries values (layer :: rest) = entries values rest := by
  unfold entries
  rw [List.filter_cons, if_neg (by simp [h])]

end Layer

/-! ## Fields that only grow -/

/-- A field that only grows: of the entries of a layer it adds those that `accept` accepts. -/
structure Field.Grows (field : Field) {α β : Type} (values : Fragment → List α)
    (accept : List String → List (Site × α) → Except FoldError (Accepted β))
    (add : field.Value → List β → field.Value) : Prop where
  sequential : Accepted.Sequential accept
  add_nil : ∀ v, add v [] = v
  add_append : ∀ v bs cs, add (add v bs) cs = add v (bs ++ cs)
  ne_bases : field ≠ .bases
  fold_eq : ∀ (site : Site) (child : Fragment) (c : Cell field),
    field.fold site (child.get field) c =
      (accept c.seen ((values child).map (site, ·))).map fun k =>
        c.take k.keys (add c.value k.entries)

/-- The whole run has accepted the entries of all layers as if they had stood in one. -/
theorem Field.Grows.run_accepted {field : Field} {α β : Type} {values : Fragment → List α}
    {accept : List String → List (Site × α) → Except FoldError (Accepted β)}
    {add : field.Value → List β → field.Value} (hg : field.Grows values accept add)
    {root : Path} {layers : List Layer} {c c' : Cell field}
    (h : field.run root layers c = .ok c') :
    ∃ k, accept c.seen (Layer.located root (Layer.entries values layers)) = .ok k ∧
      c' = c.take k.keys (add c.value k.entries) := by
  induction layers generalizing c with
  | nil =>
    obtain rfl : c = c' := Except.ok.inj h
    refine ⟨⟨[], []⟩, hg.sequential.nil c.seen, ?_⟩
    exact Cell.ext_of (hg.add_nil c.value).symm rfl
  | cons layer rest ih =>
    obtain ⟨d, hd, hrest⟩ := run_cons.1 h
    obtain ⟨l, hl, hc'⟩ := ih hrest
    rcases Fragment.foldCell_eq_ok hd with ⟨hb, hd⟩ | ⟨hb, hd⟩
    -- A layer without bases leaves this cell alone, and has no entries to speak of.
    · rw [Field.foldWhole_of_ne hg.ne_bases] at hd
      obtain rfl : c = d := Except.ok.inj hd
      rw [Layer.entries_of_not_isSome hb]
      exact ⟨l, hl, hc'⟩
    · rw [hg.fold_eq] at hd
      obtain ⟨k, hk, rfl⟩ := map_eq_ok_iff.1 hd
      refine ⟨⟨k.keys ++ l.keys, k.entries ++ l.entries⟩, ?_, ?_⟩
      · have hhead : Layer.located root ((values layer.fragment).map (layer.dir, ·)) =
            (values layer.fragment).map (layer.site root, ·) := by
          unfold Layer.located
          rw [List.map_map]
          rfl
        rw [Layer.entries_of_isSome hb, Layer.located_append, hg.sequential.append, hhead, hk,
          ok_bind]
        have hseen : (c.take k.keys (add c.value k.entries)).seen = meet c.seen k.keys := rfl
        rw [← hseen, hl]
        rfl
      · rw [hc']
        refine Cell.ext_of ?_ ?_
        · exact hg.add_append c.value k.entries l.entries
        · show meet (meet c.seen k.keys) l.keys = meet c.seen (k.keys ++ l.keys)
          rw [meet_append]

end LayeredConfig
