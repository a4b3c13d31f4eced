/-
Fields are folded apart from each other.

What becomes of a field depends on what the layer has in that field, on the cell of that field, and
on whether the layer is taken apart. So of two folds that agree on all this the results agree on the
field, whatever else there is (`Fragment.foldInto_apart`). The keys that are known count as a set:
in which order they have been met makes no difference. As each policy is for a field of its own, the
order of the policies makes none either.
-/
import Mathlib
import LayeredConfig.Proofs.Fold.Appended
import LayeredConfig.Proofs.Yaml.Decide

namespace LayeredConfig

/-! ## Cells that agree -/

/-- The values of the cells are related, and the same keys are known in both. -/
structure Cell.Alike {field : Field} (R : field.Value → field.Value → Prop) (c d : Cell field) :
    Prop where
  value : R c.value d.value
  seen_iff : ∀ key, key ∈ c.seen ↔ key ∈ d.seen

theorem Cell.Alike.take {field : Field} {R : field.Value → field.Value → Prop} {c d : Cell field}
    (h : c.Alike R d) (keys : List String) {v w : field.Value} (hvalue : R v w) :
    (c.take keys v).Alike R (d.take keys w) where
  value := hvalue
  seen_iff key := by
    show key ∈ meet c.seen keys ↔ key ∈ meet d.seen keys
    rw [mem_meet, mem_meet, h.seen_iff]

/-! ## Fields -/

/-- What is accepted depends on which keys are known, not on their order. -/
def Accepted.IgnoresOrder {α β : Type}
    (accept : List String → List α → Except FoldError (Accepted β)) : Prop :=
  ∀ known known' entries, (∀ k, k ∈ known ↔ k ∈ known') →
    accept known entries = accept known' entries

namespace Accepted

variable {γ : Type}

theorem ignoresOrder_paths (field : Field) : IgnoresOrder (paths field) := by
  intro known known' values h
  unfold paths
  simp only [novel, sift_congr _ _ h]

theorem ignoresOrder_firsts (identity : γ → String) : IgnoresOrder (firsts identity) := by
  intro known known' entries h
  unfold firsts
  rw [novel, sift_congr _ _ h]

theorem ignoresOrder_generators (kind : GeneratorKind γ) (field : Field) :
    IgnoresOrder (generators kind field) := by
  intro known known' entries h
  unfold generators keptGenerators
  rw [sift_congr _ _ h]

theorem ignoresOrder_patches : IgnoresOrder patches := fun _ _ _ _ => rfl

end Accepted

namespace Field

variable {site : Site} {field : Field} {child : Fragment}

theorem Grows.alike {α β : Type} {values : Fragment → List α}
    {accept : List String → List (Site × α) → Except FoldError (Accepted β)}
    {add : field.Value → List β → field.Value} (hg : field.Grows values accept add)
    (haccept : Accepted.IgnoresOrder accept) {c d c' d' : Cell field} (h : c.Alike Eq d)
    (hc : field.fold site (child.get field) c = .ok c')
    (hd : field.fold site (child.get field) d = .ok d') : c'.Alike Eq d' := by
  rw [hg.fold_eq] at hc hd
  obtain ⟨k, hk, rfl⟩ := map_eq_ok_iff.1 hc
  rw [haccept _ _ _ h.seen_iff] at hk
  rw [hk, map_ok] at hd
  obtain rfl := Except.ok.inj hd
  exact h.take k.keys (by rw [h.value])

/-- A relation between lists of bases that adding a base to both preserves. -/
def Extends (R : Option (List String) → Option (List String) → Prop) : Prop :=
  ∀ v w base, R v w → R (some (v.getD [] ++ [base])) (some (w.getD [] ++ [base]))

theorem foldBases_alike {R : Option (List String) → Option (List String) → Prop} (hR : Extends R)
    {values : List String} {c d c' d' : Cell .bases} (h : c.Alike R d)
    (hc : foldBases site values c = .ok c') (hd : foldBases site values d = .ok d') :
    c'.Alike R d' := by
  induction values generalizing c d with
  | nil =>
    obtain rfl : c = c' := Except.ok.inj hc
    obtain rfl : d = d' := Except.ok.inj hd
    exact h
  | cons value rest ih =>
    unfold foldBases at hc hd
    obtain ⟨base, hbase, hc⟩ := bind_eq_ok_iff.1 hc
    rw [hbase, ok_bind] at hd
    by_cases hk : base ∈ c.seen
    · rw [if_pos hk] at hc
      rw [if_pos ((h.seen_iff base).1 hk)] at hd
      obtain ⟨own, ho, hc⟩ := bind_eq_ok_iff.1 hc
      rw [ho, ok_bind] at hd
      exact ih (h.take [own] h.value) hc hd
    · rw [if_neg hk] at hc
      rw [if_neg (mt (h.seen_iff base).2 hk)] at hd
      exact ih (h.take [base] (hR _ _ base h.value)) hc hd

theorem foldWhole_alike {R : Option (List String) → Option (List String) → Prop} (hR : Extends R)
    {c d c' d' : Cell .bases} (h : c.Alike R d) (hc : foldWhole site .bases c = .ok c')
    (hd : foldWhole site .bases d = .ok d') : c'.Alike R d' := by
  rw [foldWhole_bases] at hc hd
  obtain ⟨base, hbase, hc⟩ := map_eq_ok_iff.1 hc
  rw [hbase, map_ok] at hd
  have hd := Except.ok.inj hd
  by_cases hk : base ∈ c.seen
  · rw [if_pos hk] at hc
    rw [if_pos ((h.seen_iff base).1 hk)] at hd
    rwa [← hc, ← hd]
  · rw [if_neg hk] at hc
    rw [if_neg (mt (h.seen_iff base).2 hk)] at hd
    rw [← hc, ← hd]
    exact h.take [base] (hR _ _ base h.value)

theorem extends_eq : Extends Eq := fun v w base h => by rw [h]

/-- The lists of bases are the same, where none counts as empty. -/
def SameBases (v w : Option (List String)) : Prop := v.getD [] = w.getD []

theorem extends_sameBases : Extends SameBases := fun v w base h => by
  show v.getD [] ++ [base] = w.getD [] ++ [base]
  rw [h]

theorem foldWhole_eq_alike {c d c' d' : Cell field} (h : c.Alike Eq d)
    (hc : field.foldWhole site c = .ok c') (hd : field.foldWhole site d = .ok d') :
    c'.Alike Eq d' := by
  by_cases hfield : field = .bases
  · subst hfield
    exact foldWhole_alike extends_eq h hc hd
  · rw [foldWhole_of_ne hfield] at hc hd
    obtain rfl := Except.ok.inj hc
    obtain rfl := Except.ok.inj hd
    exact h

/-- Folding a field keeps cells alike. -/
theorem fold_alike {c d c' d' : Cell field} (h : c.Alike Eq d)
    (hc : field.fold site (child.get field) c = .ok c')
    (hd : field.fold site (child.get field) d = .ok d') : c'.Alike Eq d' := by
  cases field with
  | bases => exact foldBases_alike extends_eq h hc hd
  | namePrefix | nameSuffix | nameSpace | commonLabels | commonAnnotations | generatorOptions =>
    obtain rfl := Except.ok.inj hc
    obtain rfl := Except.ok.inj hd
    exact h.take _ (by rw [h.value])
  | resources => exact grows_resources.alike (Accepted.ignoresOrder_paths _) h hc hd
  | images => exact grows_images.alike (Accepted.ignoresOrder_firsts _) h hc hd
  | crds => exact grows_crds.alike (Accepted.ignoresOrder_firsts _) h hc hd
  | configMaps => exact grows_configMaps.alike (Accepted.ignoresOrder_generators _ _) h hc hd
  | secrets => exact grows_secrets.alike (Accepted.ignoresOrder_generators _ _) h hc hd
  | vars => exact grows_vars.alike (Accepted.ignoresOrder_firsts _) h hc hd
  | strategicPatches => exact grows_strategicPatches.alike (Accepted.ignoresOrder_paths _) h hc hd
  | jsonPatches => exact grows_jsonPatches.alike Accepted.ignoresOrder_patches h hc hd
  | configurations => exact grows_configurations.alike (Accepted.ignoresOrder_paths _) h hc hd

end Field

/-! ## Layers -/

namespace Fragment

/-- Folds a fragment as `foldInto` does, with the policies in the order of the table. -/
def foldBy (table : List (Field × Policy)) (site : Site) (child : Fragment) : Folding Unit :=
  match child.unsupportedFields.head? with
  | some field => throw (.unsupported field site.file)
  | none =>
    if child.bases.isNone then do
      let base ← Folding.lift (site.rebase .bases ".")
      if ← Folding.mark .bases base then Policy.addBase base
    else table.forM fun p => p.2 site child

variable {site : Site} {child child₁ child₂ : Fragment} {acc acc' acc₁ acc₁' acc₂ acc₂' : Accumulator}

theorem foldBy_all : child.foldBy Policy.all site = child.foldInto site := rfl

theorem run_foldBy_iff {table : List (Field × Policy)} (h : table.Perm Policy.all) :
    (child.foldBy table site).run acc = .ok () acc' ↔
      (child.foldInto site).run acc = .ok () acc' := by
  rw [← foldBy_all, ← Folding.outcome_eq_ok_iff, ← Folding.outcome_eq_ok_iff]
  unfold foldBy
  cases child.unsupportedFields.head? with
  | some key => rfl
  | none =>
    by_cases hb : child.bases.isNone = true
    · simp only [hb, if_true]
    -- Which policies have acted is all that counts, and these are the same.
    · have hactsOn : ∀ p ∈ table, Policy.ActsOn p.1 p.2 := fun p hp =>
        Policy.actsOn_of_mem_all p (h.mem_iff.1 hp)
      have hfields : (table.map (·.1)).Perm (Policy.all.map (·.1)) := h.map _
      have hnodup : (table.map (·.1)).Nodup := hfields.nodup_iff.2 Policy.nodup_fields
      simp only [hb, Bool.false_eq_true, if_false]
      rw [Policy.outcome_forM_eq_ok_iff hactsOn hnodup,
        Policy.outcome_forM_eq_ok_iff Policy.actsOn_of_mem_all Policy.nodup_fields]
      simp only [hfields.mem_iff]

/-- Folding cells that are alike, of layers that are alike, leaves them alike. -/
theorem foldCell_alike {field : Field} {R : field.Value → field.Value → Prop}
    (hb : child₁.bases.isSome = child₂.bases.isSome)
    (hwhole : ∀ c d c' d' : Cell field, c.Alike R d → field.foldWhole site c = .ok c' →
      field.foldWhole site d = .ok d' → c'.Alike R d')
    (hfold : ∀ c d c' d' : Cell field, c.Alike R d → field.fold site (child₁.get field) c = .ok c' →
      field.fold site (child₂.get field) d = .ok d' → c'.Alike R d')
    {c d c' d' : Cell field} (h : c.Alike R d) (hc : child₁.foldCell site field c = .ok c')
    (hd : child₂.foldCell site field d = .ok d') : c'.Alike R d' := by
  rcases foldCell_eq_ok hc with ⟨hb₁, hc⟩ | ⟨hb₁, hc⟩
  · rcases foldCell_eq_ok hd with ⟨hb₂, hd⟩ | ⟨hb₂, hd⟩
    · exact hwhole c d c' d' h hc hd
    · exact absurd (hb.symm.trans hb₁) (by simp [hb₂])
  · rcases foldCell_eq_ok hd with ⟨hb₂, hd⟩ | ⟨hb₂, hd⟩
    · exact absurd (hb.symm.trans hb₁) (by simp [hb₂])
    · exact hfold c d c' d' h hc hd

/-- Two folds that agree on a field, and on whether the layer is taken apart, have results that
agree on it. Of the bases it is the list that counts, whether or not there is one if it is empty.
The order in which the policies are applied has no effect. -/
theorem foldInto_apart (hb : child₁.bases.isSome = child₂.bases.isSome)
    (h₁ : (child₁.foldInto site).run acc₁ = .ok () acc₁')
    (h₂ : (child₂.foldInto site).run acc₂ = .ok () acc₂') :
    (∀ field, child₁.get field = child₂.get field →
      (acc₁.cell field).Alike Eq (acc₂.cell field) →
      (acc₁'.cell field).Alike Eq (acc₂'.cell field)) ∧
    (child₁.bases.getD [] = child₂.bases.getD [] →
      (acc₁.cell .bases).Alike Field.SameBases (acc₂.cell .bases) →
      (acc₁'.cell .bases).Alike Field.SameBases (acc₂'.cell .bases)) ∧
    ∀ table, table.Perm Policy.all → (child₁.foldBy table site).run acc₁ = .ok () acc₁' := by
  have hc₁ := (outcome_foldInto_eq_ok_iff.1 (Folding.outcome_eq_ok_iff.2 h₁)).2
  have hc₂ := (outcome_foldInto_eq_ok_iff.1 (Folding.outcome_eq_ok_iff.2 h₂)).2
  refine ⟨fun field hget hstart => ?_, fun hbases hstart => ?_, fun table htable => ?_⟩
  · refine foldCell_alike hb (fun c d c' d' h hc hd => ?_) (fun c d c' d' h hc hd => ?_)
      hstart (hc₁ field) (hc₂ field)
    · exact Field.foldWhole_eq_alike h hc hd
    · rw [← hget] at hd
      exact Field.fold_alike h hc hd
  · refine foldCell_alike hb (fun c d c' d' h hc hd => ?_) (fun c d c' d' h hc hd => ?_)
      hstart (hc₁ .bases) (hc₂ .bases)
    · exact Field.foldWhole_alike Field.extends_sameBases h hc hd
    · have hd : Field.foldBases site (child₂.bases.getD []) d = .ok d' := hd
      rw [← hbases] at hd
      exact Field.foldBases_alike Field.extends_sameBases h hc hd
  · exact (run_foldBy_iff htable).2 h₁

/-- The config maps have been met in another order, and the layers differ in all else. -/
theorem foldInto_apart_of_other_secrets :
    let site : Site := ⟨.ofString "app", .ofString "app/x"⟩
    let maps : List Generator :=
      [{ name := "a", behavior := .create }, { name := "c", behavior := .create }]
    let child₁ : Fragment := { bases := some [], configMaps := maps }
    let child₂ : Fragment :=
      { bases := some ["../y"], configMaps := maps, secrets := [{ name := "c", behavior := .create }] }
    let acc₁ : Accumulator := ⟨.blank, (Ledger.empty.add .configMaps "a").add .configMaps "b"⟩
    let acc₂ : Accumulator :=
      ⟨{ Fragment.blank with namePrefix := "p" },
        (Ledger.empty.add .configMaps "b").add .configMaps "a"⟩
    ∃ acc₁' acc₂', (child₁.foldInto site).run acc₁ = .ok () acc₁' ∧
      (child₂.foldInto site).run acc₂ = .ok () acc₂' ∧
      (acc₁.cell .configMaps).Alike Eq (acc₂.cell .configMaps) ∧
      (acc₁'.cell .configMaps).Alike Eq (acc₂'.cell .configMaps) ∧
      Policy.all.reverse.Perm Policy.all ∧
      (child₁.foldBy Policy.all.reverse site).run acc₁ = .ok () acc₁' := by
  intro site maps child₁ child₂ acc₁ acc₂
  have hout₁ : ((child₁.foldInto site).outcome acc₁).map (·.2.fragment.bases) = .ok none := by decide +kernel
  have hout₂ : ((child₂.foldInto site).outcome acc₂).map (·.2.fragment.bases) = .ok (some ["y"]) := by
    decide +kernel
  obtain ⟨⟨⟨⟩, acc₁'⟩, h₁, -⟩ := map_eq_ok_iff.1 hout₁
  obtain ⟨⟨⟨⟩, acc₂'⟩, h₂, -⟩ := map_eq_ok_iff.1 hout₂
  rw [Folding.outcome_eq_ok_iff] at h₁ h₂
  have hstart : (acc₁.cell .configMaps).Alike Eq (acc₂.cell .configMaps) := by
    refine ⟨rfl, fun key => ?_⟩
    show key ∈ ["a", "b"] ↔ key ∈ ["b", "a"]
    rw [List.mem_pair, List.mem_pair, or_comm]
  have hb : child₁.bases.isSome = child₂.bases.isSome := rfl
  obtain ⟨hfields, -, horder⟩ := foldInto_apart hb h₁ h₂
  have hperm : Policy.all.reverse.Perm Policy.all := List.reverse_perm _
  exact ⟨acc₁', acc₂', h₁, h₂, hstart, hfields .configMaps rfl hstart, hperm, horder _ hperm⟩

end Fragment
end LayeredConfig
