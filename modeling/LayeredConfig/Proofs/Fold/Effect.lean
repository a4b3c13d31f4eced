/-
What folding a layer does to each cell.

`Field.fold` says for each field what becomes of its cell, from that cell and that field of the
layer alone. Each policy does just this to the accumulator and nothing else
(`Policy.actsOn_of_mem_all`), so folding a layer is the product of what happens to the cells
(`foldInto_eq_ok_iff`).
-/
import LayeredConfig.Fold.Layer
import LayeredConfig.Proofs.Fold.Outcome

namespace LayeredConfig

/-! ## Effects -/

namespace Field

def addBase (base : String) (c : Cell .bases) : Cell .bases :=
  c.take [base] (some (c.value.getD [] ++ [base]))

/-- Folds a list of bases. One that is known marks the directory of the layer. -/
def foldBases (site : Site) : List String → Cell .bases → Except FoldError (Cell .bases)
  | [], c => .ok c
  | value :: rest, c => do
    let base ← site.rebase .bases value
    if base ∈ c.seen then
      let own ← site.rebase .bases "."
      foldBases site rest (c.take [own] c.value)
    else foldBases site rest (addBase base c)

/-- What folding that field of a layer makes of the cell. -/
def fold (site : Site) : (field : Field) → field.Value → Cell field →
    Except FoldError (Cell field)
  | .bases, v, c => foldBases site (v.getD []) c
  | .namePrefix, v, c => .ok (c.take [] (Policy.firstNonEmpty c.value v))
  | .nameSuffix, v, c => .ok (c.take [] (Policy.firstNonEmpty c.value v))
  | .nameSpace, v, c => .ok (c.take [] (Policy.firstNonEmpty c.value v))
  | .commonLabels, v, c => .ok (c.take v.keys (c.value.merge v))
  | .commonAnnotations, v, c => .ok (c.take v.keys (c.value.merge v))
  | .generatorOptions, v, c => .ok (c.take [] (c.value.or v))
  | .resources, v, c =>
    (Accepted.paths .resources c.seen (v.map (site, ·))).map fun k =>
      c.take k.keys (c.value ++ k.entries)
  | .images, v, c =>
    (Accepted.firsts (·.name) c.seen (v.map (site, ·))).map fun k =>
      c.take k.keys (c.value ++ k.entries)
  | .crds, v, c =>
    (Accepted.firsts id c.seen (v.map (site, ·))).map fun k =>
      c.take k.keys (c.value ++ k.entries)
  | .configMaps, v, c =>
    (Accepted.generators .configMap .configMaps c.seen (v.map (site, ·))).map fun k =>
      c.take k.keys (c.value ++ k.entries)
  | .secrets, v, c =>
    (Accepted.generators .secret .secrets c.seen (v.map (site, ·))).map fun k =>
      c.take k.keys (c.value ++ k.entries)
  | .vars, v, c =>
    (Accepted.firsts (·.name) c.seen (v.map (site, ·))).map fun k =>
      c.take k.keys (c.value ++ k.entries)
  | .strategicPatches, v, c =>
    (Accepted.paths .strategicPatches c.seen (v.map (site, ·))).map fun k =>
      c.take k.keys (c.value ++ k.entries)
  | .jsonPatches, v, c =>
    (Accepted.patches c.seen (v.map (site, ·))).map fun k => c.take k.keys (c.value ++ k.entries)
  | .configurations, v, c =>
    (Accepted.paths .configurations c.seen (v.map (site, ·))).map fun k =>
      c.take k.keys (c.value ++ k.entries)

end Field

/-! ## Policies act on their cells -/

/-- The policy does to the cell of its field what folding that field does, and nothing else. -/
def Policy.ActsOn (field : Field) (policy : Policy) : Prop :=
  ∀ (site : Site) (child : Fragment) (acc : Accumulator),
    (policy site child).outcome acc =
      (field.fold site (child.get field) (acc.cell field)).map fun c => ((), acc.put field c)

namespace Policy

open Folding

variable {β : Type}

theorem put_take (acc : Accumulator) {field : Field} (keys : List String) (v : field.Value) :
    acc.put field ((acc.cell field).take keys v) =
      ⟨acc.fragment.set field v, acc.ledger.addAll field keys⟩ := by
  rw [Ledger.addAll_eq_set]
  rfl

/-- A policy that only changes the value of its field. -/
theorem outcome_change (acc : Accumulator) (field : Field) (value : Fragment → field.Value) :
    outcome (update fun f => f.set field (value f)) acc =
      .ok ((), acc.put field ((acc.cell field).take [] (value acc.fragment))) := by
  rw [put_take]
  rfl

/-- A policy that puts a dictionary into that of its field. -/
theorem outcome_merge (acc : Accumulator) (field : Field) (value : Fragment → field.Value)
    (keys : List String) :
    outcome (update (fun f => f.set field (value f)) >>= fun _ => markAll field keys) acc =
      .ok ((), acc.put field ((acc.cell field).take keys (value acc.fragment))) := by
  rw [outcome_bind, outcome_update, ok_bind, outcome_markAll, put_take]

/-- A policy that adds what it accepts to the list of its field. -/
theorem outcome_accept {acc : Accumulator} {field : Field} {x : Folding (List β)}
    {accepted : Except FoldError (Accepted β)}
    (hx : outcome x acc = accepted.map fun k =>
      (k.entries, { acc with ledger := acc.ledger.addAll field k.keys }))
    (value : Fragment → List β → field.Value) :
    outcome (x >>= fun bs => update fun f => f.set field (value f bs)) acc =
      (accepted.map fun k =>
        (acc.cell field).take k.keys (value acc.fragment k.entries)).map fun c =>
          ((), acc.put field c) := by
  rw [outcome_bind, hx]
  cases accepted with
  | error e => rfl
  | ok k =>
    simp only [map_ok, ok_bind, put_take]
    rfl

theorem actsOn_namePrefix : ActsOn .namePrefix namePrefix := fun _ child acc =>
  outcome_change acc .namePrefix fun f => firstNonEmpty f.namePrefix child.namePrefix

theorem actsOn_nameSuffix : ActsOn .nameSuffix nameSuffix := fun _ child acc =>
  outcome_change acc .nameSuffix fun f => firstNonEmpty f.nameSuffix child.nameSuffix

theorem actsOn_nameSpace : ActsOn .nameSpace nameSpace := fun _ child acc =>
  outcome_change acc .nameSpace fun f => firstNonEmpty f.nameSpace child.nameSpace

theorem actsOn_generatorOptions : ActsOn .generatorOptions generatorOptions := fun _ child acc =>
  outcome_change acc .generatorOptions fun f => f.generatorOptions.or child.generatorOptions

theorem actsOn_commonLabels : ActsOn .commonLabels commonLabels := fun _ child acc =>
  outcome_merge acc .commonLabels (fun f => f.commonLabels.merge child.commonLabels)
    child.commonLabels.keys

theorem actsOn_commonAnnotations : ActsOn .commonAnnotations commonAnnotations :=
  fun _ child acc =>
    outcome_merge acc .commonAnnotations
      (fun f => f.commonAnnotations.merge child.commonAnnotations) child.commonAnnotations.keys

theorem actsOn_resources : ActsOn .resources resources := fun site child acc =>
  outcome_accept (outcome_unseenPaths site .resources child.resources acc)
    fun f accepted => f.resources ++ accepted

theorem actsOn_configurations : ActsOn .configurations configurations := fun site child acc =>
  outcome_accept (outcome_unseenPaths site .configurations child.configurations acc)
    fun f accepted => f.configurations ++ accepted

theorem actsOn_strategicPatches : ActsOn .strategicPatches strategicPatches :=
  fun site child acc =>
    outcome_accept (outcome_unseenPaths site .strategicPatches child.strategicPatches acc)
      fun f accepted => f.strategicPatches ++ accepted

theorem actsOn_images : ActsOn .images images := fun site child acc =>
  outcome_accept (outcome_firstOfEach site .images (·.name) child.images acc)
    fun f accepted => f.images ++ accepted

theorem actsOn_crds : ActsOn .crds crds := fun site child acc =>
  outcome_accept (outcome_firstOfEach site .crds id child.crds acc)
    fun f accepted => f.crds ++ accepted

theorem actsOn_vars : ActsOn .vars vars := fun site child acc =>
  outcome_accept (outcome_firstOfEach site .vars (·.name) child.vars acc)
    fun f accepted => f.vars ++ accepted

theorem actsOn_configMaps : ActsOn .configMaps configMaps := fun site child acc =>
  outcome_accept (outcome_generators .configMap site .configMaps child.configMaps acc)
    fun f accepted => f.configMaps ++ accepted

theorem actsOn_secrets : ActsOn .secrets secrets := fun site child acc =>
  outcome_accept (outcome_generators .secret site .secrets child.secrets acc)
    fun f accepted => f.secrets ++ accepted

/-- Patches are added one by one, so that a later one that fails does not undo those before. -/
theorem outcome_patches (site : Site) (ps : List JsonPatch) (acc : Accumulator) :
    outcome (ps.forM fun p => lift (site.rebase .jsonPatches p.path) >>= fun path =>
        update fun f => f.set .jsonPatches (f.jsonPatches ++ [{ p with path }])) acc =
      (Accepted.patches [] (ps.map (site, ·))).map fun k =>
        ((), acc.put .jsonPatches
          ((acc.cell .jsonPatches).take [] (acc.fragment.jsonPatches ++ k.entries))) := by
  induction ps generalizing acc with
  | nil =>
    show Except.ok ((), acc) = Except.ok ((), acc.put .jsonPatches
      ((acc.cell .jsonPatches).take [] (acc.fragment.jsonPatches ++ [])))
    rw [List.append_nil]
    exact congrArg (fun a => Except.ok ((), a)) (acc.put_cell .jsonPatches).symm
  | cons p ps ih =>
    show outcome ((lift _ >>= _) >>= fun _ => ps.forM _) acc = _
    rw [outcome_bind, outcome_bind, outcome_lift, Accepted.patches]
    cases hp : site.rebase .jsonPatches p.path with
    | error e =>
      rw [List.map_cons, mapM_error_cons (by rw [Accepted.rebasePatch, hp]; rfl)]
      rfl
    | ok path =>
      rw [List.map_cons,
        mapM_ok_cons (b := { p with path }) (by rw [Accepted.rebasePatch, hp]; rfl), map_ok,
        ok_bind, outcome_change, ok_bind, ih, Accepted.patches]
      cases List.mapM (m := Except FoldError) _ (ps.map (site, ·)) with
      | error e => rfl
      | ok rest =>
        simp only [map_ok, Accumulator.put_put, Accumulator.cell_put_self]
        show Except.ok ((), acc.put .jsonPatches (Cell.take _ [] (_ ++ [_] ++ rest))) = _
        rw [List.append_assoc]
        rfl

theorem actsOn_jsonPatches : ActsOn .jsonPatches jsonPatches := by
  intro site child acc
  refine (outcome_patches site child.jsonPatches acc).trans ?_
  show _ = ((Accepted.patches [] (child.jsonPatches.map (site, ·))).map _).map _
  cases hk : Accepted.patches [] (child.jsonPatches.map (site, ·)) with
  | error e => rfl
  | ok k =>
    have hkeys : k.keys = [] := by
      obtain ⟨ps, -, rfl⟩ := map_eq_ok_iff.1 hk
      rfl
    simp only [map_ok, hkeys]
    rfl

theorem actsOn_bases : ActsOn .bases bases := by
  suffices h : ∀ (site : Site) (values : List String) (acc : Accumulator),
      outcome (basesOf site values) acc =
        (Field.foldBases site values (acc.cell .bases)).map fun c => ((), acc.put .bases c) from
    fun site child acc => h site (child.bases.getD []) acc
  intro site values
  induction values with
  | nil =>
    intro acc
    exact congrArg (fun a => Except.ok ((), a)) (acc.put_cell .bases).symm
  | cons value rest ih =>
    intro acc
    have hrest (c : Cell .bases) : outcome (basesOf site rest) (acc.put .bases c) =
        (Field.foldBases site rest c).map fun d => ((), acc.put .bases d) := by
      rw [ih, Accumulator.cell_put_self]
      simp only [Accumulator.put_put]
    rw [basesOf, Field.foldBases, outcome_bind, outcome_lift]
    cases site.rebase .bases value with
    | error e => rfl
    | ok base =>
      rw [map_ok, ok_bind, ok_bind, outcome_bind, outcome_mark, ok_bind]
      have hknown : acc.ledger.contains .bases base = decide (base ∈ (acc.cell .bases).seen) := rfl
      by_cases hk : base ∈ (acc.cell .bases).seen
      · rw [if_neg (by simp [hknown, hk]), if_pos hk, Ledger.add_of_mem hk,
          outcome_bind, outcome_lift]
        cases site.rebase .bases "." with
        | error e => rfl
        | ok own =>
          rw [ok_bind, ← hrest, put_take]
          rfl
      · rw [if_pos (by simp [hknown, hk]), if_neg hk, ← hrest, Field.addBase,
          put_take]
        rfl

theorem actsOn_of_mem_all : ∀ p ∈ all, ActsOn p.1 p.2 := by
  intro p hp
  simp only [all, List.mem_cons, List.not_mem_nil, or_false] at hp
  rcases hp with rfl | rfl | rfl | rfl | rfl | rfl | rfl | rfl | rfl | rfl | rfl | rfl | rfl |
    rfl | rfl | rfl
  · exact actsOn_bases
  · exact actsOn_namePrefix
  · exact actsOn_nameSuffix
  · exact actsOn_nameSpace
  · exact actsOn_commonLabels
  · exact actsOn_commonAnnotations
  · exact actsOn_generatorOptions
  · exact actsOn_resources
  · exact actsOn_images
  · exact actsOn_crds
  · exact actsOn_configMaps
  · exact actsOn_secrets
  · exact actsOn_vars
  · exact actsOn_strategicPatches
  · exact actsOn_jsonPatches
  · exact actsOn_configurations

theorem nodup_fields : (all.map (·.1)).Nodup := by decide

theorem mem_fields (field : Field) : field ∈ all.map (·.1) := by
  cases field <;> decide

/-- Policies for different fields, one after the other, are the product of what they do. -/
theorem outcome_forM_eq_ok_iff {site : Site} {child : Fragment} {ps : List (Field × Policy)}
    (hps : ∀ p ∈ ps, ActsOn p.1 p.2) (hnd : (ps.map (·.1)).Nodup) {acc acc' : Accumulator} :
    outcome (ps.forM fun p => p.2 site child) acc = .ok ((), acc') ↔
      acc'.fragment.header = acc.fragment.header ∧
        (∀ field ∈ ps.map (·.1),
          field.fold site (child.get field) (acc.cell field) = .ok (acc'.cell field)) ∧
        ∀ field, field ∉ ps.map (·.1) → acc'.cell field = acc.cell field := by
  induction ps generalizing acc with
  | nil =>
    show Except.ok ((), acc) = _ ↔ _
    constructor
    · intro h
      obtain rfl : acc = acc' := (Prod.mk.inj (Except.ok.inj h)).2
      exact ⟨rfl, by simp, fun _ _ => rfl⟩
    · rintro ⟨hh, -, hc⟩
      rw [Accumulator.ext_cells hh.symm fun field => (hc field (by simp)).symm]
  | cons p ps ih =>
    obtain ⟨field, policy⟩ := p
    have hfield : field ∉ ps.map (·.1) := (List.nodup_cons.1 hnd).1
    have ih := fun acc => @ih (fun q hq => hps q (List.mem_cons_of_mem _ hq))
      (List.nodup_cons.1 hnd).2 acc
    show outcome (policy site child >>= fun _ => ps.forM _) acc = _ ↔ _
    rw [outcome_bind, hps (field, policy) List.mem_cons_self site child acc]
    cases hc : field.fold site (child.get field) (acc.cell field) with
    | error e =>
      constructor
      · intro h
        exact absurd h (by simp)
      · rintro ⟨-, h, -⟩
        have hf := h field (by simp)
        rw [hc] at hf
        exact absurd hf (by simp)
    | ok c =>
      -- No later policy is for this field, so its cell stays as the first policy leaves it.
      have hne : ∀ g ∈ ps.map (·.1), g ≠ field := by
        rintro g hg rfl
        exact hfield hg
      rw [map_ok, ok_bind, ih, Accumulator.header_put, List.map_cons]
      refine and_congr_right fun _ => ⟨fun ⟨hin, hout⟩ => ⟨fun g hg => ?_, fun g hg => ?_⟩,
        fun ⟨hin, hout⟩ => ⟨fun g hg => ?_, fun g hg => ?_⟩⟩
      · rcases List.mem_cons.1 hg with rfl | hg
        · rw [hc, hout g hfield, Accumulator.cell_put_self]
        · rw [← hin g hg, Accumulator.cell_put_of_ne _ _ (hne g hg)]
      · rw [List.mem_cons, not_or] at hg
        rw [hout g hg.2, Accumulator.cell_put_of_ne _ _ hg.1]
      · rw [Accumulator.cell_put_of_ne _ _ (hne g hg)]
        exact hin g (List.mem_cons_of_mem _ hg)
      · by_cases hg' : g = field
        · subst hg'
          have hin := hin g List.mem_cons_self
          rw [hc] at hin
          rw [Accumulator.cell_put_self, Except.ok.inj hin]
        · rw [Accumulator.cell_put_of_ne _ _ hg']
          exact hout g fun h => (List.mem_cons.1 h).elim hg' hg

end Policy
end LayeredConfig
