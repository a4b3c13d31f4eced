/-
What a run of folds appends to the lists of a result.

The fields here only grow. Whatever the accumulator holds at the start, a list of it is at the end
the same list followed by what is new among the entries of the layers, in layer order and list
order (`Component.foldLayers_appended`). Layers without bases have no part in this.
-/
import LayeredConfig.Proofs.Fold.Run

namespace LayeredConfig

open Layer

/-! ## The fields that grow -/

namespace Field

theorem grows_resources :
    Grows .resources (·.resources) (Accepted.paths .resources) (· ++ ·) :=
  ⟨Accepted.sequential_paths _, List.append_nil, List.append_assoc, by decide, fun _ _ _ => rfl⟩

theorem grows_configurations :
    Grows .configurations (·.configurations) (Accepted.paths .configurations) (· ++ ·) :=
  ⟨Accepted.sequential_paths _, List.append_nil, List.append_assoc, by decide, fun _ _ _ => rfl⟩

theorem grows_strategicPatches :
    Grows .strategicPatches (·.strategicPatches) (Accepted.paths .strategicPatches) (· ++ ·) :=
  ⟨Accepted.sequential_paths _, List.append_nil, List.append_assoc, by decide, fun _ _ _ => rfl⟩

theorem grows_images :
    Grows .images (·.images) (Accepted.firsts (·.name)) (· ++ ·) :=
  ⟨Accepted.sequential_firsts _, List.append_nil, List.append_assoc, by decide, fun _ _ _ => rfl⟩

theorem grows_vars :
    Grows .vars (·.vars) (Accepted.firsts (·.name)) (· ++ ·) :=
  ⟨Accepted.sequential_firsts _, List.append_nil, List.append_assoc, by decide, fun _ _ _ => rfl⟩

theorem grows_crds :
    Grows .crds (·.crds) (Accepted.firsts id) (· ++ ·) :=
  ⟨Accepted.sequential_firsts _, List.append_nil, List.append_assoc, by decide, fun _ _ _ => rfl⟩

theorem grows_configMaps :
    Grows .configMaps (·.configMaps) (Accepted.generators .configMap .configMaps) (· ++ ·) :=
  ⟨Accepted.sequential_generators _ _, List.append_nil, List.append_assoc, by decide,
    fun _ _ _ => rfl⟩

theorem grows_secrets :
    Grows .secrets (·.secrets) (Accepted.generators .secret .secrets) (· ++ ·) :=
  ⟨Accepted.sequential_generators _ _, List.append_nil, List.append_assoc, by decide,
    fun _ _ _ => rfl⟩

theorem grows_jsonPatches :
    Grows .jsonPatches (·.jsonPatches) Accepted.patches (· ++ ·) :=
  ⟨Accepted.sequential_patches, List.append_nil, List.append_assoc, by decide, fun _ _ _ => rfl⟩

end Field

/-! ## What is appended -/

namespace Component

/-- The paths in their order, each rewritten from the directory that it comes from. -/
def Rewritten (root : Path) (es : List (Path × String)) (rs : List String) : Prop :=
  List.Forall₂ (fun e r => root.rebase e.1 e.2 = .ok r) es rs

/-- Patches in their order, each with nothing but its path rewritten. -/
def RewrittenPatches (root : Path) (es : List (Path × JsonPatch)) (ps : List JsonPatch) : Prop :=
  List.Forall₂ (fun e p => ∃ r, root.rebase e.1 e.2.path = .ok r ∧ p = { e.2 with path := r }) es ps

/-- The result `acc'` has the lists of `acc` with the new entries of the layers at their ends. Of
paths an entry is new by what it is rewritten to, patches are always new. -/
structure Appended (root : Path) (layers : List Layer) (acc acc' : Accumulator) : Prop where
  resources : ∃ rs, Rewritten root (entries (·.resources) layers) rs ∧
    acc'.fragment.resources =
      acc.fragment.resources ++ novel id (acc.ledger.seen .resources) rs
  configurations : ∃ rs, Rewritten root (entries (·.configurations) layers) rs ∧
    acc'.fragment.configurations =
      acc.fragment.configurations ++ novel id (acc.ledger.seen .configurations) rs
  strategicPatches : ∃ rs, Rewritten root (entries (·.strategicPatches) layers) rs ∧
    acc'.fragment.strategicPatches =
      acc.fragment.strategicPatches ++ novel id (acc.ledger.seen .strategicPatches) rs
  images : acc'.fragment.images = acc.fragment.images ++
    novel (·.name) (acc.ledger.seen .images) ((entries (·.images) layers).map (·.2))
  vars : acc'.fragment.vars = acc.fragment.vars ++
    novel (·.name) (acc.ledger.seen .vars) ((entries (·.vars) layers).map (·.2))
  crds : acc'.fragment.crds = acc.fragment.crds ++
    novel id (acc.ledger.seen .crds) ((entries (·.crds) layers).map (·.2))
  jsonPatches : ∃ ps, RewrittenPatches root (entries (·.jsonPatches) layers) ps ∧
    acc'.fragment.jsonPatches = acc.fragment.jsonPatches ++ ps

theorem mapM_rebasePath {root : Path} {field : Field} {es : List (Path × String)}
    {rs : List String} (h : (located root es).mapM (Accepted.rebasePath field) = .ok rs) :
    Rewritten root es rs := by
  have hall := mapM_eq_ok_iff.1 h
  rw [located, List.forall₂_map_left_iff] at hall
  exact hall.imp fun e r he => Site.rebase_eq_ok_iff.1 he

theorem mapM_rebasePatch {root : Path} {es : List (Path × JsonPatch)} {ps : List JsonPatch}
    (h : (located root es).mapM Accepted.rebasePatch = .ok ps) : RewrittenPatches root es ps := by
  have hall := mapM_eq_ok_iff.1 h
  rw [located, List.forall₂_map_left_iff] at hall
  refine hall.imp fun e p he => ?_
  obtain ⟨r, hr, hp⟩ := map_eq_ok_iff.1 he
  exact ⟨r, Site.rebase_eq_ok_iff.1 hr, hp.symm⟩

section

variable {root : Path} {field : Field} {layers : List Layer} {c c' : Cell field}
variable {α β : Type} {add : field.Value → List β → field.Value}

theorem run_paths {values : Fragment → List String} {add : field.Value → List String → field.Value}
    (hg : field.Grows values (Accepted.paths field) add) (h : field.run root layers c = .ok c') :
    ∃ rs, Rewritten root (entries values layers) rs ∧
      c' = c.take rs (add c.value (novel id c.seen rs)) := by
  obtain ⟨k, hk, hc'⟩ := hg.run_accepted h
  obtain ⟨rs, hrs, rfl⟩ := map_eq_ok_iff.1 hk
  exact ⟨rs, mapM_rebasePath hrs, hc'⟩

theorem run_firsts {values : Fragment → List β} {identity : β → String}
    (hg : field.Grows values (Accepted.firsts identity) add)
    (h : field.run root layers c = .ok c') :
    c' = c.take (((entries values layers).map (·.2)).map identity)
      (add c.value (novel identity c.seen ((entries values layers).map (·.2)))) := by
  obtain ⟨k, hk, hc'⟩ := hg.run_accepted h
  obtain rfl := Except.ok.inj hk
  rw [← map_snd_located root, List.map_map]
  exact hc'

end

/-- A run of folds appends to each list what is new. -/
theorem foldLayers_appended {root : Path} {layers : List Layer} {acc acc' : Accumulator}
    (h : foldLayers root layers acc = .ok acc') : Appended root layers acc acc' := by
  obtain ⟨_, hrun⟩ := run_of_foldLayers h
  constructor
  · obtain ⟨rs, hrs, hc⟩ := run_paths Field.grows_resources (hrun .resources)
    exact ⟨rs, hrs, congrArg Cell.value hc⟩
  · obtain ⟨rs, hrs, hc⟩ := run_paths Field.grows_configurations (hrun .configurations)
    exact ⟨rs, hrs, congrArg Cell.value hc⟩
  · obtain ⟨rs, hrs, hc⟩ := run_paths Field.grows_strategicPatches (hrun .strategicPatches)
    exact ⟨rs, hrs, congrArg Cell.value hc⟩
  · exact congrArg Cell.value (run_firsts Field.grows_images (hrun .images))
  · exact congrArg Cell.value (run_firsts Field.grows_vars (hrun .vars))
  · exact congrArg Cell.value (run_firsts Field.grows_crds (hrun .crds))
  · obtain ⟨k, hk, hc⟩ := Field.grows_jsonPatches.run_accepted (hrun .jsonPatches)
    obtain ⟨ps, hps, rfl⟩ := map_eq_ok_iff.1 hk
    exact ⟨ps, mapM_rebasePatch hps, congrArg Cell.value hc⟩

theorem foldLayers_appended_of_repeated_path :
    ∃ acc, foldLayers (.ofString "app")
        [⟨.ofString "app/base", { bases := some [], resources := ["a.yaml", "../b", "./a.yaml"] }⟩]
        .blank = .ok acc ∧
      acc.fragment.resources = ["base/a.yaml", "b"] ∧
      Appended (.ofString "app")
        [⟨.ofString "app/base", { bases := some [], resources := ["a.yaml", "../b", "./a.yaml"] }⟩]
        .blank acc := by
  have hfold : Field.fold ⟨.ofString "app", .ofString "app/base"⟩ .resources
      ["a.yaml", "../b", "./a.yaml"] (Accumulator.blank.cell .resources) =
        .ok ((Accumulator.blank.cell .resources).take ["base/a.yaml", "b", "base/a.yaml"]
          ["base/a.yaml", "b"]) := by rfl
  obtain ⟨acc, hacc, hcell⟩ :=
    exists_foldLayers (.ofString "app") (.ofString "app/base") rfl rfl hfold
  exact ⟨acc, hacc, congrArg Cell.value hcell, foldLayers_appended hacc⟩

end Component
end LayeredConfig
