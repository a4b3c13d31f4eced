/-
Where the paths of a result come from.

Every path in a result has been rebased from the directory of one of its layers, and every file
entry of a generator likewise (`Component.fromLayers_of_foldLayers`). So what holds of all that is
rebased holds of a result.
-/
import LayeredConfig.Proofs.Fold.Deduplicated

namespace LayeredConfig

/-! ## The paths of a fragment -/

/-- The files of variables that a generator reads. -/
def Generator.sources (g : Generator) : List String := g.env.toList ++ g.envs

namespace Fragment

def generators (f : Fragment) : List Generator := f.configMaps ++ f.secrets.map (·.toGenerator)

/-- Every path of the fragment, except those in the file entries of its generators. -/
def paths (f : Fragment) : List String :=
  f.bases.getD [] ++ f.resources ++ f.configurations ++ f.strategicPatches ++
    f.jsonPatches.map (·.path) ++ f.generators.flatMap Generator.sources

def fileEntries (f : Fragment) : List String := f.generators.flatMap (·.files)

end Fragment

/-! ## Entries of layers -/

theorem Layer.exists_of_mem_entries {α : Type} {values : Fragment → List α} {layers : List Layer}
    {e : Path × α} (h : e ∈ entries values layers) :
    ∃ layer ∈ layers, e.1 = layer.dir ∧ e.2 ∈ values layer.fragment := by
  obtain ⟨layer, hlayer, he⟩ := List.mem_flatMap.1 h
  obtain ⟨a, ha, rfl⟩ := List.mem_map.1 he
  exact ⟨layer, (List.mem_filter.1 hlayer).1, rfl, ha⟩

namespace Component

variable {root : Path} {layers : List Layer} {acc : Accumulator}

/-- A path of one of the layers, rebased from there. -/
def FromLayers (root : Path) (layers : List Layer) (p : String) : Prop :=
  ∃ layer ∈ layers, ∃ value, root.rebase layer.dir value = .ok p

/-- A file entry of one of the layers, rebased from there. -/
def FileFromLayers (root : Path) (layers : List Layer) (entry : String) : Prop :=
  ∃ layer ∈ layers, ∃ field file,
    Generator.rebaseFile (layer.site root) field file = .ok entry

theorem fromLayers_of_rewritten {values : Fragment → List String} {rs : List String}
    (h : Rewritten root (Layer.entries values layers) rs) {r : String} (hr : r ∈ rs) :
    FromLayers root layers r := by
  obtain ⟨e, he, hok⟩ := exists_of_mem_forall₂ h hr
  obtain ⟨layer, hlayer, hdir, -⟩ := Layer.exists_of_mem_entries he
  exact ⟨layer, hlayer, e.2, hdir ▸ hok⟩

theorem fromLayers_paths {field : Field} {values : Fragment → List String}
    {add : field.Value → List String → field.Value}
    (hg : field.Grows values (Accepted.paths field) add) {c c' : Cell field}
    (h : field.run root layers c = .ok c') :
    ∃ entries, c'.value = add c.value entries ∧ ∀ r ∈ entries, FromLayers root layers r := by
  obtain ⟨rs, hrs, hc'⟩ := run_paths hg h
  refine ⟨novel id c.seen rs, congrArg Cell.value hc', fun r hr => ?_⟩
  have hmem : r ∈ rs := (sift_sublist id _ c.seen rs).subset hr
  exact fromLayers_of_rewritten hrs hmem

theorem fromLayers_generators {field : Field} {γ : Type} {kind : GeneratorKind γ}
    (hkind : kind.Lawful) {values : Fragment → List γ} {add : field.Value → List γ → field.Value}
    (hg : field.Grows values (Accepted.generators kind field) add) {c c' : Cell field}
    (h : field.run root layers c = .ok c') :
    ∃ entries, c'.value = add c.value entries ∧
      ∀ g ∈ entries.map kind.shared,
        (∀ p ∈ g.sources, FromLayers root layers p) ∧
          ∀ entry ∈ g.files, FileFromLayers root layers entry := by
  obtain ⟨k, hk, hc'⟩ := hg.run_accepted h
  obtain ⟨gs, hgs, rfl⟩ := map_eq_ok_iff.1 hk
  refine ⟨gs, congrArg Cell.value hc', fun g hgmem => ?_⟩
  obtain ⟨entry, hentry, rfl⟩ := List.mem_map.1 hgmem
  obtain ⟨e, he, hok⟩ := exists_of_mem_mapM hgs hentry
  have hlocated : e ∈ Layer.located root (Layer.entries values layers) :=
    (sift_sublist _ _ _ _).subset he
  obtain ⟨v, hv, rfl⟩ := List.mem_map.1 hlocated
  obtain ⟨layer, hlayer, hdir, -⟩ := Layer.exists_of_mem_entries hv
  obtain ⟨g', hg', rfl⟩ := map_eq_ok_iff.1 hok
  obtain ⟨env, envs, files, henv, henvs, hfiles, rfl⟩ := Generator.rebase_eq_ok_iff.1 hg'
  rw [hkind]
  rw [hdir] at henv henvs hfiles
  refine ⟨fun p hp => ?_, fun file hfile => ?_⟩
  · rcases List.mem_append.1 hp with hp | hp
    · have hsome : env = some p := Option.mem_toList.1 hp
      obtain ⟨value, hvalue⟩ := exists_of_option_mapM (hsome ▸ henv)
      exact ⟨layer, hlayer, value, Site.rebase_eq_ok_iff.1 hvalue⟩
    · obtain ⟨value, -, hvalue⟩ := exists_of_mem_mapM henvs hp
      exact ⟨layer, hlayer, value, Site.rebase_eq_ok_iff.1 hvalue⟩
  · obtain ⟨value, -, hvalue⟩ := exists_of_mem_mapM hfiles hfile
    exact ⟨layer, hlayer, field, value, hvalue⟩

theorem fromLayers_bases {c c' : Cell .bases} (h : Field.run root .bases layers c = .ok c')
    (hc : ∀ p ∈ c.value.getD [], FromLayers root layers p) :
    ∀ p ∈ c'.value.getD [], FromLayers root layers p := by
  refine Field.run_bases_induction
    (motive := fun d : Cell .bases => ∀ p ∈ d.value.getD [], FromLayers root layers p)
    ?_ ?_ h hc
  · intro layer hl value base d hbase _ hmem p hp
    rcases List.mem_append.1 hp with hp | hp
    · exact hmem p hp
    · rw [List.mem_singleton.1 hp]
      exact ⟨layer, hl, value, hbase⟩
  · intro layer _ own d _ hmem
    exact hmem

/-! ## After a run -/

/-- Every path of a result and every file entry comes from one of its layers. -/
theorem fromLayers_of_foldLayers (h : foldLayers root layers .blank = .ok acc) :
    (∀ p ∈ acc.fragment.paths, FromLayers root layers p) ∧
      ∀ entry ∈ acc.fragment.fileEntries, FileFromLayers root layers entry := by
  obtain ⟨-, hrun⟩ := run_of_foldLayers h
  obtain ⟨resources, hresources, hresmem⟩ :=
    fromLayers_paths Field.grows_resources (hrun .resources)
  obtain ⟨configurations, hconfigurations, hconfmem⟩ :=
    fromLayers_paths Field.grows_configurations (hrun .configurations)
  obtain ⟨patches, hpatches, hpatchmem⟩ :=
    fromLayers_paths Field.grows_strategicPatches (hrun .strategicPatches)
  obtain ⟨k, hk, hjson⟩ := Field.grows_jsonPatches.run_accepted (hrun .jsonPatches)
  obtain ⟨maps, hmaps, hmapmem⟩ :=
    fromLayers_generators GeneratorKind.lawful_configMap Field.grows_configMaps (hrun .configMaps)
  obtain ⟨secrets, hsecrets, hsecretmem⟩ :=
    fromLayers_generators GeneratorKind.lawful_secret Field.grows_secrets (hrun .secrets)
  have hgenerators : ∀ g ∈ acc.fragment.generators,
      (∀ p ∈ g.sources, FromLayers root layers p) ∧
        ∀ entry ∈ g.files, FileFromLayers root layers entry := by
    intro g hg
    rcases List.mem_append.1 hg with hg | hg
    · have hg' : g ∈ maps.map GeneratorKind.configMap.shared := by
        rw [show acc.fragment.configMaps = maps from hmaps] at hg
        exact List.mem_map.2 ⟨g, hg, rfl⟩
      exact hmapmem g hg'
    · rw [show acc.fragment.secrets = secrets from hsecrets] at hg
      exact hsecretmem g hg
  constructor
  · intro p hp
    simp only [Fragment.paths, List.mem_append] at hp
    rcases hp with ((((hp | hp) | hp) | hp) | hp) | hp
    · exact fromLayers_bases (hrun .bases) (by intro q hq; exact absurd hq List.not_mem_nil) p hp
    · rw [show acc.fragment.resources = resources from hresources] at hp
      exact hresmem p hp
    · rw [show acc.fragment.configurations = configurations from hconfigurations] at hp
      exact hconfmem p hp
    · rw [show acc.fragment.strategicPatches = patches from hpatches] at hp
      exact hpatchmem p hp
    · obtain ⟨patch, hpatch, rfl⟩ := List.mem_map.1 hp
      obtain ⟨ps, hps, rfl⟩ := map_eq_ok_iff.1 hk
      have hvalue : acc.fragment.jsonPatches = ps := congrArg Cell.value hjson
      rw [hvalue] at hpatch
      obtain ⟨e, he, hok⟩ := exists_of_mem_mapM hps hpatch
      obtain ⟨v, hv, rfl⟩ := List.mem_map.1 he
      obtain ⟨layer, hlayer, hdir, -⟩ := Layer.exists_of_mem_entries hv
      obtain ⟨r, hr, rfl⟩ := map_eq_ok_iff.1 hok
      exact ⟨layer, hlayer, v.2.path, hdir ▸ Site.rebase_eq_ok_iff.1 hr⟩
    · obtain ⟨g, hg, hsource⟩ := List.mem_flatMap.1 hp
      exact (hgenerators g hg).1 p hsource
  · intro entry hentry
    obtain ⟨g, hg, hfile⟩ := List.mem_flatMap.1 hentry
    exact (hgenerators g hg).2 entry hfile

end Component
end LayeredConfig
