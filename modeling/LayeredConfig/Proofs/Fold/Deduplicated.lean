/-
What a result and its ledger know of each other.

A fold that starts from nothing keeps the ledger in step with the result. How a field marks its
keys differs: most lists mark what they append, generators mark every name, dictionaries every key,
and a base that is known marks the directory of the layer instead. `Deduplicated` says for every
field what this leaves in the ledger, and `Component.foldLayers_deduplicated` that it holds after
every run.
-/
import LayeredConfig.Proofs.Dict
import LayeredConfig.Proofs.Fold.Appended

namespace LayeredConfig

/-! ## Marking disciplines -/

/-- Every entry has an identity of its own, and these are the keys that are known. -/
structure KeptOnce {α : Type} (identity : α → String) (entries : List α) (seen : List String) :
    Prop where
  distinct : (entries.map identity).Nodup
  seen_iff : ∀ key, key ∈ seen ↔ key ∈ entries.map identity

/-- The names of the generators are the keys that are known, and a generator that creates is the
first of its name. -/
structure KeptByName (generators : List Generator) (seen : List String) : Prop where
  seen_iff : ∀ key, key ∈ seen ↔ key ∈ generators.map (·.name)
  created_first : generators.Pairwise fun earlier g => g.behavior = .create → earlier.name ≠ g.name

/-- The bases are known, each is there once, and whatever else is known is the directory of a
layer. -/
structure KeptBases (root : Path) (layers : List Layer) (bases seen : List String) : Prop where
  distinct : bases.Nodup
  known : ∀ base ∈ bases, base ∈ seen
  own : ∀ key ∈ seen, key ∈ bases ∨ ∃ layer ∈ layers, root.rebase layer.dir "." = .ok key

theorem keptOnce_novel {α : Type} (identity : α → String) (entries : List α) :
    KeptOnce identity (novel identity [] entries) (meet [] (entries.map identity)) where
  distinct := by
    have hpairs := pairwise_sift identity (fun _ => false) [] entries
    refine List.pairwise_map.2 (hpairs.imp ?_)
    intro a b hab
    exact hab rfl
  seen_iff key := by
    have hkeys := @mem_keys_sift α identity (fun _ => false) [] entries key
    rw [mem_meet]
    exact hkeys.symm.trans (or_iff_right List.not_mem_nil)

/-! ### Generators -/

/-- What is put into an entry can be taken out again. -/
def GeneratorKind.Lawful {γ : Type} (kind : GeneratorKind γ) : Prop :=
  ∀ entry g, kind.shared (kind.withShared entry g) = g

theorem GeneratorKind.lawful_configMap : configMap.Lawful := fun _ _ => rfl

theorem GeneratorKind.lawful_secret : secret.Lawful := fun _ _ => rfl

/-- Rebasing goes entry by entry and leaves the name and the behavior of each. -/
theorem labels_generators {γ : Type} {kind : GeneratorKind γ} (hkind : kind.Lawful)
    {field : Field} {entries : List (Site × γ)} {gs : List γ}
    (h : entries.mapM (Accepted.rebaseGenerator kind field) = .ok gs) :
    gs.map (fun g => ((kind.shared g).name, (kind.shared g).behavior)) =
      entries.map (fun e => ((kind.shared e.2).name, (kind.shared e.2).behavior)) := by
  have hall := (mapM_eq_ok_iff.1 h).flip
  rw [← List.forall₂_eq_eq_eq, List.forall₂_map_left_iff, List.forall₂_map_right_iff]
  refine hall.imp fun g e hg => ?_
  obtain ⟨g', hg', rfl⟩ := map_eq_ok_iff.1 hg
  obtain ⟨env, envs, files, -, -, -, rfl⟩ := Generator.rebase_eq_ok_iff.1 hg'
  rw [hkind]

theorem keptByName_generators {γ : Type} {kind : GeneratorKind γ} (hkind : kind.Lawful)
    {field : Field} {entries : List (Site × γ)} {k : Accepted γ}
    (h : Accepted.generators kind field [] entries = .ok k) :
    KeptByName (k.entries.map kind.shared) (meet [] k.keys) := by
  obtain ⟨gs, hgs, rfl⟩ := map_eq_ok_iff.1 h
  have hlabels := labels_generators hkind hgs
  constructor
  · intro key
    have hkeys := @mem_keys_sift _ (fun e : Site × γ => (kind.shared e.2).name)
      (fun e => (kind.shared e.2).behavior != .create) [] entries key
    have hnames : (gs.map kind.shared).map (·.name) =
        (Accepted.keptGenerators kind [] entries).map (fun e => (kind.shared e.2).name) := by
      have hfst := congrArg (List.map Prod.fst) hlabels
      rw [List.map_map, List.map_map] at hfst
      rw [List.map_map]
      exact hfst
    rw [mem_meet, hnames]
    exact hkeys.symm.trans (or_iff_right List.not_mem_nil)
  -- A generator that creates is not always kept, so it was kept for being the first of its name.
  · have hpairs := pairwise_sift (fun e : Site × γ => (kind.shared e.2).name)
      (fun e => (kind.shared e.2).behavior != .create) [] entries
    have hfirst : ((Accepted.keptGenerators kind [] entries).map
        (fun e => ((kind.shared e.2).name, (kind.shared e.2).behavior))).Pairwise
          fun a b => b.2 = .create → a.1 ≠ b.1 := by
      refine List.pairwise_map.2 (hpairs.imp ?_)
      intro a b hab hb
      have hcreate : (kind.shared b.2).behavior = .create := hb
      exact hab (by simp [hcreate])
    rw [← hlabels, List.pairwise_map] at hfirst
    exact List.pairwise_map.2 hfirst

/-! ### Bases -/

namespace KeptBases

variable {root : Path} {layers : List Layer} {bases seen : List String}

theorem nil : KeptBases root layers [] [] :=
  ⟨.nil, fun _ h => absurd h List.not_mem_nil, fun _ h => absurd h List.not_mem_nil⟩

/-- A base that is new is appended and marked. -/
theorem concat (h : KeptBases root layers bases seen) {base : String} (hb : base ∉ seen) :
    KeptBases root layers (bases ++ [base]) (meet seen [base]) where
  distinct := by
    refine List.nodup_append.2 ⟨h.distinct, by simp, ?_⟩
    intro a ha b hmem heq
    rw [List.mem_singleton.1 hmem] at heq
    exact hb (heq ▸ h.known a ha)
  known := by
    intro a ha
    rw [mem_meet]
    rcases List.mem_append.1 ha with ha | ha
    · exact .inl (h.known a ha)
    · exact .inr ha
  own := by
    intro key hkey
    rw [List.mem_append]
    rcases mem_meet.1 hkey with hkey | hkey
    · rcases h.own key hkey with hown | hown
      · exact .inl (.inl hown)
      · exact .inr hown
    · exact .inl (.inr hkey)

/-- The directory of a layer is marked and not appended. -/
theorem mark (h : KeptBases root layers bases seen) {layer : Layer} (hl : layer ∈ layers)
    {own : String} (ho : root.rebase layer.dir "." = .ok own) :
    KeptBases root layers bases (meet seen [own]) where
  distinct := h.distinct
  known base hb := mem_meet.2 (.inl (h.known base hb))
  own := by
    intro key hkey
    rcases mem_meet.1 hkey with hkey | hkey
    · exact h.own key hkey
    · rw [List.mem_singleton.1 hkey]
      exact .inr ⟨layer, hl, ho⟩

end KeptBases

/-! ### Dictionaries and single values -/

theorem seen_of_merges {field : Field} (hne : field ≠ .bases) (dict : field.Value → Dict String)
    (hfold : ∀ (site : Site) (child : Fragment) (c c' : Cell field),
      field.fold site (child.get field) c = .ok c' →
        ∃ more : Dict String, c'.seen = meet c.seen more.keys ∧
          dict c'.value = (dict c.value).merge more)
    {root : Path} {layers : List Layer} {c c' : Cell field}
    (h : field.run root layers c = .ok c')
    (hc : ∀ key, key ∈ c.seen ↔ key ∈ (dict c.value).keys) :
    ∀ key, key ∈ c'.seen ↔ key ∈ (dict c'.value).keys := by
  refine Field.run_induction (motive := fun d => ∀ key, key ∈ d.seen ↔ key ∈ (dict d.value).keys)
    ?_ h hc
  intro layer _ d d' hd hkeys
  rcases Fragment.foldCell_eq_ok hd with ⟨-, hd⟩ | ⟨-, hd⟩
  · rw [Field.foldWhole_of_ne hne] at hd
    obtain rfl : d = d' := Except.ok.inj hd
    exact hkeys
  · intro key
    obtain ⟨more, hseen, hdict⟩ := hfold _ _ _ _ hd
    rw [hseen, hdict, mem_meet, Dict.mem_keys_merge, hkeys]

theorem seen_of_unmarked {field : Field} (hne : field ≠ .bases)
    (hfold : ∀ (site : Site) (child : Fragment) (c c' : Cell field),
      field.fold site (child.get field) c = .ok c' → c'.seen = c.seen)
    {root : Path} {layers : List Layer} {c c' : Cell field}
    (h : field.run root layers c = .ok c') (hc : c.seen = []) : c'.seen = [] := by
  refine Field.run_induction (motive := fun d => d.seen = []) ?_ h hc
  intro layer _ d d' hd hseen
  rcases Fragment.foldCell_eq_ok hd with ⟨-, hd⟩ | ⟨-, hd⟩
  · rw [Field.foldWhole_of_ne hne] at hd
    obtain rfl : d = d' := Except.ok.inj hd
    exact hseen
  · rw [hfold _ _ _ _ hd, hseen]

/-- The fields that leave no keys. -/
def Field.unmarked : List Field :=
  [.namePrefix, .nameSuffix, .nameSpace, .generatorOptions, .jsonPatches]

theorem Field.seen_fold_of_unmarked {field : Field} (hfield : field ∈ unmarked) {site : Site}
    {v : field.Value} {c c' : Cell field} (h : field.fold site v c = .ok c') :
    c'.seen = c.seen := by
  simp only [unmarked, List.mem_cons, List.not_mem_nil, or_false] at hfield
  rcases hfield with rfl | rfl | rfl | rfl | rfl
  · rw [← Except.ok.inj h]
    rfl
  · rw [← Except.ok.inj h]
    rfl
  · rw [← Except.ok.inj h]
    rfl
  · rw [← Except.ok.inj h]
    rfl
  · obtain ⟨k, hk, rfl⟩ := map_eq_ok_iff.1 h
    obtain ⟨ps, -, rfl⟩ := map_eq_ok_iff.1 hk
    rfl

/-! ## After a run -/

namespace Component

/-- What a result and its ledger know of each other after these layers. -/
structure Deduplicated (root : Path) (layers : List Layer) (acc : Accumulator) : Prop where
  header : acc.fragment.header = Fragment.blank.header
  resources : KeptOnce id acc.fragment.resources (acc.ledger.seen .resources)
  configurations : KeptOnce id acc.fragment.configurations (acc.ledger.seen .configurations)
  strategicPatches : KeptOnce id acc.fragment.strategicPatches (acc.ledger.seen .strategicPatches)
  images : KeptOnce (·.name) acc.fragment.images (acc.ledger.seen .images)
  vars : KeptOnce (·.name) acc.fragment.vars (acc.ledger.seen .vars)
  crds : KeptOnce id acc.fragment.crds (acc.ledger.seen .crds)
  commonLabels : ∀ key, key ∈ acc.ledger.seen .commonLabels ↔ key ∈ acc.fragment.commonLabels.keys
  commonAnnotations :
    ∀ key, key ∈ acc.ledger.seen .commonAnnotations ↔ key ∈ acc.fragment.commonAnnotations.keys
  configMaps : KeptByName acc.fragment.configMaps (acc.ledger.seen .configMaps)
  secrets : KeptByName (acc.fragment.secrets.map (·.toGenerator)) (acc.ledger.seen .secrets)
  bases : KeptBases root layers (acc.fragment.bases.getD []) (acc.ledger.seen .bases)
  unmarked : ∀ field ∈ Field.unmarked, acc.ledger.seen field = []

section

variable {root : Path} {layers : List Layer} {acc : Accumulator}

theorem keptOnce_paths {field : Field} {values : Fragment → List String}
    {add : field.Value → List String → field.Value}
    (hg : field.Grows values (Accepted.paths field) add) {c c' : Cell field}
    (h : field.run root layers c = .ok c') (hc : c.seen = []) :
    ∃ entries, c'.value = add c.value entries ∧ KeptOnce id entries c'.seen := by
  obtain ⟨rs, -, hc'⟩ := run_paths hg h
  refine ⟨novel id c.seen rs, congrArg Cell.value hc', ?_⟩
  have hseen : c'.seen = meet [] (rs.map id) := by
    rw [hc', List.map_id, ← hc]
    rfl
  rw [hseen, hc]
  exact keptOnce_novel id rs

theorem keptOnce_firsts {field : Field} {β : Type} {values : Fragment → List β}
    {identity : β → String} {add : field.Value → List β → field.Value}
    (hg : field.Grows values (Accepted.firsts identity) add) {c c' : Cell field}
    (h : field.run root layers c = .ok c') (hc : c.seen = []) :
    ∃ entries, c'.value = add c.value entries ∧ KeptOnce identity entries c'.seen := by
  have hc' := run_firsts hg h
  refine ⟨novel identity c.seen _, congrArg Cell.value hc', ?_⟩
  have hseen : c'.seen = meet [] (((Layer.entries values layers).map (·.2)).map identity) := by
    rw [hc', ← hc]
    rfl
  rw [hseen, hc]
  exact keptOnce_novel identity _

theorem keptByName_run {field : Field} {γ : Type} {kind : GeneratorKind γ} (hkind : kind.Lawful)
    {values : Fragment → List γ} {add : field.Value → List γ → field.Value}
    (hg : field.Grows values (Accepted.generators kind field) add) {c c' : Cell field}
    (h : field.run root layers c = .ok c') (hc : c.seen = []) :
    ∃ entries, c'.value = add c.value entries ∧ KeptByName (entries.map kind.shared) c'.seen := by
  obtain ⟨k, hk, hc'⟩ := hg.run_accepted h
  rw [hc] at hk
  refine ⟨k.entries, congrArg Cell.value hc', ?_⟩
  have hseen : c'.seen = meet [] k.keys := by
    rw [hc', ← hc]
    rfl
  rw [hseen]
  exact keptByName_generators hkind hk

/-- After every run from nothing, the ledger and the result are in step. -/
theorem foldLayers_deduplicated (h : foldLayers root layers .blank = .ok acc) :
    Deduplicated root layers acc := by
  obtain ⟨hheader, hrun⟩ := run_of_foldLayers h
  constructor
  case header => exact hheader
  case resources =>
    obtain ⟨entries, hvalue, hkept⟩ := keptOnce_paths Field.grows_resources (hrun .resources) rfl
    rwa [show acc.fragment.resources = entries from hvalue]
  case configurations =>
    obtain ⟨entries, hvalue, hkept⟩ :=
      keptOnce_paths Field.grows_configurations (hrun .configurations) rfl
    rwa [show acc.fragment.configurations = entries from hvalue]
  case strategicPatches =>
    obtain ⟨entries, hvalue, hkept⟩ :=
      keptOnce_paths Field.grows_strategicPatches (hrun .strategicPatches) rfl
    rwa [show acc.fragment.strategicPatches = entries from hvalue]
  case images =>
    obtain ⟨entries, hvalue, hkept⟩ := keptOnce_firsts Field.grows_images (hrun .images) rfl
    rwa [show acc.fragment.images = entries from hvalue]
  case vars =>
    obtain ⟨entries, hvalue, hkept⟩ := keptOnce_firsts Field.grows_vars (hrun .vars) rfl
    rwa [show acc.fragment.vars = entries from hvalue]
  case crds =>
    obtain ⟨entries, hvalue, hkept⟩ := keptOnce_firsts Field.grows_crds (hrun .crds) rfl
    rwa [show acc.fragment.crds = entries from hvalue]
  case commonLabels =>
    refine seen_of_merges (by decide) id ?_ (hrun .commonLabels) fun _ => Iff.rfl
    intro site child c c' hc
    exact ⟨child.commonLabels, by rw [← Except.ok.inj hc]; rfl, by rw [← Except.ok.inj hc]; rfl⟩
  case commonAnnotations =>
    refine seen_of_merges (by decide) id ?_ (hrun .commonAnnotations) fun _ => Iff.rfl
    intro site child c c' hc
    exact ⟨child.commonAnnotations, by rw [← Except.ok.inj hc]; rfl,
      by rw [← Except.ok.inj hc]; rfl⟩
  case configMaps =>
    obtain ⟨entries, hvalue, hkept⟩ :=
      keptByName_run GeneratorKind.lawful_configMap Field.grows_configMaps (hrun .configMaps) rfl
    rw [show acc.fragment.configMaps = entries from hvalue]
    rwa [show entries.map GeneratorKind.configMap.shared = entries from List.map_id entries]
      at hkept
  case secrets =>
    obtain ⟨entries, hvalue, hkept⟩ :=
      keptByName_run GeneratorKind.lawful_secret Field.grows_secrets (hrun .secrets) rfl
    rw [show acc.fragment.secrets = entries from hvalue]
    exact hkept
  case bases =>
    refine Field.run_bases_induction
      (motive := fun c => KeptBases root layers (c.value.getD []) c.seen) ?_ ?_ (hrun .bases) .nil
    · intro layer _ value base c _ hk hkept
      exact hkept.concat hk
    · intro layer hl own c ho hkept
      exact hkept.mark hl ho
  case unmarked =>
    intro field hfield
    have hne : field ≠ .bases := by
      rintro rfl
      exact absurd hfield (by decide)
    refine seen_of_unmarked hne ?_ (hrun field) rfl
    intro site child c c' hc
    exact Field.seen_fold_of_unmarked hfield hc

end

theorem foldLayers_deduplicated_of_known_base :
    ∃ acc, foldLayers (.ofString "app")
        [⟨.ofString "app/x", { bases := some ["../base", "../base"] }⟩] .blank = .ok acc ∧
      acc.ledger.seen .bases = ["base", "x"] ∧
      Deduplicated (.ofString "app")
        [⟨.ofString "app/x", { bases := some ["../base", "../base"] }⟩] acc := by
  have hfold : Field.fold ⟨.ofString "app", .ofString "app/x"⟩ .bases
      (some ["../base", "../base"]) (Accumulator.blank.cell .bases) =
        .ok ((Accumulator.blank.cell .bases).take ["base", "x"] (some ["base"])) := by rfl
  obtain ⟨acc, hacc, hcell⟩ :=
    exists_foldLayers (.ofString "app") (.ofString "app/x") rfl rfl hfold
  have hseen : acc.ledger.seen .bases = meet [] ["base", "x"] := congrArg Cell.seen hcell
  exact ⟨acc, hacc, hseen, foldLayers_deduplicated hacc⟩

end Component
end LayeredConfig
