/-
A composed fragment is folded to itself.

`Field.Refolds` says of a value that folding it into nothing, at the root, gives it back. Each kind
of field asks for something else: paths and file entries have to be rebased already, identities and
bases to be distinct, and a generator that creates to be the first of its name. All of this holds
of what a run leaves in a field (`Component.refolds_of_run`), so the fragment as a whole comes back
(`Component.merge_refolds`).
-/
import LayeredConfig.Proofs.Fold.Bases
import LayeredConfig.Proofs.Fold.FileEntry
import LayeredConfig.Proofs.Fold.Provenance
import LayeredConfig.Proofs.Fold.Supported
import LayeredConfig.Proofs.Yaml.Decide

namespace LayeredConfig

/-! ## Values that are folded to themselves -/

/-- Folding the value into nothing, at the root, gives it back. -/
def Field.Refolds (root : Path) (field : Field) (v : field.Value) : Prop :=
  ∃ c, field.fold ⟨root, root⟩ v (Accumulator.blank.cell field) = .ok c ∧ c.value = v

theorem mapM_sited {α β : Type} {site : Site} {f : Site × α → Except FoldError β} {l : List α}
    {g : α → β} (h : ∀ a ∈ l, f (site, a) = .ok (g a)) :
    (l.map (site, ·)).mapM f = .ok (l.map g) := by
  rw [mapM_eq_ok_iff, List.forall₂_map_left_iff, List.forall₂_map_right_iff, List.forall₂_same]
  exact h

namespace Accepted

variable {root : Path} {field : Field}

theorem paths_eq_self {rs : List String} (hnd : rs.Nodup)
    (h : ∀ r ∈ rs, root.rebase root r = .ok r) :
    paths field [] (rs.map ((⟨root, root⟩ : Site), ·)) = .ok ⟨rs, rs⟩ := by
  have hmap : (rs.map ((⟨root, root⟩ : Site), ·)).mapM (rebasePath field) = .ok (rs.map id) :=
    mapM_sited fun r hr => Site.rebase_eq_ok_iff.2 (h r hr)
  have hnovel : novel id [] rs = rs := novel_eq_self id (by rwa [List.map_id])
  rw [paths, hmap, List.map_id, map_ok, hnovel]

theorem firsts_eq_self {α : Type} {identity : α → String} {entries : List α}
    (hnd : (entries.map identity).Nodup) (site : Site) :
    firsts identity [] (entries.map (site, ·)) = .ok ⟨entries.map identity, entries⟩ := by
  have hentries : (entries.map (site, ·)).map (·.2) = entries := by
    rw [List.map_map]
    exact List.map_id entries
  rw [firsts, hentries, novel_eq_self identity hnd, List.map_map]
  rfl

theorem generators_eq_self {γ : Type} {kind : GeneratorKind γ}
    (hkind : ∀ entry, kind.withShared entry (kind.shared entry) = entry) {entries : List γ}
    (hfirst : (entries.map kind.shared).Pairwise fun earlier g =>
      g.behavior = .create → earlier.name ≠ g.name)
    (h : ∀ g ∈ entries.map kind.shared, g.rebase ⟨root, root⟩ field = .ok g) :
    ∃ keys, generators kind field [] (entries.map ((⟨root, root⟩ : Site), ·)) =
      .ok ⟨keys, entries⟩ := by
  have hkept : keptGenerators kind [] (entries.map ((⟨root, root⟩ : Site), ·)) =
      entries.map ((⟨root, root⟩ : Site), ·) := by
    refine sift_eq_self _ _ (fun _ _ _ => List.not_mem_nil) ?_
    refine List.pairwise_map.2 ((List.pairwise_map.1 hfirst).imp fun hne halways => hne ?_)
    simpa using halways
  have hmap : (entries.map ((⟨root, root⟩ : Site), ·)).mapM (rebaseGenerator kind field) =
      .ok (entries.map id) := by
    refine mapM_sited fun entry hentry => ?_
    have hg := h (kind.shared entry) (List.mem_map_of_mem hentry)
    rw [rebaseGenerator, hg, map_ok, hkind]
    rfl
  refine ⟨(entries.map ((⟨root, root⟩ : Site), ·)).map fun g => (kind.shared g.2).name, ?_⟩
  rw [generators, hkept, hmap, List.map_id, map_ok]

theorem patches_eq_self {ps : List JsonPatch} (h : ∀ p ∈ ps, root.rebase root p.path = .ok p.path) :
    patches [] (ps.map ((⟨root, root⟩ : Site), ·)) = .ok ⟨[], ps⟩ := by
  have hmap : (ps.map ((⟨root, root⟩ : Site), ·)).mapM rebasePatch = .ok (ps.map id) := by
    refine mapM_sited fun p hp => ?_
    have hpath : Site.rebase ⟨root, root⟩ .jsonPatches p.path = .ok p.path :=
      Site.rebase_eq_ok_iff.2 (h p hp)
    rw [rebasePatch, hpath]
    rfl
  rw [patches, hmap, List.map_id, map_ok]

end Accepted

/-- Every source of the generator has been rebased from some layer. -/
theorem Generator.rebase_eq_self {root : Path} {layers : List Layer} {field : Field}
    {g : Generator} (hdirs : ∀ layer ∈ layers, Generator.mark ∉ layer.dir.units)
    (hsources : ∀ p ∈ g.sources, Component.FromLayers root layers p)
    (hfiles : ∀ entry ∈ g.files, Component.FileFromLayers root layers entry) :
    g.rebase ⟨root, root⟩ field = .ok g := by
  have hsource : ∀ p ∈ g.sources, Site.rebase ⟨root, root⟩ field p = .ok p := by
    intro p hp
    obtain ⟨layer, -, value, hvalue⟩ := hsources p hp
    exact Site.rebase_eq_ok_iff.2 (Path.rebase_of_rebase hvalue)
  have henv : g.env.mapM (Site.rebase ⟨root, root⟩ field) = .ok g.env := by
    cases hg : g.env with
    | none => rfl
    | some env =>
      have henv := hsource env (List.mem_append_left _ (by simp [hg]))
      show (Site.rebase ⟨root, root⟩ field env >>= fun b => pure (some b)) = _
      rw [henv]
      rfl
  have henvs : g.envs.mapM (Site.rebase ⟨root, root⟩ field) = .ok g.envs := by
    rw [mapM_eq_ok_iff, List.forall₂_same]
    intro p hp
    exact hsource p (List.mem_append_right _ hp)
  have hfile : g.files.mapM (Generator.rebaseFile ⟨root, root⟩ field) = .ok g.files := by
    rw [mapM_eq_ok_iff, List.forall₂_same]
    intro entry hentry
    obtain ⟨layer, hlayer, other, file, hfile⟩ := hfiles entry hentry
    exact Generator.rebaseFile_of_rebaseFile (hdirs layer hlayer) hfile
  exact Generator.rebase_eq_ok_iff.2 ⟨g.env, g.envs, g.files, henv, henvs, hfile, rfl⟩

/-! ## What a run leaves in a field -/

namespace Field

variable {root : Path} {layers : List Layer} {field : Field}

/-- A field that only grows is folded to itself if all its entries are accepted. -/
theorem Grows.refolds {α : Type} {values : Fragment → List α}
    {accept : List String → List (Site × α) → Except FoldError (Accepted α)}
    {add : field.Value → List α → field.Value} (hg : field.Grows values accept add)
    {f : Fragment} {keys : List String}
    (haccept : accept (Accumulator.blank.cell field).seen
      ((values f).map ((⟨root, root⟩ : Site), ·)) = .ok ⟨keys, values f⟩)
    (hadd : add (Accumulator.blank.cell field).value (values f) = f.get field) :
    field.Refolds root (f.get field) := by
  refine ⟨(Accumulator.blank.cell field).take keys (f.get field), ?_, rfl⟩
  rw [hg.fold_eq, haccept, map_ok, hadd]

theorem Grows.refolds_paths {values : Fragment → List String}
    {add : field.Value → List String → field.Value}
    (hg : field.Grows values (Accepted.paths field) add) {f : Fragment} {c : Cell field}
    (h : field.run root layers (Accumulator.blank.cell field) = .ok c)
    (hvalues : ∀ es, c.value = add (Accumulator.blank.cell field).value es → values f = es)
    (hget : f.get field = c.value) : field.Refolds root (f.get field) := by
  obtain ⟨es, hes, hkept⟩ := Component.keptOnce_paths hg h rfl
  obtain ⟨es', hes', hfrom⟩ := Component.fromLayers_paths hg h
  obtain rfl := hvalues es hes
  obtain rfl := hvalues es' hes'
  have hnd : (values f).Nodup := by
    have hdistinct := hkept.distinct
    rwa [List.map_id] at hdistinct
  refine hg.refolds (Accepted.paths_eq_self hnd fun r hr => ?_) (hget.trans hes).symm
  obtain ⟨layer, -, value, hvalue⟩ := hfrom r hr
  exact Path.rebase_of_rebase hvalue

theorem Grows.refolds_firsts {β : Type} {values : Fragment → List β} {identity : β → String}
    {add : field.Value → List β → field.Value}
    (hg : field.Grows values (Accepted.firsts identity) add) {f : Fragment} {c : Cell field}
    (h : field.run root layers (Accumulator.blank.cell field) = .ok c)
    (hvalues : ∀ es, c.value = add (Accumulator.blank.cell field).value es → values f = es)
    (hget : f.get field = c.value) : field.Refolds root (f.get field) := by
  obtain ⟨es, hes, hkept⟩ := Component.keptOnce_firsts hg h rfl
  obtain rfl := hvalues es hes
  exact hg.refolds (Accepted.firsts_eq_self hkept.distinct _) (hget.trans hes).symm

theorem Grows.refolds_generators {γ : Type} {kind : GeneratorKind γ} (hkind : kind.Lawful)
    (hrestore : ∀ entry, kind.withShared entry (kind.shared entry) = entry)
    {values : Fragment → List γ} {add : field.Value → List γ → field.Value}
    (hg : field.Grows values (Accepted.generators kind field) add)
    (hdirs : ∀ layer ∈ layers, Generator.mark ∉ layer.dir.units) {f : Fragment} {c : Cell field}
    (h : field.run root layers (Accumulator.blank.cell field) = .ok c)
    (hvalues : ∀ es, c.value = add (Accumulator.blank.cell field).value es → values f = es)
    (hget : f.get field = c.value) : field.Refolds root (f.get field) := by
  obtain ⟨es, hes, hkept⟩ := Component.keptByName_run hkind hg h rfl
  obtain ⟨es', hes', hfrom⟩ := Component.fromLayers_generators hkind hg h
  obtain rfl := hvalues es hes
  obtain rfl := hvalues es' hes'
  obtain ⟨keys, hkeys⟩ := @Accepted.generators_eq_self root field _ _ hrestore _ hkept.created_first
    fun g hgmem => Generator.rebase_eq_self hdirs (hfrom g hgmem).1 (hfrom g hgmem).2
  exact hg.refolds hkeys (hget.trans hes).symm

theorem refolds_patches {c : Cell .jsonPatches}
    (h : run root .jsonPatches layers (Accumulator.blank.cell .jsonPatches) = .ok c)
    {f : Fragment} (hget : f.jsonPatches = c.value) : Refolds root .jsonPatches f.jsonPatches := by
  obtain ⟨k, hk, rfl⟩ := grows_jsonPatches.run_accepted h
  obtain ⟨ps, hps, rfl⟩ := map_eq_ok_iff.1 hk
  have hvalues : f.jsonPatches = ps := hget
  have hpaths : ∀ p ∈ f.jsonPatches, root.rebase root p.path = .ok p.path := by
    intro p hp
    rw [hvalues] at hp
    obtain ⟨e, -, r, hr, rfl⟩ := exists_of_mem_forall₂ (Component.mapM_rebasePatch hps) hp
    exact Path.rebase_of_rebase hr
  exact grows_jsonPatches.refolds (Accepted.patches_eq_self hpaths) rfl

/-- Bases that are new and rebased are all added. -/
theorem foldBases_eq_self {values : List String} (hnd : values.Nodup)
    (h : ∀ value ∈ values, root.rebase root value = .ok value) {c : Cell .bases}
    (hnew : ∀ value ∈ values, value ∉ c.seen) :
    ∃ c', foldBases ⟨root, root⟩ values c = .ok c' ∧
      c'.value = if values = [] then c.value else some (c.value.getD [] ++ values) := by
  induction values generalizing c with
  | nil => exact ⟨c, rfl, rfl⟩
  | cons value rest ih =>
    obtain ⟨hvalue, hrest⟩ := List.nodup_cons.1 hnd
    have hbase : Site.rebase ⟨root, root⟩ .bases value = .ok value :=
      Site.rebase_eq_ok_iff.2 (h value List.mem_cons_self)
    have hnotseen : value ∉ c.seen := hnew value List.mem_cons_self
    have hstill : ∀ v ∈ rest, v ∉ (addBase value c).seen := by
      intro v hv hmem
      rcases mem_meet.1 hmem with hmem | hmem
      · exact hnew v (List.mem_cons_of_mem value hv) hmem
      · exact hvalue (List.mem_singleton.1 hmem ▸ hv)
    obtain ⟨c', hc', hlist⟩ := ih hrest (fun v hv => h v (List.mem_cons_of_mem value hv)) hstill
    refine ⟨c', ?_, ?_⟩
    · rw [foldBases, hbase, ok_bind, if_neg hnotseen]
      exact hc'
    · have hadd : (addBase value c).value = some (c.value.getD [] ++ [value]) := rfl
      rw [hlist, hadd, if_neg (List.cons_ne_nil value rest)]
      by_cases hnil : rest = []
      · rw [if_pos hnil, hnil]
      · rw [if_neg hnil, Option.getD_some, List.append_assoc]
        rfl

theorem refolds_bases {c : Cell .bases}
    (h : run root .bases layers (Accumulator.blank.cell .bases) = .ok c) :
    Refolds root .bases c.value := by
  obtain ⟨reqs, -, hserved⟩ := run_bases h
  have hlisted : c.value.getD [] = BaseRequest.listed [] reqs := hserved.value
  have hnd : (c.value.getD []).Nodup := by
    have hdistinct := (keptOnce_novel id (reqs.map (·.base))).distinct
    rw [List.map_id] at hdistinct
    rw [hlisted]
    exact hdistinct.sublist (BaseRequest.listed_sublist_novel fun key hkey => hkey)
  have hrebased : ∀ value ∈ c.value.getD [], root.rebase root value = .ok value := by
    intro value hvalue
    have hfrom := Component.fromLayers_bases h (fun _ hp => absurd hp List.not_mem_nil)
    obtain ⟨layer, -, v, hv⟩ := hfrom value hvalue
    exact Path.rebase_of_rebase hv
  -- A list of bases comes with its first base.
  have hne : c.value ≠ some [] := by
    have hblank : (Accumulator.blank.cell .bases).value ≠ some [] := Option.some_ne_none _ |>.symm
    refine run_bases_induction (motive := fun d => d.value ≠ some []) ?_ ?_ h hblank
    · intro layer _ value base d _ _ _
      show some _ ≠ _
      simp
    · intro layer _ own d _ hd
      exact hd
  obtain ⟨c', hc', hvalue⟩ := @foldBases_eq_self root _ hnd hrebased (Accumulator.blank.cell .bases)
    fun _ _ => List.not_mem_nil
  refine ⟨c', hc', ?_⟩
  rw [hvalue]
  cases hv : c.value with
  | none => rfl
  | some l =>
    rw [hv] at hne
    have hl : l ≠ [] := fun e => hne (e ▸ rfl)
    rw [Option.getD_some, if_neg hl]
    rfl

end Field

namespace Component

variable {root : Path} {layers : List Layer} {acc : Accumulator}

theorem refolds_of_foldLayers (hdirs : ∀ layer ∈ layers, Generator.mark ∉ layer.dir.units)
    (h : foldLayers root layers .blank = .ok acc) (field : Field) :
    field.Refolds root (acc.fragment.get field) := by
  obtain ⟨-, hrun⟩ := run_of_foldLayers h
  cases field with
  | bases => exact Field.refolds_bases (hrun .bases)
  | namePrefix => exact ⟨_, rfl, rfl⟩
  | nameSuffix => exact ⟨_, rfl, rfl⟩
  | nameSpace => exact ⟨_, rfl, rfl⟩
  | commonLabels => exact ⟨_, rfl, Dict.empty_merge _⟩
  | commonAnnotations => exact ⟨_, rfl, Dict.empty_merge _⟩
  | generatorOptions => exact ⟨_, rfl, rfl⟩
  | resources =>
    exact Field.grows_resources.refolds_paths (hrun .resources) (fun _ hes => hes) rfl
  | images => exact Field.grows_images.refolds_firsts (hrun .images) (fun _ hes => hes) rfl
  | crds => exact Field.grows_crds.refolds_firsts (hrun .crds) (fun _ hes => hes) rfl
  | configMaps =>
    exact Field.grows_configMaps.refolds_generators GeneratorKind.lawful_configMap (fun _ => rfl)
      hdirs (hrun .configMaps) (fun _ hes => hes) rfl
  | secrets =>
    exact Field.grows_secrets.refolds_generators GeneratorKind.lawful_secret (fun _ => rfl)
      hdirs (hrun .secrets) (fun _ hes => hes) rfl
  | vars => exact Field.grows_vars.refolds_firsts (hrun .vars) (fun _ hes => hes) rfl
  | strategicPatches =>
    exact Field.grows_strategicPatches.refolds_paths (hrun .strategicPatches) (fun _ hes => hes) rfl
  | jsonPatches => exact Field.refolds_patches (hrun .jsonPatches) rfl
  | configurations =>
    exact Field.grows_configurations.refolds_paths (hrun .configurations) (fun _ hes => hes) rfl

theorem unsupportedFields_of_foldLayers (h : foldLayers root layers .blank = .ok acc) :
    acc.fragment.unsupportedFields = [] := by
  obtain ⟨hheader, hrun⟩ := run_of_foldLayers h
  refine Fragment.unsupportedFields_eq_nil_iff.2 ⟨?_, fun field => ?_⟩
  · have htop : acc.fragment.unsupported = Fragment.blank.unsupported :=
      congrArg Fragment.Header.unsupported hheader
    rw [htop]
    rfl
  · have hblank : Fragment.blank.unsupportedFields = [] := rfl
    exact Field.supported_run (hrun field) ((Fragment.unsupportedFields_eq_nil_iff.1 hblank).2 field)

/-- A fragment that has a list of bases is folded to itself, as a whole, if its fields are. -/
theorem foldInto_eq_self {f : Fragment} (hheader : f.header = Fragment.blank.header)
    (hu : f.unsupportedFields = []) (hb : f.bases.isSome = true)
    (h : ∀ field : Field, field.Refolds root (f.get field)) :
    ∃ acc, (f.foldInto ⟨root, root⟩).run .blank = .ok () acc ∧ acc.fragment = f := by
  choose cells hcells hvalues using h
  obtain ⟨acc, hacc, hcell⟩ := Accumulator.exists_of_cells f.header cells
  have hf : acc.fragment = f := by
    refine Fragment.ext_get hacc fun field => ?_
    have hvalue : acc.fragment.get field = (cells field).value :=
      congrArg Cell.value (hcell field)
    exact hvalue.trans (hvalues field)
  refine ⟨acc, Folding.outcome_eq_ok_iff.1 ?_, hf⟩
  refine Fragment.outcome_foldInto_eq_ok_iff.2 ⟨hacc.trans hheader, fun field => ?_⟩
  rw [Fragment.foldCell_of_isSome (by rw [hu]; rfl) hb, hcell field]
  exact hcells field

/-- Folding a composed fragment at the root, as the only layer, gives the same fragment. -/
theorem merge_refolds {d : Deployment} {base : Layer} {overlays : List Layer}
    {parameters : List Parameter} {f : Fragment}
    (h : merge d root base overlays parameters = .ok f) (hb : f.bases.isSome = true)
    (hdirs : ∀ layer ∈ base :: overlays, NameUnit.char '=' ∉ layer.dir.units) :
    ∃ acc, (f.foldInto ⟨root, root⟩).run .blank = .ok () acc ∧ acc.fragment = f := by
  obtain ⟨acc, hacc, rfl⟩ := merge_eq_ok_iff.1 h
  obtain ⟨hheader, -⟩ := run_of_foldLayers hacc
  have hu := unsupportedFields_of_foldLayers hacc
  refine foldInto_eq_self ((Fragment.header_set _ _ _).trans hheader) hu hb fun field => ?_
  by_cases hfield : field = .nameSpace
  · subst hfield
    exact ⟨_, rfl, rfl⟩
  · rw [Fragment.get_set_of_ne _ _ hfield]
    exact refolds_of_foldLayers hdirs hacc field

theorem merge_refolds_of_generator :
    let base : Layer := ⟨.ofString "app/base",
      { bases := some ["../common"], namePrefix := "k-", resources := ["a.yaml", "./a.yaml"]
        configMaps := [{ name := "c", behavior := .create, files := ["k=../x.env"] }] }⟩
    let overlay : Layer := ⟨.ofString "app/x",
      { bases := some ["../base"], images := [{ name := "i", newTag := some "v1" }]
        configMaps := [{ name := "c", behavior := .merge, files := ["x.env"] }]
        jsonPatches := [{ target := { name := "d" }, path := "p.yaml" }] }⟩
    ∃ f, merge {} (.ofString "app") base [overlay] [] = .ok f ∧
      f.bases.isSome = true ∧
      (∀ layer ∈ [base, overlay], NameUnit.char '=' ∉ layer.dir.units) ∧
      ∃ acc, (f.foldInto ⟨.ofString "app", .ofString "app"⟩).run .blank = .ok () acc ∧
        acc.fragment = f := by
  intro base overlay
  have hmerge : merge {} (.ofString "app") ⟨.ofString "app/base",
      { bases := some ["../common"], namePrefix := "k-", resources := ["a.yaml", "./a.yaml"]
        configMaps := [{ name := "c", behavior := .create, files := ["k=../x.env"] }] }⟩
      [⟨.ofString "app/x",
        { bases := some ["../base"], images := [{ name := "i", newTag := some "v1" }]
          configMaps := [{ name := "c", behavior := .merge, files := ["x.env"] }]
          jsonPatches := [{ target := { name := "d" }, path := "p.yaml" }] }⟩] [] =
      .ok { Fragment.blank with
        bases := some ["common", "base"], namePrefix := "k-", resources := ["base/a.yaml"]
        images := [{ name := "i", newTag := some "v1" }]
        configMaps := [{ name := "c", behavior := .create, files := ["k=x.env"] },
          { name := "c", behavior := .merge, files := ["x/x.env"] }]
        jsonPatches := [{ target := { name := "d" }, path := "x/p.yaml" }] } := by decide +kernel
  have hdirs : ∀ layer ∈ [base, overlay], NameUnit.char '=' ∉ layer.dir.units := by decide
  exact ⟨_, hmerge, rfl, hdirs, merge_refolds hmerge rfl hdirs⟩

end Component
end LayeredConfig
