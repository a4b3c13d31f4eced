/-
Which layers can be folded.

A fold fails over a path that has no form relative to the directory of the result. Not every path
of a layer is looked at: the sources of a generator that is left out are not, and the directory of
the layer is only if it becomes a base or if one of the bases is known. `Fragment.Requires` says
which paths are looked at, and a layer can be folded exactly if all of them can be rebased
(`Fragment.foldInto_fails_iff`).
-/
import LayeredConfig.Proofs.Fold.FileEntry
import LayeredConfig.Proofs.Fold.Provenance

namespace LayeredConfig

/-! ## Paths that are looked at -/

namespace Site

/-- The path has a form relative to the directory of the result. -/
def Reaches (s : Site) (p : String) : Prop := ∃ r, s.root.rebase s.dir p = .ok r

/-- One of the bases is known, or it is the same as an earlier one. -/
def MeetsKnown (s : Site) (known bases : List String) : Prop :=
  ∃ before value after base, bases = before ++ value :: after ∧
    s.root.rebase s.dir value = .ok base ∧
    (base ∈ known ∨ ∃ earlier ∈ before, s.root.rebase s.dir earlier = .ok base)

end Site

namespace Generator

/-- Every path that a generator reads from. -/
def paths (g : Generator) : List String := g.sources ++ g.files.map fun file => (readFile file).2

/-- The generator is one of these and is not left out, as those are that create something whose
name is known or is that of an earlier one. -/
def Taken (known : List String) (gs : List Generator) (g : Generator) : Prop :=
  ∃ before after, gs = before ++ g :: after ∧
    ¬ (g.behavior = .create ∧ (g.name ∈ known ∨ ∃ earlier ∈ before, earlier.name = g.name))

end Generator

/-- Folding the value of a field, after some keys have been met there, looks at the path. -/
def Field.Requires (site : Site) (known : List String) :
    (field : Field) → field.Value → String → Prop
  | .bases, v, p => p ∈ v.getD [] ∨ p = "." ∧ site.MeetsKnown known (v.getD [])
  | .resources, v, p => p ∈ v
  | .configurations, v, p => p ∈ v
  | .strategicPatches, v, p => p ∈ v
  | .jsonPatches, v, p => ∃ patch ∈ v, p = patch.path
  | .configMaps, v, p => ∃ g, Generator.Taken known v g ∧ p ∈ g.paths
  | .secrets, v, p => ∃ g, Generator.Taken known (v.map (·.toGenerator)) g ∧ p ∈ g.paths
  | _, _, _ => False

/-- Folding the fragment looks at the path: it is that of the directory, to be used as a whole, or
one that a field requires. -/
inductive Fragment.Requires (site : Site) (known : Ledger) (child : Fragment) (p : String) : Prop
  | whole (h : child.bases = none) (hp : p = ".")
  | part (h : child.bases.isSome = true) (field : Field)
      (hp : field.Requires site (known.seen field) (child.get field) p)

/-! ## Values that can be folded -/

namespace Site

variable {s : Site} {field : Field} {p : String}

theorem exists_rebase_iff : (∃ r, s.rebase field p = .ok r) ↔ s.Reaches p :=
  exists_congr fun _ => rebase_eq_ok_iff

theorem not_reaches_iff : ¬ s.Reaches p ↔ ∃ cause, s.root.rebase s.dir p = .error cause := by
  unfold Reaches
  cases s.root.rebase s.dir p <;> simp

/-- A base is known after the first one if it was before or is the first one. -/
theorem meetsKnown_cons_iff {known known' rest : List String} {value base : String}
    (h : s.root.rebase s.dir value = .ok base)
    (hknown : ∀ key, key ∈ known' ↔ key ∈ known ∨ key = base) :
    s.MeetsKnown known (value :: rest) ↔ base ∈ known ∨ s.MeetsKnown known' rest := by
  constructor
  · intro ⟨before, v, after, b, hsplit, hb, hmet⟩
    cases before with
    | nil =>
      obtain ⟨rfl, rfl⟩ := List.cons.inj hsplit
      obtain rfl : base = b := Except.ok.inj (h.symm.trans hb)
      exact .inl (hmet.resolve_right fun ⟨_, he, _⟩ => List.not_mem_nil he)
    | cons first before =>
      obtain ⟨rfl, rfl⟩ := List.cons.inj hsplit
      refine .inr ⟨before, v, after, b, rfl, hb, ?_⟩
      rcases hmet with hmem | ⟨earlier, he, hearlier⟩
      · exact .inl ((hknown b).2 (.inl hmem))
      · rcases List.mem_cons.1 he with rfl | he
        · exact .inl ((hknown b).2 (.inr (Except.ok.inj (hearlier.symm.trans h))))
        · exact .inr ⟨earlier, he, hearlier⟩
  · rintro (hmem | ⟨before, v, after, b, rfl, hb, hmet⟩)
    · exact ⟨[], value, rest, base, rfl, h, .inl hmem⟩
    · refine ⟨value :: before, v, after, b, rfl, hb, ?_⟩
      rcases hmet with hmem | ⟨earlier, he, hearlier⟩
      · rcases (hknown b).1 hmem with hmem | rfl
        · exact .inl hmem
        · exact .inr ⟨value, List.mem_cons_self, h⟩
      · exact .inr ⟨earlier, List.mem_cons_of_mem value he, hearlier⟩

end Site

namespace Generator

variable {site : Site} {field : Field}

theorem exists_rebaseFile_iff {file : String} :
    (∃ r, rebaseFile site field file = .ok r) ↔ site.Reaches (readFile file).2 := by
  by_cases hmark : '=' ∈ file.toList
  · obtain ⟨key, path, hread⟩ := exists_key_of_mem hmark
    rw [rebaseFile_of_key hread, exists_map_iff, Site.exists_rebase_iff, hread]
  · rw [rebaseFile_of_not_mem hmark, Site.exists_rebase_iff, readFile_of_not_mem hmark]

theorem exists_rebase_iff {g : Generator} :
    (∃ g', g.rebase site field = .ok g') ↔ ∀ p ∈ g.paths, site.Reaches p := by
  have henv : (∃ env, g.env.mapM (site.rebase field) = .ok env) ↔
      ∀ p ∈ g.env.toList, site.Reaches p := by
    cases g.env with
    | none => exact iff_of_true ⟨none, rfl⟩ nofun
    | some p =>
      rw [Option.toList_some, List.forall_mem_singleton, ← @Site.exists_rebase_iff site field p]
      exact exists_map_iff (f := some)
  have henvs : (∃ envs, g.envs.mapM (site.rebase field) = .ok envs) ↔
      ∀ p ∈ g.envs, site.Reaches p := by
    rw [exists_mapM_iff]
    exact forall₂_congr fun p _ => Site.exists_rebase_iff
  have hfiles : (∃ files, g.files.mapM (rebaseFile site field) = .ok files) ↔
      ∀ p ∈ g.files.map fun file => (readFile file).2, site.Reaches p := by
    rw [exists_mapM_iff, List.forall_mem_map]
    exact forall₂_congr fun file _ => exists_rebaseFile_iff
  unfold paths sources
  rw [List.forall_mem_append, List.forall_mem_append, ← henv, ← henvs, ← hfiles]
  constructor
  · intro ⟨g', hg⟩
    obtain ⟨env, envs, files, henv, henvs, hfiles, -⟩ := rebase_eq_ok_iff.1 hg
    exact ⟨⟨⟨env, henv⟩, envs, henvs⟩, files, hfiles⟩
  · intro ⟨⟨⟨env, henv⟩, envs, henvs⟩, files, hfiles⟩
    exact ⟨_, rebase_eq_ok_iff.2 ⟨env, envs, files, henv, henvs, hfiles, rfl⟩⟩

theorem mem_sift_iff_taken {known : List String} {gs : List Generator} {g : Generator} :
    g ∈ sift (·.name) (·.behavior != .create) known gs ↔ Taken known gs g := by
  rw [mem_sift_iff]
  refine exists₂_congr fun before after => and_congr_right fun _ => ?_
  simp only [List.mem_map]
  by_cases hc : g.behavior = .create <;> simp [hc, not_or]

end Generator

namespace Accepted

variable {site : Site} {known : List String}

theorem exists_paths_iff {field : Field} {values : List String} :
    (∃ k, paths field known (values.map (site, ·)) = .ok k) ↔ ∀ p ∈ values, site.Reaches p := by
  unfold paths
  rw [exists_map_iff, exists_mapM_iff, List.forall_mem_map]
  exact forall₂_congr fun p _ => Site.exists_rebase_iff

theorem exists_patches_iff {ps : List JsonPatch} :
    (∃ k, patches known (ps.map (site, ·)) = .ok k) ↔
      ∀ p, (∃ patch ∈ ps, p = patch.path) → site.Reaches p := by
  unfold patches
  rw [exists_map_iff, exists_mapM_iff, List.forall_mem_map]
  have hpatch (patch : JsonPatch) :
      (∃ b, rebasePatch (site, patch) = .ok b) ↔ site.Reaches patch.path :=
    exists_map_iff.trans Site.exists_rebase_iff
  simp only [hpatch]
  constructor
  · rintro h p ⟨patch, hmem, rfl⟩
    exact h patch hmem
  · intro h patch hmem
    exact h patch.path ⟨patch, hmem, rfl⟩

theorem exists_generators_iff {γ : Type} {kind : GeneratorKind γ} {field : Field}
    {entries : List γ} :
    (∃ k, generators kind field known (entries.map (site, ·)) = .ok k) ↔
      ∀ p, (∃ g, Generator.Taken known (entries.map kind.shared) g ∧ p ∈ g.paths) →
        site.Reaches p := by
  -- What is kept is told by the shared parts, so the sites and the rest of each entry can go.
  have hkept : keptGenerators kind known (entries.map (site, ·)) =
      (sift (fun e => (kind.shared e).name) (fun e => (kind.shared e).behavior != .create) known
        entries).map (site, ·) := sift_map _ _ _ known entries
  have htaken : sift (·.name) (·.behavior != .create) known (entries.map kind.shared) =
      (sift (fun e => (kind.shared e).name) (fun e => (kind.shared e).behavior != .create) known
        entries).map kind.shared := sift_map _ _ _ known entries
  have hentry (e : γ) : (∃ b, rebaseGenerator kind field (site, e) = .ok b) ↔
      ∀ p ∈ (kind.shared e).paths, site.Reaches p :=
    exists_map_iff.trans Generator.exists_rebase_iff
  unfold generators
  rw [exists_map_iff, exists_mapM_iff, hkept, List.forall_mem_map]
  simp only [← Generator.mem_sift_iff_taken, htaken, hentry]
  constructor
  · rintro h p ⟨g, hg, hp⟩
    obtain ⟨e, he, rfl⟩ := List.mem_map.1 hg
    exact h e he p hp
  · intro h e he p hp
    exact h p ⟨kind.shared e, List.mem_map_of_mem he, hp⟩

end Accepted

namespace Field

variable {site : Site}

theorem exists_foldBases_iff {values : List String} {c : Cell .bases} :
    (∃ c', foldBases site values c = .ok c') ↔
      (∀ p ∈ values, site.Reaches p) ∧ (site.MeetsKnown c.seen values → site.Reaches ".") := by
  induction values generalizing c with
  | nil =>
    have hmet : ¬ site.MeetsKnown c.seen [] := by
      intro ⟨before, value, after, _, hsplit, _⟩
      simp at hsplit
    exact iff_of_true ⟨c, rfl⟩ ⟨nofun, fun h => absurd h hmet⟩
  | cons value rest ih =>
    rw [foldBases, List.forall_mem_cons, ← @Site.exists_rebase_iff site .bases value]
    cases hv : site.rebase .bases value with
    | error e => simp
    | ok base =>
      have hbase : site.root.rebase site.dir value = .ok base := Site.rebase_eq_ok_iff.1 hv
      rw [ok_bind]
      by_cases hk : base ∈ c.seen
      -- From here on the directory of the layer is looked at whatever follows.
      · have hmet : site.MeetsKnown c.seen (value :: rest) :=
          ⟨[], value, rest, base, rfl, hbase, .inl hk⟩
        rw [if_pos hk]
        cases ho : site.rebase .bases "." with
        | error e =>
          have hown : ¬ site.Reaches "." := fun h => by
            obtain ⟨own, hown⟩ := (@Site.exists_rebase_iff site .bases ".").2 h
            rw [ho] at hown
            exact absurd hown (by simp)
          simp [hmet, hown]
        | ok own =>
          have hown : site.Reaches "." := Site.exists_rebase_iff.1 ⟨own, ho⟩
          rw [ok_bind, ih]
          simp [hown]
      · have hcons := @Site.meetsKnown_cons_iff site c.seen (addBase base c).seen rest value base
          hbase fun key => by
            show key ∈ meet c.seen [base] ↔ _
            rw [mem_meet, List.mem_singleton]
        rw [if_neg hk, ih, hcons, or_iff_right hk]
        simp

/-- A field can be folded exactly if all paths that this requires have a rebased form. -/
theorem exists_fold_iff {field : Field} {v : field.Value} {c : Cell field} :
    (∃ c', field.fold site v c = .ok c') ↔ ∀ p, field.Requires site c.seen v p → site.Reaches p := by
  cases field with
  | bases =>
    show (∃ c', foldBases site (v.getD []) c = .ok c') ↔ _
    rw [exists_foldBases_iff]
    constructor
    · rintro ⟨hpaths, hown⟩ p (hp | ⟨rfl, hmet⟩)
      · exact hpaths p hp
      · exact hown hmet
    · intro h
      exact ⟨fun p hp => h p (.inl hp), fun hmet => h "." (.inr ⟨rfl, hmet⟩)⟩
  | resources => exact exists_map_iff.trans Accepted.exists_paths_iff
  | configurations => exact exists_map_iff.trans Accepted.exists_paths_iff
  | strategicPatches => exact exists_map_iff.trans Accepted.exists_paths_iff
  | jsonPatches => exact exists_map_iff.trans Accepted.exists_patches_iff
  | configMaps =>
    have h := @Accepted.exists_generators_iff site c.seen _ .configMap .configMaps v
    rw [show v.map GeneratorKind.configMap.shared = v from List.map_id v] at h
    exact exists_map_iff.trans h
  | secrets => exact exists_map_iff.trans Accepted.exists_generators_iff
  | _ => exact iff_of_true ⟨_, rfl⟩ nofun

end Field

/-! ## Layers that can be folded -/

namespace Fragment

variable {site : Site} {child : Fragment} {acc : Accumulator}

/-- A layer can be folded exactly if each of its fields can. -/
theorem exists_foldInto_iff :
    (∃ acc', (child.foldInto site).run acc = .ok () acc') ↔
      ∀ field, ∃ c, child.foldCell site field (acc.cell field) = .ok c := by
  constructor
  · intro ⟨acc', h⟩ field
    have hcells := (outcome_foldInto_eq_ok_iff.1 (Folding.outcome_eq_ok_iff.2 h)).2
    exact ⟨acc'.cell field, hcells field⟩
  · intro h
    choose cells hcells using h
    obtain ⟨acc', hheader, hcell⟩ := Accumulator.exists_of_cells acc.fragment.header cells
    refine ⟨acc', Folding.outcome_eq_ok_iff.1 ?_⟩
    refine outcome_foldInto_eq_ok_iff.2 ⟨hheader, fun field => ?_⟩
    rw [hcell field]
    exact hcells field

theorem exists_foldInto_iff_requires (hu : child.unsupportedFields = []) :
    (∃ acc', (child.foldInto site).run acc = .ok () acc') ↔
      ∀ p, child.Requires site acc.ledger p → site.Reaches p := by
  have hhead : child.unsupportedFields.head? = none := by rw [hu]; rfl
  rw [exists_foldInto_iff]
  cases hb : child.bases.isSome with
  | true =>
    have hnone : child.bases ≠ none := Option.isSome_iff_ne_none.1 hb
    simp only [foldCell_of_isSome hhead hb, Field.exists_fold_iff]
    constructor
    · rintro h p (⟨hwhole, -⟩ | ⟨-, field, hp⟩)
      · exact absurd hwhole hnone
      · exact h field p hp
    · intro h field p hp
      exact h p (.part hb field hp)
  | false =>
    have hnone : child.bases = none := by simpa using hb
    have hcell (field : Field) :
        child.foldCell site field (acc.cell field) = field.foldWhole site (acc.cell field) := by
      unfold foldCell
      rw [hhead, hnone]
      rfl
    simp only [hcell]
    constructor
    · rintro h p (⟨-, rfl⟩ | ⟨hsome, -⟩)
      · obtain ⟨c, hc⟩ := h .bases
        rw [Field.foldWhole_bases] at hc
        exact Site.exists_rebase_iff.1 (exists_map_iff.1 ⟨c, hc⟩)
      · exact absurd hsome (by simp [hb])
    · intro h field
      by_cases hfield : field = .bases
      · subst hfield
        rw [Field.foldWhole_bases, exists_map_iff, Site.exists_rebase_iff]
        exact h "." (.whole hnone rfl)
      · exact ⟨_, Field.foldWhole_of_ne hfield _⟩

/-- A fold fails exactly if one of the paths that it looks at has no rebased form. It has changed
nothing then if the fragment was to be used as a whole. -/
theorem foldInto_fails_iff (hu : child.unsupportedFields = []) (acc : Accumulator) :
    ((∃ e acc', (child.foldInto site).run acc = .error e acc') ↔
      ∃ p cause, child.Requires site acc.ledger p ∧ site.root.rebase site.dir p = .error cause) ∧
    (child.bases = none → ∀ e acc', (child.foldInto site).run acc = .error e acc' → acc' = acc) := by
  constructor
  · have hfails : (∃ e acc', (child.foldInto site).run acc = .error e acc') ↔
        ¬ ∃ acc', (child.foldInto site).run acc = .ok () acc' := by
      cases (child.foldInto site).run acc <;> simp
    rw [hfails, exists_foldInto_iff_requires hu]
    push Not
    refine exists_congr fun p => ?_
    rw [Site.not_reaches_iff]
    exact exists_and_left.symm
  · intro hb e acc' h
    have hrun : (child.foldInto site).run acc =
        (Folding.lift (site.rebase .bases ".") >>= fun base => do
          if ← Folding.mark .bases base then Policy.addBase base).run acc := by
      unfold foldInto
      rw [hu, hb]
      rfl
    rw [hrun] at h
    -- Once there is a base, the rest succeeds.
    cases hbase : site.rebase .bases "." with
    | error cause =>
      rw [hbase] at h
      exact (EStateM.Result.error.inj h).2.symm
    | ok base =>
      have hout := Field.outcome_foldWhole site acc
      rw [Field.foldWhole_bases, hbase, map_ok, map_ok] at hout
      rw [hbase] at h
      exact absurd (Folding.outcome_eq_ok_iff.1 hout) (by rw [h]; simp)

/-- The layer is outside of the directory of the result, which matters only because its base, which
is inside, is known. -/
theorem foldInto_fails_iff_of_known_base :
    let site : Site := ⟨.ofString "app", .ofString "other"⟩
    let child : Fragment := { bases := some ["../app/base"] }
    let acc : Accumulator := ⟨.blank, Ledger.empty.add .bases "base"⟩
    child.unsupportedFields = [] ∧
      child.Requires site acc.ledger "." ∧
      ∃ e acc', (child.foldInto site).run acc = .error e acc' := by
  intro site child acc
  have hu : child.unsupportedFields = [] := rfl
  have hbase : site.root.rebase site.dir "../app/base" = .ok "base" := rfl
  have hknown : "base" ∈ acc.ledger.seen .bases := by decide
  have hrequires : child.Requires site acc.ledger "." :=
    .part rfl .bases (.inr ⟨rfl, [], "../app/base", [], "base", rfl, hbase, .inl hknown⟩)
  have hcause : site.root.rebase site.dir "." =
      .error (.outsideRoot (.ofString "other") (.ofString "app")) := rfl
  exact ⟨hu, hrequires, (foldInto_fails_iff hu acc).1.2 ⟨".", _, hrequires, hcause⟩⟩

end Fragment
end LayeredConfig
