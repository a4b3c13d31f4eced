/-
Folding a layer a second time.

The first fold makes all keys of the layer known, so that the second one finds each of them met. It
adds what is always added: the generators that do not create, and the patches of operations. And if
the layer has bases, its directory becomes known, since all of them are by then
(`Fragment.foldInto_again`).
-/
import LayeredConfig.Proofs.Dict
import LayeredConfig.Proofs.Fold.Generators
import LayeredConfig.Proofs.Yaml.Decide

namespace LayeredConfig

open Component

/-! ## Fields that only grow -/

namespace Accepted

variable {γ : Type}

/-- Accepting the same entries a second time yields no new keys, and of the entries it yields only
what `repeated` says. -/
def Repeats {α β : Type} (accept : List String → List α → Except FoldError (Accepted β))
    (repeated : List α → List β → Prop) : Prop :=
  ∀ known entries k l, accept known entries = .ok k →
    accept (meet known k.keys) entries = .ok l → l.keys = k.keys ∧ repeated entries l.entries

theorem repeats_paths (field : Field) : Repeats (paths field) fun _ bs => bs = [] := by
  intro known values k l hk hl
  obtain ⟨rs, hrs, rfl⟩ := map_eq_ok_iff.1 hk
  obtain ⟨ss, hss, rfl⟩ := map_eq_ok_iff.1 hl
  obtain rfl : rs = ss := Except.ok.inj (hrs.symm.trans hss)
  have hnone := novel_meet_self id known rs
  rw [List.map_id] at hnone
  exact ⟨rfl, hnone⟩

theorem repeats_firsts (identity : γ → String) : Repeats (firsts identity) fun _ bs => bs = [] := by
  intro known entries k l hk hl
  obtain rfl := Except.ok.inj hk
  obtain rfl := Except.ok.inj hl
  have hnone := novel_meet_self identity known (entries.map (·.2))
  rw [List.map_map] at hnone
  exact ⟨rfl, hnone⟩

/-- The entries that do not create, each with its sources rebased. -/
theorem repeats_generators (kind : GeneratorKind γ) (field : Field) :
    Repeats (generators kind field) fun entries gs =>
      (entries.filter fun e => (kind.shared e.2).behavior != .create).mapM
        (rebaseGenerator kind field) = .ok gs := by
  intro known entries k l hk hl
  obtain ⟨gs, -, rfl⟩ := map_eq_ok_iff.1 hk
  obtain ⟨hs, hhs, rfl⟩ := map_eq_ok_iff.1 hl
  have hknown : ∀ e ∈ entries, (kind.shared e.2).name ∈
      meet known (entries.map fun e => (kind.shared e.2).name) := fun e he =>
    mem_meet.2 (.inr (List.mem_map_of_mem he))
  rw [keptGenerators, sift_of_known _ _ hknown] at hhs
  exact ⟨rfl, hhs⟩

theorem repeats_patches : Repeats patches fun entries ps => entries.mapM rebasePatch = .ok ps := by
  intro known entries k l hk hl
  obtain ⟨ps, -, rfl⟩ := map_eq_ok_iff.1 hk
  obtain ⟨qs, hqs, rfl⟩ := map_eq_ok_iff.1 hl
  exact ⟨rfl, hqs⟩

end Accepted

/-- The same keys are met again. -/
theorem Cell.take_take {field : Field} (c : Cell field) (keys : List String) (v w : field.Value) :
    (c.take keys v).take keys w = c.take keys w :=
  ext_of rfl (meet_meet_self c.seen keys)

namespace Field

variable {site : Site} {field : Field} {child : Fragment} {c d e : Cell field}

section Grows

variable {α β : Type} {values : Fragment → List α}
  {accept : List String → List (Site × α) → Except FoldError (Accepted β)}
  {add : field.Value → List β → field.Value}

theorem Grows.again (hg : field.Grows values accept add)
    {repeated : List (Site × α) → List β → Prop} (hr : Accepted.Repeats accept repeated)
    (hd : field.fold site (child.get field) c = .ok d)
    (he : field.fold site (child.get field) d = .ok e) :
    ∃ bs, repeated ((values child).map (site, ·)) bs ∧ e.value = add d.value bs ∧
      e.seen = d.seen := by
  rw [hg.fold_eq] at hd he
  obtain ⟨k, hk, rfl⟩ := map_eq_ok_iff.1 hd
  obtain ⟨l, hl, rfl⟩ := map_eq_ok_iff.1 he
  obtain ⟨hkeys, hrepeated⟩ := hr _ _ k l hk hl
  refine ⟨l.entries, hrepeated, rfl, ?_⟩
  show meet (meet c.seen k.keys) l.keys = meet c.seen k.keys
  rw [hkeys, meet_meet_self]

theorem Grows.again_eq (hg : field.Grows values accept add)
    (hr : Accepted.Repeats accept fun _ bs => bs = [])
    (hd : field.fold site (child.get field) c = .ok d)
    (he : field.fold site (child.get field) d = .ok e) : e = d := by
  obtain ⟨bs, rfl, hvalue, hseen⟩ := hg.again hr hd he
  rw [hg.add_nil] at hvalue
  exact Cell.ext_of hvalue hseen

end Grows

/-! ## Bases -/

/-- All bases of a list that has been folded are known. -/
theorem mem_seen_foldBases {values : List String} {c d : Cell .bases}
    (h : foldBases site values c = .ok d) :
    (∀ key ∈ c.seen, key ∈ d.seen) ∧
      ∀ value ∈ values, ∀ base, site.rebase .bases value = .ok base → base ∈ d.seen := by
  induction values generalizing c with
  | nil =>
    obtain rfl : c = d := Except.ok.inj h
    exact ⟨fun _ hkey => hkey, nofun⟩
  | cons value rest ih =>
    unfold foldBases at h
    obtain ⟨base, hbase, h⟩ := bind_eq_ok_iff.1 h
    -- In either case this base is known to the rest, together with all that was.
    suffices hmid : ∃ mid : Cell .bases, foldBases site rest mid = .ok d ∧ base ∈ mid.seen ∧
        ∀ key ∈ c.seen, key ∈ mid.seen by
      obtain ⟨mid, hrest, hmem, hkeep⟩ := hmid
      obtain ⟨hkeep', hall⟩ := ih hrest
      refine ⟨fun key hkey => hkeep' key (hkeep key hkey), List.forall_mem_cons.2 ⟨?_, hall⟩⟩
      intro base' hbase'
      obtain rfl : base = base' := Except.ok.inj (hbase.symm.trans hbase')
      exact hkeep' base hmem
    by_cases hk : base ∈ c.seen
    · rw [if_pos hk] at h
      obtain ⟨own, -, h⟩ := bind_eq_ok_iff.1 h
      exact ⟨_, h, mem_meet.2 (.inl hk), fun key hkey => mem_meet.2 (.inl hkey)⟩
    · rw [if_neg hk] at h
      exact ⟨_, h, mem_meet.2 (.inr (List.mem_singleton_self base)),
        fun key hkey => mem_meet.2 (.inl hkey)⟩

/-- Bases that are known make the directory of the layer known, and that is all. -/
theorem foldBases_of_known {values : List String} {d e : Cell .bases}
    (hknown : ∀ value ∈ values, ∀ base, site.rebase .bases value = .ok base → base ∈ d.seen)
    (h : foldBases site values d = .ok e) :
    e = d ∨ ∃ own, site.root.rebase site.dir "." = .ok own ∧ e = d.take [own] d.value := by
  induction values generalizing d with
  | nil =>
    obtain rfl : d = e := Except.ok.inj h
    exact .inl rfl
  | cons value rest ih =>
    obtain ⟨hvalue, hrest⟩ := List.forall_mem_cons.1 hknown
    unfold foldBases at h
    obtain ⟨base, hbase, h⟩ := bind_eq_ok_iff.1 h
    rw [if_pos (hvalue base hbase)] at h
    obtain ⟨own, hown, h⟩ := bind_eq_ok_iff.1 h
    have hown : site.root.rebase site.dir "." = .ok own := Site.rebase_eq_ok_iff.1 hown
    refine .inr ⟨own, hown, ?_⟩
    rcases ih (fun v hv b hb => mem_meet.2 (.inl (hrest v hv b hb))) h with he | ⟨own', ho, he⟩
    · exact he
    · obtain rfl : own = own' := Except.ok.inj (hown.symm.trans ho)
      rw [he]
      exact d.take_take [own] _ _

theorem bases_again {c d e : Cell .bases} (hd : fold site .bases (child.get .bases) c = .ok d)
    (he : fold site .bases (child.get .bases) d = .ok e) :
    e = d ∨ ∃ own, site.root.rebase site.dir "." = .ok own ∧ e = d.take [own] d.value :=
  foldBases_of_known (mem_seen_foldBases hd).2 he

/-! ## Other fields -/

theorem firstNonEmpty_again (v w : String) :
    Policy.firstNonEmpty (Policy.firstNonEmpty v w) w = Policy.firstNonEmpty v w := by
  unfold Policy.firstNonEmpty
  by_cases hv : v = ""
  · rw [if_pos hv, ite_self]
  · rw [if_neg hv, if_neg hv]

/-- A field whose entries are all told apart is the same after the second time. -/
theorem fold_again (hbases : field ≠ .bases) (hmaps : field ≠ .configMaps)
    (hsecrets : field ≠ .secrets) (hpatches : field ≠ .jsonPatches)
    (hd : field.fold site (child.get field) c = .ok d)
    (he : field.fold site (child.get field) d = .ok e) : e = d := by
  cases field with
  | bases => exact absurd rfl hbases
  | configMaps => exact absurd rfl hmaps
  | secrets => exact absurd rfl hsecrets
  | jsonPatches => exact absurd rfl hpatches
  | namePrefix | nameSuffix | nameSpace =>
    obtain rfl := Except.ok.inj hd
    obtain rfl := Except.ok.inj he
    exact (c.take_take _ _ _).trans (congrArg (c.take []) (firstNonEmpty_again _ _))
  | commonLabels | commonAnnotations =>
    obtain rfl := Except.ok.inj hd
    obtain rfl := Except.ok.inj he
    exact (c.take_take _ _ _).trans (congrArg (c.take _) (Dict.merge_merge_self _ _))
  | generatorOptions =>
    obtain rfl := Except.ok.inj hd
    obtain rfl := Except.ok.inj he
    refine (c.take_take _ _ _).trans (congrArg (c.take []) ?_)
    show (c.value.or child.generatorOptions).or child.generatorOptions = _
    rw [Option.or_assoc, Option.or_self]
    rfl
  | resources => exact grows_resources.again_eq (Accepted.repeats_paths _) hd he
  | configurations => exact grows_configurations.again_eq (Accepted.repeats_paths _) hd he
  | strategicPatches => exact grows_strategicPatches.again_eq (Accepted.repeats_paths _) hd he
  | images => exact grows_images.again_eq (Accepted.repeats_firsts _) hd he
  | vars => exact grows_vars.again_eq (Accepted.repeats_firsts _) hd he
  | crds => exact grows_crds.again_eq (Accepted.repeats_firsts _) hd he

theorem seen_again (h : field ≠ .bases) (hd : field.fold site (child.get field) c = .ok d)
    (he : field.fold site (child.get field) d = .ok e) : e.seen = d.seen := by
  by_cases hmaps : field = .configMaps
  · subst hmaps
    obtain ⟨-, -, -, hseen⟩ := grows_configMaps.again (Accepted.repeats_generators _ _) hd he
    exact hseen
  by_cases hsecrets : field = .secrets
  · subst hsecrets
    obtain ⟨-, -, -, hseen⟩ := grows_secrets.again (Accepted.repeats_generators _ _) hd he
    exact hseen
  by_cases hpatches : field = .jsonPatches
  · subst hpatches
    obtain ⟨-, -, -, hseen⟩ := grows_jsonPatches.again Accepted.repeats_patches hd he
    exact hseen
  exact congrArg Cell.seen (fold_again h hmaps hsecrets hpatches hd he)

end Field

/-! ## Layers -/

namespace Component

/-- The entries in order, each with the sources of its shared part rewritten. -/
def RewrittenGenerators {γ : Type} (kind : GeneratorKind γ) (root dir : Path)
    (entries gs : List γ) : Prop :=
  List.Forall₂
    (fun entry g => ∃ g', RewrittenGenerator root dir (kind.shared entry) g' ∧
      g = kind.withShared entry g')
    entries gs

theorem rewrittenGenerators_of_mapM {γ : Type} {kind : GeneratorKind γ} {site : Site}
    {field : Field} {entries gs : List γ}
    (h : ((entries.map (site, ·)).filter fun e => (kind.shared e.2).behavior != .create).mapM
      (Accepted.rebaseGenerator kind field) = .ok gs) :
    RewrittenGenerators kind site.root site.dir
      (entries.filter fun entry => (kind.shared entry).behavior != .create) gs := by
  have hall := mapM_eq_ok_iff.1 h
  rw [List.filter_map, List.forall₂_map_left_iff] at hall
  refine hall.imp fun entry g hg => ?_
  obtain ⟨g', hg', hshared⟩ := map_eq_ok_iff.1 hg
  exact ⟨g', rewrittenGenerator_of_rebase hg', hshared.symm⟩

end Component

namespace Fragment

variable {site : Site} {child : Fragment} {acc mid acc' : Accumulator}

/-- What a second fold of a fragment with bases adds to what the first has left. -/
structure FoldedAgain (site : Site) (child : Fragment) (mid acc' : Accumulator) : Prop where
  fragment : ∃ maps secrets patches,
    RewrittenGenerators .configMap site.root site.dir
      (child.configMaps.filter (·.behavior != .create)) maps ∧
    RewrittenGenerators .secret site.root site.dir
      (child.secrets.filter (·.behavior != .create)) secrets ∧
    RewrittenPatches site.root (child.jsonPatches.map (site.dir, ·)) patches ∧
    acc'.fragment = { mid.fragment with
      configMaps := mid.fragment.configMaps ++ maps
      secrets := mid.fragment.secrets ++ secrets
      jsonPatches := mid.fragment.jsonPatches ++ patches }
  ledger : acc'.ledger = mid.ledger ∨
    ∃ own, site.root.rebase site.dir "." = .ok own ∧ acc'.ledger = mid.ledger.add .bases own

/-- A directory that has become a base is known. -/
theorem foldWhole_again {field : Field} {c d e : Cell field}
    (hd : field.foldWhole site c = .ok d) (he : field.foldWhole site d = .ok e) : e = d := by
  by_cases hfield : field = .bases
  · subst hfield
    rw [Field.foldWhole_bases] at hd he
    obtain ⟨base, hbase, hd⟩ := map_eq_ok_iff.1 hd
    rw [hbase, map_ok] at he
    have hknown : base ∈ d.seen := by
      rw [← hd]
      by_cases hk : base ∈ c.seen
      · rwa [if_pos hk]
      · rw [if_neg hk]
        exact mem_meet.2 (.inr (List.mem_singleton_self base))
    rw [if_pos hknown] at he
    exact (Except.ok.inj he).symm
  · rw [Field.foldWhole_of_ne hfield] at he
    exact (Except.ok.inj he).symm

theorem ledger_again
    (hmid : ∀ field : Field, field.fold site (child.get field) (acc.cell field) = .ok (mid.cell field))
    (hacc : ∀ field : Field,
      field.fold site (child.get field) (mid.cell field) = .ok (acc'.cell field)) :
    acc'.ledger = mid.ledger ∨
      ∃ own, site.root.rebase site.dir "." = .ok own ∧ acc'.ledger = mid.ledger.add .bases own := by
  have hrest (field : Field) (h : field ≠ .bases) : acc'.ledger.seen field = mid.ledger.seen field :=
    Field.seen_again h (hmid field) (hacc field)
  rcases Field.bases_again (hmid .bases) (hacc .bases) with he | ⟨own, hown, he⟩
  · refine .inl (Ledger.ext_seen fun field => ?_)
    by_cases hfield : field = .bases
    · rw [hfield]
      exact congrArg Cell.seen he
    · exact hrest field hfield
  · refine .inr ⟨own, hown, Ledger.ext_seen fun field => ?_⟩
    by_cases hfield : field = .bases
    · rw [hfield, Ledger.seen_add_self]
      exact congrArg Cell.seen he
    · rw [Ledger.seen_add_of_ne _ _ hfield, hrest field hfield]

theorem foldedAgain_of_cells (hheader : acc'.fragment.header = mid.fragment.header)
    (hmid : ∀ field : Field, field.fold site (child.get field) (acc.cell field) = .ok (mid.cell field))
    (hacc : ∀ field : Field,
      field.fold site (child.get field) (mid.cell field) = .ok (acc'.cell field)) :
    FoldedAgain site child mid acc' := by
  refine ⟨?_, ledger_again hmid hacc⟩
  obtain ⟨maps, hmaps, hmapsv, -⟩ := Field.grows_configMaps.again
    (Accepted.repeats_generators _ _) (hmid .configMaps) (hacc .configMaps)
  obtain ⟨secrets, hsecrets, hsecretsv, -⟩ := Field.grows_secrets.again
    (Accepted.repeats_generators _ _) (hmid .secrets) (hacc .secrets)
  obtain ⟨patches, hpatches, hpatchesv, -⟩ := Field.grows_jsonPatches.again
    Accepted.repeats_patches (hmid .jsonPatches) (hacc .jsonPatches)
  have hrest (field : Field) (hbases : field ≠ .bases) (hmaps : field ≠ .configMaps)
      (hsecrets : field ≠ .secrets) (hpatches : field ≠ .jsonPatches) :
      acc'.fragment.get field = mid.fragment.get field :=
    congrArg Cell.value
      (Field.fold_again hbases hmaps hsecrets hpatches (hmid field) (hacc field))
  have hrewritten : RewrittenPatches site.root (child.jsonPatches.map (site.dir, ·)) patches := by
    refine mapM_rebasePatch ?_
    rw [Layer.located, List.map_map]
    exact hpatches
  refine ⟨maps, secrets, patches, rewrittenGenerators_of_mapM hmaps,
    rewrittenGenerators_of_mapM hsecrets, hrewritten, ext_get hheader fun field => ?_⟩
  cases field with
  | bases =>
    rcases Field.bases_again (hmid .bases) (hacc .bases) with he | ⟨own, -, he⟩
    · exact congrArg Cell.value he
    · exact congrArg Cell.value he
  | configMaps => exact hmapsv
  | secrets => exact hsecretsv
  | jsonPatches => exact hpatchesv
  | _ => exact hrest _ (by decide) (by decide) (by decide) (by decide)

/-- Folding a layer a second time adds nothing if it is used as a whole. Otherwise it repeats the
generators that do not create and the patches of operations, and may make the directory of the
layer known. -/
theorem foldInto_again (hmid : (child.foldInto site).run acc = .ok () mid)
    (hacc : (child.foldInto site).run mid = .ok () acc') :
    (child.bases = none → acc' = mid) ∧
      (child.bases.isSome = true → FoldedAgain site child mid acc') := by
  have hfirst := (outcome_foldInto_eq_ok_iff.1 (Folding.outcome_eq_ok_iff.2 hmid)).2
  obtain ⟨hheader, hsecond⟩ := outcome_foldInto_eq_ok_iff.1 (Folding.outcome_eq_ok_iff.2 hacc)
  constructor
  · intro hb
    refine Accumulator.ext_cells hheader fun field => ?_
    have hwhole {c c' : Cell field} (h : child.foldCell site field c = .ok c') :
        field.foldWhole site c = .ok c' :=
      (foldCell_eq_ok h).elim (·.2) fun h => absurd h.1 (by simp [hb])
    exact foldWhole_again (hwhole (hfirst field)) (hwhole (hsecond field))
  · intro hb
    have hparts {field : Field} {c c' : Cell field} (h : child.foldCell site field c = .ok c') :
        field.fold site (child.get field) c = .ok c' :=
      (foldCell_eq_ok h).elim (fun h => absurd h.1 (by simp [hb])) (·.2)
    exact foldedAgain_of_cells hheader (fun field => hparts (hfirst field))
      fun field => hparts (hsecond field)

/-- The generator that merges comes twice, the one that creates does not. The directory of the layer
becomes known, and a directory that is a base already stays the only one. -/
theorem foldInto_again_of_merge :
    let site : Site := ⟨.ofString "app", .ofString "app/x"⟩
    let whole : Fragment := {}
    let child : Fragment :=
      { bases := some ["../base"]
        resources := ["r.yaml"]
        configMaps := [{ name := "a", behavior := .create },
          { name := "b", behavior := .merge, env := some "b.env" }] }
    (∃ mid acc', (child.foldInto site).run .blank = .ok () mid ∧
      (child.foldInto site).run mid = .ok () acc' ∧
      acc'.fragment.configMaps = [{ name := "a", behavior := .create },
        { name := "b", behavior := .merge, env := some "x/b.env" },
        { name := "b", behavior := .merge, env := some "x/b.env" }] ∧
      acc'.fragment.bases = some ["base"] ∧
      acc'.ledger.seen .bases = ["base", "x"] ∧
      FoldedAgain site child mid acc') ∧
    ∃ mid acc', (whole.foldInto site).run .blank = .ok () mid ∧
      (whole.foldInto site).run mid = .ok () acc' ∧
      mid.fragment.bases = some ["x"] ∧
      acc' = mid := by
  intro site whole child
  constructor
  · have hout : ((child.foldInto site).outcome .blank >>= fun p =>
        ((child.foldInto site).outcome p.2).map fun q =>
          (q.2.fragment.configMaps, q.2.fragment.bases, q.2.ledger.seen .bases)) =
        .ok ([{ name := "a", behavior := .create },
          { name := "b", behavior := .merge, env := some "x/b.env" },
          { name := "b", behavior := .merge, env := some "x/b.env" }], some ["base"],
            ["base", "x"]) := by decide +kernel
    obtain ⟨⟨⟨⟩, mid⟩, hmid, hrest⟩ := bind_eq_ok_iff.1 hout
    obtain ⟨⟨⟨⟩, acc'⟩, hacc, hvalues⟩ := map_eq_ok_iff.1 hrest
    rw [Folding.outcome_eq_ok_iff] at hmid hacc
    simp only [Prod.mk.injEq] at hvalues
    obtain ⟨hmaps, hbases, hseen⟩ := hvalues
    exact ⟨mid, acc', hmid, hacc, hmaps, hbases, hseen, (foldInto_again hmid hacc).2 rfl⟩
  · have hout : ((whole.foldInto site).outcome .blank >>= fun p =>
        ((whole.foldInto site).outcome p.2).map fun _ => p.2.fragment.bases) =
        .ok (some ["x"]) := by decide +kernel
    obtain ⟨⟨⟨⟩, mid⟩, hmid, hrest⟩ := bind_eq_ok_iff.1 hout
    obtain ⟨⟨⟨⟩, acc'⟩, hacc, hbases⟩ := map_eq_ok_iff.1 hrest
    rw [Folding.outcome_eq_ok_iff] at hmid hacc
    exact ⟨mid, acc', hmid, hacc, hbases, (foldInto_again hmid hacc).1 rfl⟩

end Fragment
end LayeredConfig
