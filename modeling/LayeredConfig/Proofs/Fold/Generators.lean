/-
What a run of folds makes of the generators.

A generator that creates is left out if its name has been met, which the generators before it do
whatever their behavior. What is kept comes in the order of the layers, with its sources rewritten
and all else as it was (`KeptGenerators`). The two kinds of generators are folded apart: what
becomes of one of them depends on the entries of that kind alone (`Grows.run_congr`).
-/
import Mathlib
import LayeredConfig.Proofs.Fold.Appended
import LayeredConfig.Proofs.Fold.FileEntry
import LayeredConfig.Proofs.Yaml.Decide

namespace LayeredConfig

open Layer

/-! ## Sources -/

/-- The path of a file entry is rewritten; a key in front of it stays as it is. -/
def RewrittenFile (root dir : Path) (entry r : String) : Prop :=
  (∃ key path p, '=' ∉ key.toList ∧ entry = key ++ "=" ++ path ∧
    root.rebase dir path = .ok p ∧ r = key ++ "=" ++ p) ∨
  '=' ∉ entry.toList ∧ root.rebase dir entry = .ok r

/-- The generator `g'` is `g`, read from `dir`, with its sources rewritten. -/
structure RewrittenGenerator (root dir : Path) (g g' : Generator) : Prop where
  name : g'.name = g.name
  nameSpace : g'.nameSpace = g.nameSpace
  behavior : g'.behavior = g.behavior
  literals : g'.literals = g.literals
  unsupported : g'.unsupported = g.unsupported
  env : Option.Rel (fun value r => root.rebase dir value = .ok r) g.env g'.env
  envs : List.Forall₂ (fun value r => root.rebase dir value = .ok r) g.envs g'.envs
  files : List.Forall₂ (RewrittenFile root dir) g.files g'.files

section

variable {root dir : Path} {field : Field}

theorem rewrittenFile_of_rebaseFile {entry r : String}
    (h : Generator.rebaseFile ⟨root, dir⟩ field entry = .ok r) :
    RewrittenFile root dir entry r := by
  by_cases hmark : '=' ∈ entry.toList
  · obtain ⟨key, path, hread⟩ := Generator.exists_key_of_mem hmark
    obtain ⟨hentry, hkey⟩ := Generator.eq_of_readFile hread
    rw [Generator.rebaseFile_of_key hread] at h
    obtain ⟨p, hp, rfl⟩ := map_eq_ok_iff.1 h
    exact .inl ⟨key, path, p, hkey, hentry, Site.rebase_eq_ok_iff.1 hp, rfl⟩
  · rw [Generator.rebaseFile_of_not_mem hmark] at h
    exact .inr ⟨hmark, Site.rebase_eq_ok_iff.1 h⟩

theorem rewrittenGenerator_of_rebase {g g' : Generator} (h : g.rebase ⟨root, dir⟩ field = .ok g') :
    RewrittenGenerator root dir g g' := by
  obtain ⟨env, envs, files, henv, henvs, hfiles, rfl⟩ := Generator.rebase_eq_ok_iff.1 h
  have hpath {value r : String} (hr : Site.rebase ⟨root, dir⟩ field value = .ok r) :
      root.rebase dir value = .ok r := Site.rebase_eq_ok_iff.1 hr
  refine ⟨rfl, rfl, rfl, rfl, rfl, ?_, ?_, ?_⟩
  · cases hg : g.env with
    | none =>
      rw [hg] at henv
      obtain rfl : none = env := Except.ok.inj henv
      exact .none
    | some value =>
      rw [hg] at henv
      obtain ⟨r, hr, hsome⟩ := bind_eq_ok_iff.1 henv
      obtain rfl : some r = env := Except.ok.inj hsome
      exact .some (hpath hr)
  · exact (mapM_eq_ok_iff.1 henvs).imp fun _ _ hr => hpath hr
  · exact (mapM_eq_ok_iff.1 hfiles).imp fun _ _ hr => rewrittenFile_of_rebaseFile hr

end

/-! ## Runs -/

/-- What becomes of a field that only grows depends on what it held and knew at the start and on
the entries of that field in the layers. -/
theorem Field.Grows.run_congr {field : Field} {α β : Type} {values : Fragment → List α}
    {accept : List String → List (Site × α) → Except FoldError (Accepted β)}
    {add : field.Value → List β → field.Value} (hg : field.Grows values accept add)
    {root : Path} {layers others : List Layer} {c c₁ c₂ : Cell field}
    (h₁ : field.run root layers c = .ok c₁) (h₂ : field.run root others c = .ok c₂)
    (hentries : entries values others = entries values layers) : c₂ = c₁ := by
  obtain ⟨k₁, hk₁, rfl⟩ := hg.run_accepted h₁
  obtain ⟨k₂, hk₂, rfl⟩ := hg.run_accepted h₂
  rw [hentries, hk₁] at hk₂
  rw [Except.ok.inj hk₂]

namespace Component

variable {root : Path} {layers : List Layer} {acc acc' : Accumulator} {γ : Type}

/-- The generators `gs` are the entries, each with its sources rewritten, except for those that
create and have a name that is known or is that of an earlier entry. -/
def KeptGenerators (kind : GeneratorKind γ) (root : Path) (known : List String)
    (es : List (Path × γ)) (gs : List γ) : Prop :=
  List.Forall₂
    (fun e g => ∃ g', RewrittenGenerator root e.1 (kind.shared e.2) g' ∧ g = kind.withShared e.2 g')
    (sift (fun e => (kind.shared e.2).name) (fun e => (kind.shared e.2).behavior != .create) known
      es) gs

theorem keptGenerators_of_run {field : Field} {kind : GeneratorKind γ}
    {values : Fragment → List γ} {add : field.Value → List γ → field.Value}
    (hg : field.Grows values (Accepted.generators kind field) add) {c c' : Cell field}
    (h : field.run root layers c = .ok c') :
    ∃ gs, KeptGenerators kind root c.seen (entries values layers) gs ∧
      c'.value = add c.value gs := by
  obtain ⟨k, hk, rfl⟩ := hg.run_accepted h
  obtain ⟨gs, hgs, rfl⟩ := map_eq_ok_iff.1 hk
  refine ⟨gs, ?_, rfl⟩
  -- Sifting looks at the entries only, so the sites can be put in place afterwards.
  have hall := mapM_eq_ok_iff.1 hgs
  rw [Accepted.keptGenerators, located, sift_map, List.forall₂_map_left_iff] at hall
  refine hall.imp fun e g he => ?_
  obtain ⟨g', hg', rfl⟩ := map_eq_ok_iff.1 he
  exact ⟨g', rewrittenGenerator_of_rebase hg', rfl⟩

/-- What a run makes of the generators. Whatever else there is in another run, the same entries of
one kind, after the same start, have the same result. -/
structure GeneratorsFolded (root : Path) (layers : List Layer) (acc acc' : Accumulator) :
    Prop where
  configMaps : ∃ gs, KeptGenerators .configMap root (acc.ledger.seen .configMaps)
      (entries (·.configMaps) layers) gs ∧
    acc'.fragment.configMaps = acc.fragment.configMaps ++ gs
  secrets : ∃ gs, KeptGenerators .secret root (acc.ledger.seen .secrets)
      (entries (·.secrets) layers) gs ∧
    acc'.fragment.secrets = acc.fragment.secrets ++ gs
  configMaps_apart : ∀ others start result, foldLayers root others start = .ok result →
    start.cell .configMaps = acc.cell .configMaps →
    entries (·.configMaps) others = entries (·.configMaps) layers →
    result.cell .configMaps = acc'.cell .configMaps
  secrets_apart : ∀ others start result, foldLayers root others start = .ok result →
    start.cell .secrets = acc.cell .secrets →
    entries (·.secrets) others = entries (·.secrets) layers →
    result.cell .secrets = acc'.cell .secrets

theorem foldLayers_generators (h : foldLayers root layers acc = .ok acc') :
    GeneratorsFolded root layers acc acc' := by
  obtain ⟨-, hrun⟩ := run_of_foldLayers h
  constructor
  case configMaps => exact keptGenerators_of_run Field.grows_configMaps (hrun .configMaps)
  case secrets => exact keptGenerators_of_run Field.grows_secrets (hrun .secrets)
  case configMaps_apart =>
    intro others start result hother hstart hentries
    have hrun' := (run_of_foldLayers hother).2 .configMaps
    rw [hstart] at hrun'
    exact Field.grows_configMaps.run_congr (hrun .configMaps) hrun' hentries
  case secrets_apart =>
    intro others start result hother hstart hentries
    have hrun' := (run_of_foldLayers hother).2 .secrets
    rw [hstart] at hrun'
    exact Field.grows_secrets.run_congr (hrun .secrets) hrun' hentries

/-- A name that a generator has merged into is known to one that creates, and a secret of that name
is not in its way. -/
theorem foldLayers_generators_of_shared_name :
    let layers : List Layer := [
      ⟨.ofString "app/base",
        { bases := some []
          configMaps := [{ name := "c", behavior := .merge, files := ["k=../x.env", "y.env"] },
            { name := "c", behavior := .create }]
          secrets := [{ name := "c", behavior := .create, secretType := some "t" }] }⟩,
      ⟨.ofString "app/x",
        { bases := some ["../base"]
          configMaps := [{ name := "c", behavior := .create },
            { name := "d", behavior := .create, env := some "d.env" }] }⟩]
    ∃ acc, foldLayers (.ofString "app") layers .blank = .ok acc ∧
      acc.fragment.configMaps =
        [{ name := "c", behavior := .merge, files := ["k=x.env", "base/y.env"] },
          { name := "d", behavior := .create, env := some "x/d.env" }] ∧
      acc.fragment.secrets = [{ name := "c", behavior := .create, secretType := some "t" }] ∧
      GeneratorsFolded (.ofString "app") layers .blank acc := by
  intro layers
  have hmerge : merge {} (.ofString "app") ⟨.ofString "app/base",
      { bases := some []
        configMaps := [{ name := "c", behavior := .merge, files := ["k=../x.env", "y.env"] },
          { name := "c", behavior := .create }]
        secrets := [{ name := "c", behavior := .create, secretType := some "t" }] }⟩
      [⟨.ofString "app/x",
        { bases := some ["../base"]
          configMaps := [{ name := "c", behavior := .create },
            { name := "d", behavior := .create, env := some "d.env" }] }⟩] [] =
      .ok { Fragment.blank with
        bases := some ["base"]
        configMaps := [{ name := "c", behavior := .merge, files := ["k=x.env", "base/y.env"] },
          { name := "d", behavior := .create, env := some "x/d.env" }]
        secrets := [{ name := "c", behavior := .create, secretType := some "t" }] } := by decide +kernel
  obtain ⟨acc, hacc, hfragment⟩ := merge_eq_ok_iff.1 hmerge
  have hmaps := congrArg Fragment.configMaps hfragment
  have hsecrets := congrArg Fragment.secrets hfragment
  exact ⟨acc, hacc, hmaps.symm, hsecrets.symm, foldLayers_generators hacc⟩

end Component
end LayeredConfig
