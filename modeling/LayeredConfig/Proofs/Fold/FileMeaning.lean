/-
What the file entries of generators say once they are rewritten.

An entry with a key keeps it, and its path goes on pointing to the same place. An entry without one
is rewritten as a path, which has the names of directories in it that the entry did not have. If one
of these has a `=`, the result is read with a key, and with another path. This is the only way in
which an entry can come to say something else (`Component.foldLayers_files`).
-/
import LayeredConfig.Proofs.Fold.Deduplicated
import LayeredConfig.Proofs.Fold.Generators
import LayeredConfig.Proofs.Yaml.Decide

namespace LayeredConfig

open Layer

/-! ## One entry -/

namespace Generator

open LayeredConfig.Path

/-- Read in the root, the entry `r` says what `entry` says in the directory: it has the same key, or
none either, and its path points to the same place. -/
structure KeepsMeaning (root dir : Path) (entry r : String) : Prop where
  key : (readFile r).1 = (readFile entry).1
  path : (root / ofString (readFile r).2).location = (dir / ofString (readFile entry).2).location

variable {root dir : Path} {entry r : String}

/-- An entry with a key says the same in any case, one without if no name reads as a key. -/
theorem keepsMeaning_iff (h : RewrittenFile root dir entry r) :
    KeepsMeaning root dir entry r ↔ '=' ∈ entry.toList ∨ Unmarked root dir entry := by
  rcases h with ⟨key, path, p, hkey, rfl, hp, rfl⟩ | ⟨hentry, hr⟩
  · have hmark : '=' ∈ (key ++ "=" ++ path).toList := by simp
    refine iff_of_true ⟨?_, ?_⟩ (.inl hmark)
    · rw [readFile_append hkey, readFile_append hkey]
    · rw [readFile_append hkey, readFile_append hkey]
      exact location_rebase hp
  · rw [or_iff_right hentry, unmarked_iff hr]
    constructor
    · intro hkeeps hmem
      obtain ⟨key, path, hread⟩ := exists_key_of_mem hmem
      have hkey := hkeeps.key
      rw [hread, readFile_of_not_mem hentry] at hkey
      exact absurd hkey (by simp)
    · intro hmem
      refine ⟨?_, ?_⟩
      · rw [readFile_of_not_mem hentry, readFile_of_not_mem hmem]
      · rw [readFile_of_not_mem hentry, readFile_of_not_mem hmem]
        exact location_rebase hr

end Generator

/-! ## Runs -/

namespace Component

variable {root : Path} {layers : List Layer} {acc acc' : Accumulator} {γ : Type}

/-- The generators `gs` are those that are kept of the entries. Each of their file entries says what
it said in its layer exactly if it had a key there or no name on its way from the root has a `=`. -/
def KeptFiles (kind : GeneratorKind γ) (root : Path) (known : List String)
    (es : List (Path × γ)) (gs : List γ) : Prop :=
  List.Forall₂
    (fun e g => List.Forall₂
      (fun entry r => Generator.KeepsMeaning root e.1 entry r ↔
        '=' ∈ entry.toList ∨ Generator.Unmarked root e.1 entry)
      (kind.shared e.2).files (kind.shared g).files)
    (sift (fun e => (kind.shared e.2).name) (fun e => (kind.shared e.2).behavior != .create) known
      es) gs

theorem KeptGenerators.keptFiles {kind : GeneratorKind γ} (hkind : kind.Lawful)
    {known : List String} {es : List (Path × γ)} {gs : List γ}
    (h : KeptGenerators kind root known es gs) : KeptFiles kind root known es gs := by
  refine h.imp fun e g hg => ?_
  obtain ⟨g', hg', rfl⟩ := hg
  rw [hkind]
  exact hg'.files.imp fun _ _ => Generator.keepsMeaning_iff

/-- What a run makes of the file entries of generators. -/
structure FilesFolded (root : Path) (layers : List Layer) (acc acc' : Accumulator) : Prop where
  configMaps : ∃ gs, acc'.fragment.configMaps = acc.fragment.configMaps ++ gs ∧
    KeptFiles .configMap root (acc.ledger.seen .configMaps) (entries (·.configMaps) layers) gs
  secrets : ∃ gs, acc'.fragment.secrets = acc.fragment.secrets ++ gs ∧
    KeptFiles .secret root (acc.ledger.seen .secrets) (entries (·.secrets) layers) gs

theorem foldLayers_files (h : foldLayers root layers acc = .ok acc') :
    FilesFolded root layers acc acc' := by
  obtain ⟨-, hrun⟩ := run_of_foldLayers h
  constructor
  case configMaps =>
    obtain ⟨gs, hgs, hvalue⟩ := keptGenerators_of_run Field.grows_configMaps (hrun .configMaps)
    exact ⟨gs, hvalue, hgs.keptFiles GeneratorKind.lawful_configMap⟩
  case secrets =>
    obtain ⟨gs, hgs, hvalue⟩ := keptGenerators_of_run Field.grows_secrets (hrun .secrets)
    exact ⟨gs, hvalue, hgs.keptFiles GeneratorKind.lawful_secret⟩

/-- From a directory with a `=` in its name, an entry with a key says the same, and so does one that
leads out of the directory. -/
theorem foldLayers_files_of_marked_dir :
    let layers : List Layer := [⟨.ofString "app/a=x",
      { bases := some []
        configMaps := [{ name := "c", behavior := .create, files := ["k=b", "../y", "b"] }]
        secrets := [{ name := "s", files := ["k=b"] }] }⟩]
    ∃ acc, foldLayers (.ofString "app") layers .blank = .ok acc ∧
      acc.fragment.configMaps =
        [{ name := "c", behavior := .create, files := ["k=a=x/b", "y", "a=x/b"] }] ∧
      acc.fragment.secrets = [{ name := "s", files := ["k=a=x/b"] }] ∧
      FilesFolded (.ofString "app") layers .blank acc := by
  intro layers
  have hrun : (foldLayers (.ofString "app") layers .blank).map
      (fun acc => (acc.fragment.configMaps, acc.fragment.secrets)) =
        .ok ([{ name := "c", behavior := .create, files := ["k=a=x/b", "y", "a=x/b"] }],
          [{ name := "s", files := ["k=a=x/b"] }]) := by decide +kernel
  obtain ⟨acc, hacc, hvalues⟩ := map_eq_ok_iff.1 hrun
  rw [Prod.mk.injEq] at hvalues
  exact ⟨acc, hacc, hvalues.1, hvalues.2, foldLayers_files hacc⟩

/-- The entry `b` of that directory is read with the key `a`, and with a path to another place. -/
theorem foldLayers_reads_directory_as_key :
    let layers : List Layer := [⟨.ofString "app/a=x",
      { bases := some [], configMaps := [{ name := "c", files := ["b"] }] }⟩]
    (∃ acc, foldLayers (.ofString "app") layers .blank = .ok acc ∧
      acc.fragment.configMaps = [{ name := "c", files := ["a=x/b"] }]) ∧
    Generator.readFile "b" = (none, "b") ∧
    Generator.readFile "a=x/b" = (some "a", "x/b") ∧
    (Path.ofString "app" / .ofString "x/b").location ≠
      (Path.ofString "app/a=x" / .ofString "b").location ∧
    ¬ Generator.KeepsMeaning (.ofString "app") (.ofString "app/a=x") "b" "a=x/b" := by
  intro layers
  have hrun : (foldLayers (.ofString "app") layers .blank).map (·.fragment.configMaps) =
      .ok [{ name := "c", files := ["a=x/b"] }] := by decide +kernel
  obtain ⟨acc, hacc, hmaps⟩ := map_eq_ok_iff.1 hrun
  have hbefore : Generator.readFile "b" = (none, "b") := by decide
  have hafter : Generator.readFile "a=x/b" = (some "a", "x/b") := by decide
  refine ⟨⟨acc, hacc, hmaps⟩, hbefore, hafter, by decide, fun h => ?_⟩
  have hkey := h.key
  rw [hbefore, hafter] at hkey
  exact absurd hkey (by simp)

end Component
end LayeredConfig
