/-
Whether the paths of a result stay below its directory.

They do if the directory is anchored, and there is a layer with a path that does not if it is not:
what decides is the root alone. File entries of generators ask for more, since an entry without a
key may be read with one; what decides there is which directories the layers come from.
`Component.contained_iff_anchored` puts both together with what they rest on, a single rebased
value.
-/
import LayeredConfig.Proofs.Fold.FileEntry
import LayeredConfig.Proofs.Fold.Provenance

namespace LayeredConfig
namespace Component

open Generator (readFile SafeDir)

/-- Every path of the fragment is relative and never goes up. -/
def PathsContained (f : Fragment) : Prop := ∀ p ∈ f.paths, (Path.ofString p).Contained

/-- The path of every file entry is relative and never goes up. -/
def FilesContained (f : Fragment) : Prop :=
  ∀ entry ∈ f.fileEntries, (Path.ofString (readFile entry).2).Contained

variable {root : Path} {layers : List Layer} {acc : Accumulator}

/-! ## Anchored roots -/

theorem pathsContained_of_anchored (ha : root.Anchored)
    (h : foldLayers root layers .blank = .ok acc) : PathsContained acc.fragment := by
  intro p hp
  obtain ⟨layer, -, value, hvalue⟩ := (fromLayers_of_foldLayers h).1 p hp
  exact Path.contained_of_anchored ha hvalue

theorem filesContained_of_safeDir (ha : root.Anchored)
    (hs : ∀ layer ∈ layers, SafeDir root layer.dir)
    (h : foldLayers root layers .blank = .ok acc) : FilesContained acc.fragment := by
  intro entry hentry
  obtain ⟨layer, hlayer, field, file, hfile⟩ := (fromLayers_of_foldLayers h).2 entry hentry
  by_cases hkey : '=' ∈ file.toList
  · obtain ⟨key, path, hread⟩ := Generator.exists_key_of_mem hkey
    rw [Generator.rebaseFile_of_key hread] at hfile
    obtain ⟨r, hr, rfl⟩ := map_eq_ok_iff.1 hfile
    rw [Generator.readFile_append (Generator.eq_of_readFile hread).2]
    exact Path.contained_of_anchored ha (Site.rebase_eq_ok_iff.1 hr)
  · rw [Generator.rebaseFile_of_not_mem hkey] at hfile
    exact Generator.contained_readFile ha (hs layer hlayer) hkey (Site.rebase_eq_ok_iff.1 hfile)

/-! ## Layers that leave the root -/

theorem exists_path_outside (h : ¬ root.Anchored) :
    ∃ layers acc, foldLayers root layers .blank = .ok acc ∧ ¬ PathsContained acc.fragment := by
  have hup : Accepted.rebasePath .resources ((⟨root, root⟩ : Site), "..") = .ok ".." :=
    Site.rebase_eq_ok_iff.2 (Path.rebase_dotDot h)
  have hfold : Field.fold ⟨root, root⟩ .resources [".."] (Accumulator.blank.cell .resources) =
      .ok ((Accumulator.blank.cell .resources).take [".."] [".."]) := by
    have hmap : List.mapM (Accepted.rebasePath .resources) [((⟨root, root⟩ : Site), "..")] =
        .ok [".."] := by
      rw [mapM_ok_cons hup]
      rfl
    show (Accepted.paths .resources [] [((⟨root, root⟩ : Site), "..")]).map _ = _
    unfold Accepted.paths
    rw [hmap]
    rfl
  obtain ⟨acc, hacc, hcell⟩ := exists_foldLayers root root rfl rfl hfold
  refine ⟨_, acc, hacc, fun hc => ?_⟩
  have hresources : acc.fragment.resources = [".."] := congrArg Cell.value hcell
  refine Path.not_contained_dotDot (hc ".." ?_)
  simp [Fragment.paths, hresources]

theorem exists_file_outside {dir : Path} (ha : root.Anchored) (hs : ¬ SafeDir root dir) :
    ∃ layer acc, layer.dir = dir ∧ foldLayers root [layer] .blank = .ok acc ∧
      ¬ FilesContained acc.fragment := by
  obtain ⟨value, r, hvalue, hr, hout⟩ := Generator.exists_escape_of_not_safeDir ha hs
  have hfile : Generator.rebaseFile ⟨root, dir⟩ .configMaps value = .ok r := by
    rw [Generator.rebaseFile_of_not_mem hvalue]
    exact Site.rebase_eq_ok_iff.2 hr
  have hfold : Field.fold ⟨root, dir⟩ .configMaps [{ files := [value] }]
      (Accumulator.blank.cell .configMaps) =
        .ok ((Accumulator.blank.cell .configMaps).take [""] [{ files := [r] }]) := by
    have hfiles : List.mapM (Generator.rebaseFile ⟨root, dir⟩ .configMaps) [value] = .ok [r] := by
      rw [mapM_ok_cons hfile]
      rfl
    have hrebase : Generator.rebase ⟨root, dir⟩ .configMaps { files := [value] } =
        .ok { files := [r] } :=
      Generator.rebase_eq_ok_iff.2 ⟨none, [], [r], rfl, rfl, hfiles, rfl⟩
    have hg : Accepted.rebaseGenerator .configMap .configMaps
        ((⟨root, dir⟩ : Site), { files := [value] }) = .ok { files := [r] } :=
      map_eq_ok_iff.2 ⟨_, hrebase, rfl⟩
    have hmap : List.mapM (Accepted.rebaseGenerator .configMap .configMaps)
        [((⟨root, dir⟩ : Site), { files := [value] })] = .ok [{ files := [r] }] := by
      rw [mapM_ok_cons hg]
      rfl
    show (Accepted.generators .configMap .configMaps []
      [((⟨root, dir⟩ : Site), { files := [value] })]).map _ = _
    unfold Accepted.generators
    rw [show Accepted.keptGenerators .configMap [] [((⟨root, dir⟩ : Site), { files := [value] })] =
      [(⟨root, dir⟩, { files := [value] })] from rfl, hmap]
    rfl
  obtain ⟨acc, hacc, hcell⟩ := exists_foldLayers root dir rfl rfl hfold
  refine ⟨_, acc, rfl, hacc, fun hc => hout (hc r ?_)⟩
  have hmaps : acc.fragment.configMaps = [{ files := [r] }] := congrArg Cell.value hcell
  simp [Fragment.fileEntries, Fragment.generators, hmaps]

/-! ## What decides -/

/-- What is rebased stays below the root, and what is outside is refused, exactly if the root is
anchored. Then the directories of the layers decide on the file entries. -/
theorem contained_iff_anchored (root : Path) :
    (root.Anchored ↔
      ∀ dir value r, root.rebase dir value = .ok r → (Path.ofString r).Contained) ∧
    (root.Anchored ↔ ∀ dir value,
      root.rebase dir value =
          .error (.outsideRoot (dir / .ofString value).normalize root.normalize) ↔
        ¬ root.Inside (dir / .ofString value)) ∧
    (root.Anchored ↔
      ∀ layers acc, foldLayers root layers .blank = .ok acc → PathsContained acc.fragment) ∧
    (root.Anchored → ∀ dirs : Path → Prop,
      (∀ dir, dirs dir → SafeDir root dir) ↔
        ∀ layers acc, (∀ layer ∈ layers, dirs layer.dir) →
          foldLayers root layers .blank = .ok acc → FilesContained acc.fragment) := by
  refine ⟨Path.anchored_iff_contained, Path.anchored_iff_refuses, ⟨?_, ?_⟩, ?_⟩
  · intro ha layers acc h
    exact pathsContained_of_anchored ha h
  · intro h
    by_contra hn
    obtain ⟨layers, acc, hacc, hout⟩ := exists_path_outside hn
    exact hout (h layers acc hacc)
  · intro ha dirs
    constructor
    · intro hs layers acc hlayers h
      exact filesContained_of_safeDir ha (fun layer hl => hs _ (hlayers layer hl)) h
    · intro h dir hdir
      by_contra hn
      obtain ⟨layer, acc, rfl, hacc, hout⟩ := exists_file_outside ha hn
      exact hout (h [layer] acc (by simpa using hdir) hacc)

/-- The directory `.` and the empty path are not anchored, and a directory below an anchored root
need not be safe. -/
theorem rebase_leaves_root :
    ((Path.ofString ".").rebase (.ofString ".") "../x" = .ok "../x" ∧
      ¬ (Path.ofString "../x").Contained) ∧
    ((Path.ofString "").rebase (.ofString "") "/etc/passwd" = .ok "//etc/passwd" ∧
      ¬ (Path.ofString "//etc/passwd").Contained) ∧
    (Generator.rebaseFile ⟨.ofString "app", .ofString "app/a=.."⟩ .configMaps "b" =
        .ok "a=../b" ∧
      ¬ (Path.ofString (readFile "a=../b").2).Contained) := by
  refine ⟨⟨by rfl, fun h => h.2 (by decide)⟩, ⟨by rfl, fun h => absurd h.1 (by decide)⟩,
    by cbv, fun h => h.2 (by decide)⟩

end Component
end LayeredConfig
