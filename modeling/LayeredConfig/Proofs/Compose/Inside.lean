/-
Which files composing a component changes outside of it.

The files of the base, of the overlays with plain names, and of targets without slashes are below the
component. A name with slashes or dots is put into a path as it stands, and the file that it leads to
is written wherever it is (`exists_path_of_changed`, `compose_writes_outside`).
-/
import LayeredConfig.Proofs.Compose.Course
import LayeredConfig.Proofs.FileTree.Lexical

namespace LayeredConfig
namespace Component

variable {t : FileTree} {component : Path} {overlays : List String} {loc : Location}

/-! ## Paths below the component -/

theorem inside_baseDir (component : Path) : component.Inside (baseDir component) :=
  (Path.inside_refl component).join_name (by decide)

theorem inside_overlayDir {overlay : String}
    (h : (Path.Part.name (Name.ofString overlay)).Lasting) :
    component.Inside (overlayDir component overlay) :=
  ((Path.inside_refl component).join_name (by decide)).join_name h

theorem below_file {dir : Path} (h : component.Inside dir) : component.Below (Parameters.file dir) :=
  .of_inside h (by decide)

theorem below_fragment (component : Path) : component.Below (Fragment.file component) :=
  .of_inside (Path.inside_refl component) (by decide)

/-- The combined files of a target. -/
def combinedFile (component : Path) (target : PatchTarget) (n : Nat) : Path :=
  component / .ofString (PatchGroup.candidate (PatchGroup.stem ⟨target, ""⟩) n)

theorem below_combinedFile {target : PatchTarget} (hname : '/' ∉ target.name.toList)
    (hkind : '/' ∉ target.kind.toList) (n : Nat) :
    component.Below (combinedFile component target n) :=
  .of_inside (Path.inside_refl component)
    (PatchGroup.lasting_candidate (PatchGroup.slash_not_mem_stem hname hkind) n)

/-! ## What is changed -/

/-- A file that need not be below the component: its path is made from a name that is no name of a
directory entry. -/
inductive Stray (t : FileTree) (component : Path) (overlays : List String) : Path → Prop where
  | parameters {overlay : String} (hoverlay : overlay ∈ overlays)
    (hname : ¬ (Path.Part.name (Name.ofString overlay)).Lasting)
    (hout : ¬ component.Inside (overlayDir component overlay)) :
    Stray t component overlays (Parameters.file (overlayDir component overlay))
  | combined {layer : Layer} {p : JsonPatch} (hlayer : layer ∈ layersIn t component overlays)
    (hp : p ∈ layer.fragment.jsonPatches)
    (hslash : '/' ∈ p.target.name.toList ∨ '/' ∈ p.target.kind.toList) (n : Nat) :
    Stray t component overlays (combinedFile component p.target n)

variable {draws : Parameters.Draws} {d : Deployment} {parameters : List Parameter}

/-- Whatever composing changes, whether it succeeds or not, is below the component or a stray file. -/
theorem exists_path_of_changed
    (h : ((compose draws d component overlays parameters).after t).get? loc ≠ t.get? loc) :
    ∃ p, t.find p = .ok loc ∧ (component.Below p ∨ Stray t component overlays p) := by
  by_contra hnone
  refine h ((after_compose draws d component overlays parameters t).unchanged fun hplace => ?_)
  refine hnone ?_
  rcases hplace with (⟨layer, hlayer, hfind⟩ | ⟨hlayer, p, hp, n, hfind⟩) | hfind
  · refine ⟨_, hfind, ?_⟩
    obtain ⟨hdir | ⟨overlay, hoverlay, hdir⟩, -⟩ := mem_layersIn hlayer
    · rw [hdir]
      exact .inl (below_file (inside_baseDir component))
    · rw [hdir]
      by_cases hin : component.Inside (overlayDir component overlay)
      · exact .inl (below_file hin)
      · exact .inr (.parameters hoverlay (mt inside_overlayDir hin) hin)
  · refine ⟨_, hfind, ?_⟩
    by_cases hslash : '/' ∈ p.target.name.toList ∨ '/' ∈ p.target.kind.toList
    · exact .inr (.combined hlayer hp hslash n)
    · obtain ⟨hname, hkind⟩ := not_or.1 hslash
      exact .inl (below_combinedFile hname hkind n)
  · exact ⟨_, hfind, .inl (below_fragment component)⟩

/-- A run that changes a parameter file and the fragment. -/
theorem exists_path_of_changed_of_overlay :
    ∃ t : FileTree,
      t = ⟨[([.ofString "app"], .directory),
        ([.ofString "app", .ofString "base"], .directory),
        ([.ofString "app", .ofString "base", .ofString "kustomization.yaml"], .file (.text "{}")),
        ([.ofString "app", .ofString "overlays"], .directory),
        ([.ofString "app", .ofString "overlays", .ofString "x"], .directory),
        ([.ofString "app", .ofString "overlays", .ofString "x", .ofString "kustomization.yaml"],
          .file (.text "bases: [../../base]\n")),
        ([.ofString "app", .ofString "overlays", .ofString "x", .ofString "params.env"],
          .file (.text "a=1"))], [], []⟩ ∧
      ((compose (fun _ _ => 0) {} (.ofString "app") ["x"] [⟨"a", "2"⟩]).after t).get?
          [.ofString "app", .ofString "overlays", .ofString "x", .ofString "params.env"] ≠
        t.get? [.ofString "app", .ofString "overlays", .ofString "x", .ofString "params.env"] ∧
      ∃ p, t.find p =
          .ok [.ofString "app", .ofString "overlays", .ofString "x", .ofString "params.env"] ∧
        ((Path.ofString "app").Below p ∨ Stray t (.ofString "app") ["x"] p) := by
  refine ⟨_, rfl, ?hchanged, exists_path_of_changed ?hchanged⟩
  decide +kernel

/-! ## Files outside -/

theorem head?_of_below {p : Path} {n : Name} (ht : t.home = [])
    (hcomponent : component.location = [.name n]) (h : component.Below p)
    (hfind : t.find p = .ok loc) : loc.head? = some n := by
  obtain ⟨names, -, rfl⟩ := FileTree.exists_find_eq_of_below h hfind
  rw [hcomponent, ht]
  rfl

/-- An overlay may be named by a way out of the component, and a combined file is written where the
name of its target says. -/
theorem compose_writes_outside :
    (∃ t : FileTree,
      t = ⟨[([.ofString "app"], .directory),
        ([.ofString "app", .ofString "base"], .directory),
        ([.ofString "app", .ofString "base", .ofString "kustomization.yaml"], .file (.text "{}")),
        ([.ofString "app", .ofString "overlays"], .directory),
        ([.ofString "other"], .directory),
        ([.ofString "other", .ofString "kustomization.yaml"], .file (.text "{}")),
        ([.ofString "other", .ofString "params.env"], .file (.text "a=1"))], [], []⟩ ∧
      ((compose (fun _ _ => 0) {} (.ofString "app") ["../../other"] [⟨"a", "2"⟩]).after t).get?
        [.ofString "other", .ofString "params.env"] = some (.file (.text "a=2\n")) ∧
      ∀ p, (Path.ofString "app").Below p →
        t.find p ≠ .ok [.ofString "other", .ofString "params.env"]) ∧
    (∃ t : FileTree,
      t = ⟨[([.ofString "app"], .directory),
        ([.ofString "app", .ofString "base"], .directory),
        ([.ofString "app", .ofString "base", .ofString "kustomization.yaml"],
          .file (.text ("bases: []\npatchesJson6902:\n" ++
            "- path: p\n  target:\n    kind: K\n    name: ../evil\n")))], [], []⟩ ∧
      ((compose (fun _ _ => 0) {} (.ofString "app") [] []).answer t).toOption =
        some (.composed (.ofString "app/kustomization.yaml")) ∧
      ((compose (fun _ _ => 0) {} (.ofString "app") [] []).after t).get? [.ofString "evil-K.yaml"] =
        some (.file (.text "")) ∧
      t.get? [.ofString "evil-K.yaml"] = none ∧
      ∀ p, (Path.ofString "app").Below p → t.find p ≠ .ok [.ofString "evil-K.yaml"]) := by
  have happ : (Path.ofString "app").location = [.name (.ofString "app")] := rfl
  suffices h : _ ∧ _ ∧ _ ∧ _ from
    ⟨⟨_, rfl, h.1, fun p hp hfind => absurd (head?_of_below rfl happ hp hfind) (by decide)⟩,
      ⟨_, rfl, h.2.1, h.2.2.1, h.2.2.2, fun p hp hfind =>
        absurd (head?_of_below rfl happ hp hfind) (by decide)⟩⟩
  decide +kernel

end Component
end LayeredConfig
