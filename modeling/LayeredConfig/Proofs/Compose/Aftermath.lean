/-
What composing leaves behind, by how it ends.

Nothing is written before all fragments are read, and no combined file before all patch files are. So
a composition that fails early has changed nothing or parameter files only, and whenever it fails
the fragment of the component is what it was (`leaves_compose`). The combined files are kept apart
from that fragment by their names, as long as no slash gets into these.
-/
import LayeredConfig.Proofs.Aggregate.Combined
import LayeredConfig.Proofs.Compose.Course

namespace LayeredConfig

/-- No patch of the layers has a target with a slash in its name or kind. -/
def PlainTargets (layers : List Layer) : Prop :=
  ∀ layer ∈ layers, ∀ p ∈ layer.fragment.jsonPatches,
    '/' ∉ p.target.name.toList ∧ '/' ∉ p.target.kind.toList

instance (layers : List Layer) : Decidable (PlainTargets layers) :=
  inferInstanceAs (Decidable (∀ layer ∈ layers, ∀ p ∈ layer.fragment.jsonPatches,
    '/' ∉ p.target.name.toList ∧ '/' ∉ p.target.kind.toList))

namespace FileTree

/-- The path leads to the same place, where the same is. -/
def Unaltered (t t' : FileTree) (p : Path) : Prop :=
  ∀ loc, (t'.find p = .ok loc ↔ t.find p = .ok loc) ∧
    (t.find p = .ok loc → t'.get? loc = t.get? loc)

theorem ChangedAt.unaltered {P : Location → Prop} {t t' : FileTree} {p : Path}
    (h : t.ChangedAt P t') (hp : ∀ loc, P loc → t.find p ≠ .ok loc) : t.Unaltered t' p := by
  refine fun loc => ⟨h.directories.find_eq_ok_iff, fun hfind => h.unchanged fun hloc => ?_⟩
  exact hp loc hloc hfind

end FileTree

/-- The error is of a kind that arises before the first combined file is written. -/
def ComposeError.BeforeCombining : ComposeError → Prop
  | .locate _ _ | .parameters _ _ | .fold _ _ | .aggregate _ (.notRead _ _) => True
  | .aggregate _ (.notWritten _ _) | .save _ _ => False

namespace Component

variable {t t' : FileTree} {component : Path} {layers : List Layer} {loc : Location}

/-! ## Files with other names -/

theorem ParameterPlace.find_fragment_ne (h : ParameterPlace t layers loc) (dir : Path) :
    t.find (Fragment.file dir) ≠ .ok loc := by
  obtain ⟨layer, -, hfind⟩ := h
  intro hfile
  exact absurd (FileTree.find_join_name_inj (by decide) (by decide) hfind hfile) (by decide)

theorem find_fragment_ne_of_combinedPlace {f : Fragment}
    (hslash : ∀ p ∈ f.jsonPatches, '/' ∉ p.target.name.toList ∧ '/' ∉ p.target.kind.toList)
    (h : f.CombinedPlace t component loc) (dir : Path) : t.find (Fragment.file dir) ≠ .ok loc := by
  obtain ⟨p, hp, n, hfind⟩ := h
  obtain ⟨hname, hkind⟩ := hslash p hp
  have hstem := PatchGroup.slash_not_mem_stem (g := ⟨p.target, ""⟩) hname hkind
  intro hfile
  have heq := FileTree.find_join_name_inj (PatchGroup.lasting_candidate hstem n) (by decide)
    hfind hfile
  -- There is a hyphen between the name and the kind.
  have hhyphen := PatchGroup.hyphen_mem_candidate ⟨p.target, ""⟩ n
  rw [Name.ofString_injective heq] at hhyphen
  exact absurd hhyphen (by decide)

/-! ## Every end -/

/-- What a composition that starts from `t` leaves behind. -/
structure Leaves (d : Deployment) (component : Path) (overlays : List String)
    (parameters : List Parameter) (t : FileTree) (r : EStateM.Result ComposeError FileTree Outcome) :
    Prop where
  final : ∀ t', r = .ok .final t' → t' = t
  unlocated : ∀ c cause t', r = .error (.locate c cause) t' → t' = t
  early : ∀ e t', r = .error e t' → e.BeforeCombining →
    t.ChangedAt (ParameterPlace t (layersIn t component overlays)) t'
  failed : ∀ e t', r = .error e t' → t.Unaltered t' (Fragment.file component) ∧
    t.ChangedAt (EarlyPlace t component (layersIn t component overlays)) t'
  composed : ∀ path t', r = .ok (.composed path) t' → path = Fragment.file component ∧
    ∃ base layers, ∃ f f' : Fragment, ∃ s,
      (locate component overlays).answer t = .ok (.layered base layers) ∧
      merge d component base layers parameters = .ok f ∧
      f' = { f with jsonPatches := f'.jsonPatches } ∧ f'.print = .ok s ∧
      t'.read path = .ok s ∧
      t.ChangedAt (fun loc => ParameterPlace t (base :: layers) loc ∨
        (∃ p ∈ f'.jsonPatches, t.find (component / .ofString p.path) = .ok loc) ∨
        t.find path = .ok loc) t'

variable {draws : Parameters.Draws} {d : Deployment} {overlays : List String}
variable {parameters : List Parameter} {base : Layer} {f f' : Fragment}
variable {filled combined : FileTree} {e : ComposeError}

/-- The fragment is elsewhere than all that has been written before it. -/
theorem EarlyPlace.find_fragment_ne (hslash : PlainTargets layers)
    (h : EarlyPlace t component layers loc) (dir : Path) :
    t.find (Fragment.file dir) ≠ .ok loc := by
  cases h with
  | parameters h => exact h.find_fragment_ne dir
  | combined hlayer h => exact find_fragment_ne_of_combinedPlace (hslash _ hlayer) h dir

theorem changedAt_of_combine (hslash : PlainTargets (base :: layers))
    (hmerge : merge d component base layers parameters = .ok f) (hd : t.SameDirectories filled)
    (hcombine : (f.aggregate component).run filled = .ok f' combined) :
    filled.ChangedAt (fun loc => ∃ p ∈ f'.jsonPatches,
      t.find (component / .ofString p.path) = .ok loc) combined := by
  obtain ⟨groups, patches, hcollect, hwrite, rfl⟩ := Fragment.run_aggregate_eq_ok_iff.1 hcombine
  have hstems : ∀ g ∈ groups, '/' ∉ g.stem.toList := by
    intro g hg
    obtain ⟨p, hp, htarget⟩ := PatchGroup.exists_target_of_mem_collect hcollect hg
    obtain ⟨layer, hlayer, q, hq, htarget'⟩ := exists_target_of_merge hmerge hp
    have hq := hslash layer hlayer q hq
    rw [htarget', htarget] at hq
    exact PatchGroup.slash_not_mem_stem hq.1 hq.2
  have hwritten := PatchGroup.written_of_writeAll hstems hwrite
  refine (Fragment.changedAt_of_run_aggregate hcombine).restrict fun loc hloc => ?_
  refine hwritten.unchanged loc fun p hp hfind => ?_
  exact hloc ⟨p, hp, hd.find_eq_ok_iff.1 hfind⟩

theorem earlyPlace_of_combine (hmerge : merge d component base layers parameters = .ok f)
    (hfilled : t.ChangedAt (ParameterPlace t (base :: layers)) filled)
    (hafter : (f.aggregate component).after filled = t') :
    t.ChangedAt (EarlyPlace t component (base :: layers)) t' := by
  have hcombined := Fragment.after_aggregate component f filled
  rw [hafter] at hcombined
  exact (hfilled.mono fun _ => .parameters).trans
    (hcombined.mono fun _ => .of_merge hmerge hfilled.directories)

theorem Leaves.of_error (hslash : PlainTargets (layersIn t component overlays))
    (hunlocated : ∀ c cause, e = .locate c cause → t' = t)
    (hearly : e.BeforeCombining → t.ChangedAt (ParameterPlace t (layersIn t component overlays)) t')
    (h : t.ChangedAt (EarlyPlace t component (layersIn t component overlays)) t') :
    Leaves d component overlays parameters t (.error e t') where
  final _ hr := nomatch hr
  unlocated c cause t'' hr := by
    obtain ⟨rfl, rfl⟩ := EStateM.Result.error.inj hr
    exact hunlocated c cause rfl
  early e' t'' hr he := by
    obtain ⟨rfl, rfl⟩ := EStateM.Result.error.inj hr
    exact hearly he
  failed e' t'' hr := by
    obtain ⟨rfl, rfl⟩ := EStateM.Result.error.inj hr
    exact ⟨h.unaltered fun loc hloc => hloc.find_fragment_ne hslash component, h⟩
  composed _ _ hr := nomatch hr

/-- A failure that leaves only parameters changed. -/
theorem Leaves.of_parameters (hslash : PlainTargets (layersIn t component overlays))
    (hunlocated : ∀ c cause, e ≠ .locate c cause)
    (h : t.ChangedAt (ParameterPlace t (layersIn t component overlays)) t') :
    Leaves d component overlays parameters t (.error e t') :=
  .of_error hslash (fun c cause he => absurd he (hunlocated c cause)) (fun _ => h)
    (h.mono fun _ => .parameters)

/-- A composition that fails early has changed at most parameter files, and one that fails has not
changed the fragment of the component. One that succeeds has changed nothing but parameter files, the
files of the combined patches, and that fragment. -/
theorem leaves_compose (hslash : PlainTargets (layersIn t component overlays)) :
    Leaves d component overlays parameters t
      ((compose draws d component overlays parameters).run t) := by
  generalize hr : (compose draws d component overlays parameters).run t = r
  cases run_compose_eq_iff.1 hr with
  | unlocated hlocate =>
    exact .of_error hslash (fun _ _ _ => rfl) (fun _ => .refl _ t) (.refl _ t)
  | final hlocate =>
    exact ⟨fun _ h => (EStateM.Result.ok.inj h).2.symm, nofun, nofun, nofun, nofun⟩
  | @unfilled base layers e t' hlocate hfail =>
    have hchanged := (after_fillLayers draws d component parameters (base :: layers) t).2
    rw [Files.after_of_run_error hfail, ← layersIn_of_layered hlocate] at hchanged
    obtain ⟨fault, rfl⟩ := parameters_of_run_fillLayers hfail
    exact .of_parameters hslash nofun hchanged
  | @unfolded base layers e t' hlocate hfill hmerge =>
    have hchanged := changedAt_of_run_fillLayers hfill
    rw [← layersIn_of_layered hlocate] at hchanged
    obtain ⟨dir, cause, rfl⟩ := fold_of_merge hmerge
    exact .of_parameters hslash nofun hchanged
  | @uncombined base layers f e filled t' hlocate hfill hmerge hcombine =>
    have hchanged := changedAt_of_run_fillLayers hfill
    have hearly := earlyPlace_of_combine hmerge hchanged (Files.after_of_run_error hcombine)
    rw [← layersIn_of_layered hlocate] at hchanged hearly
    rcases Fragment.run_aggregate_eq_error_iff.1 hcombine with
      ⟨hcollect, rfl⟩ | ⟨groups, hcollect, hwrite⟩
    · exact .of_parameters hslash nofun hchanged
    · obtain ⟨path, cause, rfl⟩ := PatchGroup.notWritten_of_run_writeAll hwrite
      exact .of_error hslash nofun nofun hearly
  | @unsaved base layers f f' e filled combined t' hlocate hfill hmerge hcombine hsave =>
    have hchanged := changedAt_of_run_fillLayers hfill
    have hearly := earlyPlace_of_combine hmerge hchanged (Files.after_of_run_ok hcombine)
    rw [← Fragment.eq_of_run_save_eq_error hsave, ← layersIn_of_layered hlocate] at hearly
    exact .of_error hslash nofun nofun hearly
  | @composed base layers f f' path filled combined t' hlocate hfill hmerge hcombine hsave =>
    have hchanged := changedAt_of_run_fillLayers hfill
    rw [layersIn_of_layered hlocate] at hslash
    obtain ⟨rfl, s, hprint, hwrite⟩ := Fragment.run_save_eq_ok_iff.1 hsave
    have hcombined := changedAt_of_combine hslash hmerge hchanged.directories hcombine
    have hdirs := hchanged.directories.trans hcombined.directories
    refine ⟨nofun, nofun, nofun, nofun, fun path t'' h => ?_⟩
    obtain ⟨⟨rfl⟩, rfl⟩ := EStateM.Result.ok.inj h
    refine ⟨rfl, base, layers, f, f', s, hlocate, hmerge, Fragment.eq_of_run_aggregate hcombine,
      hprint, FileTree.read_of_write hwrite, ?_⟩
    refine ((hchanged.mono fun _ => .inl).trans (hcombined.mono fun _ h => .inr (.inl h))).trans ?_
    exact (FileTree.ChangedAt.of_write hwrite).mono fun _ h => .inr (.inr (hdirs.find_eq_ok_iff.1 h))

/-- A combined file cannot be written after a parameter has been filled in. -/
theorem leaves_compose_of_directory :
    ∃ t : FileTree,
      t = ⟨[([.ofString "app"], .directory),
        ([.ofString "app", .ofString "base"], .directory),
        ([.ofString "app", .ofString "base", .ofString "kustomization.yaml"], .file (.text "{}")),
        ([.ofString "app", .ofString "base", .ofString "params.env"], .file (.text "a=1")),
        ([.ofString "app", .ofString "overlays"], .directory),
        ([.ofString "app", .ofString "overlays", .ofString "x"], .directory),
        ([.ofString "app", .ofString "overlays", .ofString "x", .ofString "kustomization.yaml"],
          .file (.text ("bases: [../../base]\npatchesJson6902:\n" ++
            "- path: p\n  target:\n    kind: K\n    name: w\n"))),
        ([.ofString "app", .ofString "w-K.yaml"], .directory)], [], []⟩ ∧
      PlainTargets (layersIn t (.ofString "app") ["x"]) ∧
      ((compose (fun _ _ => 0) {} (.ofString "app") ["x"] [⟨"a", "2"⟩]).answer t).toOption = none ∧
      (((compose (fun _ _ => 0) {} (.ofString "app") ["x"] [⟨"a", "2"⟩]).after t).read
        (.ofString "app/base/params.env")).toOption = some "a=2\n" ∧
      Leaves {} (.ofString "app") ["x"] [⟨"a", "2"⟩] t
        ((compose (fun _ _ => 0) {} (.ofString "app") ["x"] [⟨"a", "2"⟩]).run t) := by
  suffices h : _ ∧ _ ∧ _ from ⟨_, rfl, h.1, h.2.1, h.2.2, leaves_compose h.1⟩
  decide +kernel

end Component
end LayeredConfig
