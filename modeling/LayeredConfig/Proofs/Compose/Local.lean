/-
What a composition depends on, and what it does not.

All that is read and written is below the directory of the component, as long as no name leads out
of it. So the rest of the tree has no part in a composition that succeeds
(`exists_run_compose_alike`), and is not changed by it (`changedAt_within`). The random numbers
decide on nothing but texts (`exists_run_compose_sameKind`).
-/
import LayeredConfig.Proofs.Compose.Aftermath
import LayeredConfig.Proofs.FileTree.Region

namespace LayeredConfig

variable {t t' u : FileTree} {component dir : Path}

namespace Parameters

variable {draws : Draws} {overrides : Dict String} {d : Deployment} {b : Bool}

/-- A parameter file that is read as the same text is filled in the same way. -/
theorem exists_run_fillFile_alike (hd : t.SameDirectories u)
    (hread : u.read (file dir) = t.read (file dir))
    (h : (fillFile draws dir overrides d).run t = .ok b t') :
    ∃ u', (fillFile draws dir overrides d).run u = .ok b u' ∧ FileTree.Alike Eq t t' u u' := by
  rcases run_fillFile_cases draws overrides d t dir with
    ⟨s, v, hs, hwrite, hrun⟩ | ⟨hnone, hrun⟩ | ⟨-, fault, hrun⟩
  · obtain ⟨rfl, rfl⟩ := EStateM.Result.ok.inj (hrun.symm.trans h)
    obtain ⟨u', hwrite'⟩ := FileTree.write_of_sameDirectories hwrite hd
      (fill (draws (file dir)) overrides d s)
    exact ⟨u', run_fillFile_of_read (hread.trans hs) hwrite', .of_write hwrite hwrite' hd rfl⟩
  · obtain ⟨rfl, rfl⟩ := EStateM.Result.ok.inj (hrun.symm.trans h)
    exact ⟨u, run_fillFile_of_notFound (hread.trans hnone), .refl Eq hd⟩
  · exact absurd (hrun.symm.trans h) nofun

end Parameters

namespace Component

open FileTree (AgreeWithin Within)

variable {draws : Parameters.Draws} {d : Deployment} {overlays : List String}
variable {parameters : List Parameter} {layers : List Layer} {base : Layer} {f : Fragment}
variable {loc : Location} {outcome : Outcome}

/-! ## Paths below the component -/

/-- The paths that are made from the component and the overlays go down from the component. -/
structure Enclosed (component : Path) (overlays : List String) : Prop where
  nonempty : component.units ≠ []
  anchored : component.Anchored
  overlay : ∀ overlay ∈ overlays, (Path.Part.name (Name.ofString overlay)).Lasting

namespace Enclosed

theorem join_name {root : Path} {name : String}
    (hname : (Path.Part.name (Name.ofString name)).Lasting)
    (hoverlays : ∀ overlay ∈ overlays, (Path.Part.name (Name.ofString overlay)).Lasting) :
    Enclosed (root / .ofString name) overlays := by
  have hparts : (root / .ofString name).parts = root.parts ++ [.name (Name.ofString name)] :=
    Path.parts_join_name root hname
  have hlocation :
      (root / .ofString name).location = root.location ++ [.name (Name.ofString name)] :=
    Path.location_join_name root hname
  refine ⟨fun hnil => ?_, ⟨.name (Name.ofString name), ?_, by simp⟩, hoverlays⟩
  · have hnone : (root / .ofString name).parts = [] := by
      rw [show root / .ofString name = ⟨[]⟩ from congrArg Path.mk hnil]
      rfl
    exact List.append_ne_nil_of_right_ne_nil _ (by simp) (hparts.symm.trans hnone)
  · rw [hlocation]
    exact List.mem_append_right _ (List.mem_singleton_self _)

variable (h : Enclosed component overlays)
include h

theorem under_dir {layer : Layer} (hlayer : layer ∈ layersIn t component overlays) :
    component.Under layer.dir := by
  rcases (mem_layersIn hlayer).1 with hdir | ⟨overlay, hoverlay, hdir⟩
  · rw [hdir]
    exact (Path.under_refl component).join_name (by decide)
  · rw [hdir]
    exact ((Path.under_refl component).join_name (by decide)).join_name (h.overlay overlay hoverlay)

theorem within_of_early (hslash : PlainTargets (layersIn t component overlays))
    (hplace : EarlyPlace t component (layersIn t component overlays) loc) :
    t.Within component loc := by
  cases hplace with
  | parameters hplace =>
    obtain ⟨layer, hlayer, hfind⟩ := hplace
    exact FileTree.within_of_find ((h.under_dir hlayer).join_name (by decide)) hfind
  | combined hlayer hplace =>
    obtain ⟨p, hp, n, hfind⟩ := hplace
    obtain ⟨hname, hkind⟩ := hslash _ hlayer p hp
    have hlasting := PatchGroup.lasting_candidate
      (PatchGroup.slash_not_mem_stem (g := ⟨p.target, ""⟩) hname hkind) n
    exact FileTree.within_of_find ((Path.under_refl component).join_name hlasting) hfind

/-- Nothing changes outside the component. -/
theorem changedAt_within (hslash : PlainTargets (layersIn t component overlays))
    (draws : Parameters.Draws) (d : Deployment) (parameters : List Parameter) :
    t.ChangedAt (t.Within component)
      ((compose draws d component overlays parameters).after t) := by
  refine (after_compose draws d component overlays parameters t).mono ?_
  rintro loc (hplace | hfind)
  · exact h.within_of_early hslash hplace
  · exact FileTree.within_of_find ((Path.under_refl component).join_name (by decide)) hfind

end Enclosed

/-! ## The same component in two trees -/

theorem exists_walk_of_located {located : Located}
    (h : (locate component overlays).answer t = .ok located) :
    ∃ loc, t.walk component.parts = .ok loc := by
  cases located with
  | final own =>
    obtain ⟨loc, hwalk, -⟩ := exists_walk_of_load (answer_locate_eq_final_iff.1 h).2
    exact ⟨loc, hwalk⟩
  | layered base layers =>
    obtain ⟨f, hload, -, -⟩ := answer_locate_eq_layered_iff.1 h
    obtain ⟨loc, hwalk, -⟩ := exists_walk_of_load hload
    obtain ⟨start, hstart, -, -⟩ := FileTree.walk_join_name (by decide) hwalk
    exact ⟨start, hstart⟩

theorem answer_load_congr (h : u.read (Fragment.file dir) = t.read (Fragment.file dir))
    {f? : Option Fragment} (hload : (load component dir).answer t = .ok f?) :
    (load component dir).answer u = .ok f? := by
  cases f? with
  | none => rwa [answer_load_eq_none_iff, h, ← answer_load_eq_none_iff]
  | some f => rwa [answer_load_eq_some_iff, h, ← answer_load_eq_some_iff]

theorem exists_run_fillLayers_alike (hunder : ∀ layer ∈ layers, component.Under layer.dir)
    (hwalk : ∃ loc, t.walk component.parts = .ok loc) (h : AgreeWithin component t u)
    (hrun : (fillLayers draws d component parameters layers).run t = .ok () t') :
    ∃ u', (fillLayers draws d component parameters layers).run u = .ok () u' ∧
      FileTree.Alike Eq t t' u u' := by
  induction layers generalizing t u with
  | nil =>
    obtain rfl := (EStateM.Result.ok.inj hrun).2
    exact ⟨u, rfl, .refl Eq h.directories⟩
  | cons layer layers ih =>
    obtain ⟨⟨⟩, mid, hfirst, hrest⟩ := Files.run_bind_eq_ok_iff.1 hrun
    obtain ⟨b, hfile⟩ := run_fillLayer_eq_ok_iff.1 hfirst
    obtain ⟨loc, hloc⟩ := hwalk
    have hread := h.read_eq hloc ((hunder layer List.mem_cons_self).join_name
      (by decide : (Path.Part.name (Name.ofString Parameters.fileName)).Lasting))
    obtain ⟨mid', hfile', halike⟩ :=
      Parameters.exists_run_fillFile_alike h.directories hread hfile
    obtain ⟨u', hrest', halike'⟩ := ih
      (fun other hother => hunder other (List.mem_cons_of_mem layer hother))
      ⟨loc, halike.kept.walk_eq_ok_iff.2 hloc⟩ (h.of_alike halike) hrest
    refine ⟨u', Files.run_bind_eq_ok_iff.2 ⟨(), mid', ?_, hrest'⟩, halike.trans halike'⟩
    exact run_fillLayer_eq_ok_iff.2 ⟨b, hfile'⟩

/-- In a tree that agrees within the component it is composed in the same steps. -/
theorem Enclosed.exists_run_compose_alike (he : Enclosed component overlays)
    (h : AgreeWithin component t u)
    (hrun : (compose draws d component overlays parameters).run t = .ok outcome t') :
    layersIn u component overlays = layersIn t component overlays ∧
      ∃ u', (compose draws d component overlays parameters).run u = .ok outcome u' ∧
        FileTree.Alike Eq t t' u u' := by
  have hread {loc : Location} (hloc : t.walk component.parts = .ok loc) {dir : Path}
      (hdir : component.Under dir) :
      u.read (Fragment.file dir) = t.read (Fragment.file dir) :=
    h.read_eq hloc (hdir.join_name (by decide))
  cases run_compose_eq_iff.1 hrun with
  | @final own hlocate =>
    obtain ⟨loc, hloc⟩ := exists_walk_of_located hlocate
    obtain ⟨hbase, hown⟩ := answer_locate_eq_final_iff.1 hlocate
    have hlocate' : (locate component overlays).answer u = .ok (.final own) :=
      answer_locate_eq_final_iff.2
        ⟨answer_load_congr (hread hloc ((Path.under_refl component).join_name (by decide))) hbase,
          answer_load_congr (hread hloc (Path.under_refl component)) hown⟩
    rw [layersIn_of_final hlocate, layersIn_of_final hlocate']
    exact ⟨rfl, u, run_of_course (.final hlocate'), .refl Eq h.directories⟩
  | @composed base layers f f' path filled combined t' hlocate hfill hmerge hcombine hsave =>
    obtain ⟨loc, hloc⟩ := exists_walk_of_located hlocate
    have hunder : ∀ layer ∈ base :: layers, component.Under layer.dir := by
      intro layer hlayer
      rw [← layersIn_of_layered hlocate] at hlayer
      exact he.under_dir hlayer
    have hlocate' := answer_locate_congr hlocate h.directories
      fun layer hlayer => hread hloc (hunder layer hlayer)
    obtain ⟨filled', hfill', halike⟩ := exists_run_fillLayers_alike hunder ⟨loc, hloc⟩ h hfill
    have hfilled : AgreeWithin component filled filled' := h.of_alike halike
    have hpatches : ∀ p ∈ f.jsonPatches, filled'.read (component / .ofString p.path) =
        filled.read (component / .ofString p.path) := by
      intro p hp
      have hcontained := contained_of_merge he.anchored hmerge hp
      exact hfilled.read_eq (halike.kept.walk_eq_ok_iff.2 hloc)
        (Path.under_join_contained he.nonempty hcontained)
    obtain ⟨combined', u', hcombine', hsave', halike', -⟩ :=
      exists_save_alike .eq halike.directories (PatchGroup.contributing_of_read .eq hpatches)
        hcombine hsave
    rw [layersIn_of_layered hlocate, layersIn_of_layered hlocate']
    exact ⟨rfl, u', run_of_course (.composed hlocate' hfill' hmerge hcombine' hsave'),
      halike.trans halike'⟩

/-- With other random numbers the same files are written, with other texts. -/
theorem exists_run_compose_sameKind (draws' : Parameters.Draws)
    (hrun : (compose draws d component overlays parameters).run t = .ok outcome t') :
    ∃ t'', (compose draws' d component overlays parameters).run t = .ok outcome t'' ∧
      t'.SameKind t'' := by
  cases run_compose_eq_iff.1 hrun with
  | final hlocate => exact ⟨t, run_of_course (.final hlocate), .refl t⟩
  | @composed base layers f f' path filled combined t' hlocate hfill hmerge hcombine hsave =>
    have hfill' : ∃ filled', (fillLayers draws' d component parameters (base :: layers)).run t =
      .ok () filled' := exists_run_fillLayers_iff.2 (exists_run_fillLayers_iff.1 ⟨filled, hfill⟩)
    obtain ⟨filled', hfill'⟩ := hfill'
    have hkind : filled.SameKind filled' :=
      (sameKind_of_run_fillLayers hfill).symm.trans (sameKind_of_run_fillLayers hfill')
    obtain ⟨combined', t'', hcombine', hsave', halike, -⟩ :=
      exists_save_alike .true hkind.directories
        (PatchGroup.contributing_of_sameKind hkind component f.jsonPatches) hcombine hsave
    exact ⟨t'', run_of_course (.composed hlocate hfill' hmerge hcombine' hsave'),
      halike.sameKind hkind⟩

end Component
end LayeredConfig
