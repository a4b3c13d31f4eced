/-
Composing a component a second time.

A second run starts from the tree that the first has left. It does the same once more, unless the
first has changed a fragment or a patch file that it has read: then nothing but parameter files can
be different in the end (`compose_twice`). A combined file may be one of the patch files, and grows
with every run (`compose_grows`).
-/
import LayeredConfig.Proofs.Compose.Course

namespace LayeredConfig

namespace FileTree

/-- The paths do not lead to the same place. -/
def Apart (t : FileTree) (p q : Path) : Prop := ∀ loc, t.find p = .ok loc → t.find q ≠ .ok loc

theorem apart_iff {t : FileTree} {p q : Path} :
    t.Apart p q ↔ (t.find p).toOption = none ∨ (t.find p).toOption ≠ (t.find q).toOption := by
  unfold Apart
  cases t.find p with
  | error e => simp [Except.toOption]
  | ok loc => cases t.find q <;> simp [Except.toOption, eq_comm]

theorem Apart.of_sameDirectories {t t' : FileTree} {p q : Path} (h : t.Apart p q)
    (hd : t.SameDirectories t') : t'.Apart p q := by
  intro loc hp hq
  exact h loc (hd.find_eq_ok_iff.1 hp) (hd.find_eq_ok_iff.1 hq)

instance (t : FileTree) (p q : Path) : Decidable (t.Apart p q) := decidable_of_iff' _ apart_iff

end FileTree

namespace Component

/-- The fragment that the layers are folded into, if they are found and can be folded. -/
def foldedIn (t : FileTree) (d : Deployment) (component : Path) (overlays : List String)
    (parameters : List Parameter) : Option Fragment :=
  ((locate component overlays).answer t).toOption.bind fun
    | .final _ => none
    | .layered base layers => (merge d component base layers parameters).toOption

/-- The patch files that are read. -/
def patchFiles (t : FileTree) (d : Deployment) (component : Path) (overlays : List String)
    (parameters : List Parameter) : List Path :=
  ((foldedIn t d component overlays parameters).elim [] (·.jsonPatches)).map
    fun p => component / .ofString p.path

variable {draws draws' : Parameters.Draws} {d : Deployment} {component : Path}
variable {overlays : List String} {parameters : List Parameter} {t t' filled : FileTree}
variable {outcome : Outcome} {base : Layer} {layers : List Layer} {f : Fragment}

theorem foldedIn_of_layered
    (hlocate : (locate component overlays).answer t = .ok (.layered base layers))
    (hmerge : merge d component base layers parameters = .ok f) :
    foldedIn t d component overlays parameters = some f := by
  rw [foldedIn, hlocate]
  show (merge d component base layers parameters).toOption = some f
  rw [hmerge]
  rfl

theorem mem_patchFiles (hlocate : (locate component overlays).answer t = .ok (.layered base layers))
    (hmerge : merge d component base layers parameters = .ok f) {p : JsonPatch}
    (hp : p ∈ f.jsonPatches) :
    component / .ofString p.path ∈ patchFiles t d component overlays parameters := by
  rw [patchFiles, foldedIn_of_layered hlocate hmerge]
  exact List.mem_map_of_mem hp

/-! ## Filling in parameters again -/

theorem exists_run_fillLayers_again {P : Location → Prop} (draws' : Parameters.Draws)
    (hlocate : (locate component overlays).answer t = .ok (.layered base layers))
    (hfill : (fillLayers draws d component parameters (base :: layers)).run t = .ok () filled)
    (hchanged : t.ChangedAt P t') :
    ∃ filled', (fillLayers draws' d component parameters (base :: layers)).run t' =
      .ok () filled' := by
  refine exists_run_fillLayers_iff.2 fun layer hlayer => ?_
  obtain ⟨loc, hwalk, hdir⟩ := exists_walk_of_load (mem_located hlocate hlayer).2
  have hfillable := exists_run_fillLayers_iff.1 ⟨filled, hfill⟩ layer hlayer
  exact hfillable.of_changedAt hchanged hwalk hdir

/-- A file that is apart from the parameter files is read as before they are filled in. -/
theorem read_of_run_fillLayers {p : Path}
    (h : (fillLayers draws d component parameters layers).run t = .ok () t')
    (hp : ∀ layer ∈ layers, t.Apart p (Parameters.file layer.dir)) : t'.read p = t.read p := by
  refine (sameKind_of_run_fillLayers h).read_eq fun loc hfind => ?_
  refine (changedAt_of_run_fillLayers h).unchanged ?_
  rintro ⟨layer, hlayer, hplace⟩
  exact hp layer hlayer loc hfind hplace

theorem read_of_run_fillLayers_again {p : Path} {filled' : FileTree} (hd : t.SameDirectories t')
    (h : (fillLayers draws d component parameters layers).run t = .ok () filled)
    (h' : (fillLayers draws' d component parameters layers).run t' = .ok () filled')
    (hp : ∀ layer ∈ layers, t.Apart p (Parameters.file layer.dir)) (hread : t'.read p = t.read p) :
    filled'.read p = filled.read p :=
  calc filled'.read p
      = t'.read p :=
        read_of_run_fillLayers h' fun layer hlayer => (hp layer hlayer).of_sameDirectories hd
    _ = t.read p := hread
    _ = filled.read p := (read_of_run_fillLayers h hp).symm

/-! ## The second run -/

theorem changedAt_of_run_save {f' : Fragment} {path : Path} {combined : FileTree}
    (hcombine : (f.aggregate component).run filled = .ok f' combined)
    (hsave : (f'.save component).run combined = .ok path t') :
    filled.ChangedAt (fun _ => True) t' := by
  have hcombined := Fragment.changedAt_of_run_aggregate hcombine
  have hsaved := Fragment.after_save component f' combined
  rw [Files.after_of_run_ok hsave] at hsaved
  exact (hcombined.mono fun _ _ => trivial).trans (hsaved.mono fun _ _ => trivial)

/-- A first run from `t` has left `t'`, and a second one `t''`: only parameter files differ. In
particular the fragment that is written and the files of its patches are the same. -/
structure Repeated (d : Deployment) (component : Path) (overlays : List String)
    (parameters : List Parameter) (outcome : Outcome) (t t' t'' : FileTree) : Prop where
  changed : ∀ loc, t''.get? loc ≠ t'.get? loc →
    ParameterPlace t (layersIn t component overlays) loc
  composed : ∀ path, outcome = .composed path →
    ∃ folded f : Fragment, ∃ s, foldedIn t d component overlays parameters = some folded ∧
      f = { folded with jsonPatches := f.jsonPatches } ∧ f.print = .ok s ∧
      t'.read path = .ok s ∧ t''.read path = .ok s ∧
      ∀ p ∈ f.jsonPatches, ∃ c, t'.read (component / .ofString p.path) = .ok c ∧
        t''.read (component / .ofString p.path) = .ok c

/-- A second run from the tree that the first has left succeeds as well, and writes the same files
but for parameter files, if the first has not changed what it has read. -/
theorem compose_twice (draws' : Parameters.Draws)
    (h : (compose draws d component overlays parameters).run t = .ok outcome t')
    (hfragments : ∀ layer ∈ layersIn t component overlays,
      t'.read (Fragment.file layer.dir) = t.read (Fragment.file layer.dir))
    (hpatches : ∀ p ∈ patchFiles t d component overlays parameters, t'.read p = t.read p)
    (hapart : ∀ p ∈ patchFiles t d component overlays parameters,
      ∀ layer ∈ layersIn t component overlays, t.Apart p (Parameters.file layer.dir)) :
    ∃ t'', (compose draws' d component overlays parameters).run t' = .ok outcome t'' ∧
      Repeated d component overlays parameters outcome t t' t'' := by
  cases run_compose_eq_iff.1 h with
  | final hlocate =>
    exact ⟨t, run_of_course (.final hlocate), fun _ hne => absurd rfl hne, nofun⟩
  | @composed base layers f f' path filled combined t' hlocate hfill hmerge hcombine hsave =>
    rw [layersIn_of_layered hlocate] at hfragments hapart
    have hfilled := changedAt_of_run_fillLayers hfill
    have hwritten := changedAt_of_run_save hcombine hsave
    have hdirs := hfilled.directories.trans hwritten.directories
    -- The second run finds the same layers, and their parameter files can still be filled in.
    have hlocate' := answer_locate_congr hlocate hdirs hfragments
    obtain ⟨filled', hfill'⟩ := exists_run_fillLayers_again draws' hlocate hfill
      ((hfilled.mono fun _ _ => trivial).trans hwritten)
    have hfilled' := changedAt_of_run_fillLayers hfill'
    -- It reads the same patches, so it writes the same files.
    have hread : ∀ p ∈ f.jsonPatches, filled'.read (component / .ofString p.path) =
        filled.read (component / .ofString p.path) := by
      intro p hp
      have hmem := mem_patchFiles hlocate hmerge hp
      exact read_of_run_fillLayers_again hdirs hfill hfill' (hapart _ hmem) (hpatches _ hmem)
    obtain ⟨combined', t'', hcombine', hsave', halike, hfiles⟩ :=
      exists_save_alike .eq (hwritten.directories.trans hfilled'.directories)
        (PatchGroup.contributing_of_read .eq hread) hcombine hsave
    refine ⟨t'', run_of_course (.composed hlocate' hfill' hmerge hcombine' hsave'), ?_, ?_⟩
    · intro loc hne
      rw [layersIn_of_layered hlocate]
      by_contra hloc
      refine hne (halike.get?_eq fun ht' _ => ?_)
      rw [hfilled'.unchanged fun hplace => hloc (hplace.of_sameDirectories hdirs), ht']
    · rintro _ ⟨⟩
      obtain ⟨rfl, s, hprint, hwrite⟩ := Fragment.run_save_eq_ok_iff.1 hsave
      obtain ⟨-, s', hprint', hwrite'⟩ := Fragment.run_save_eq_ok_iff.1 hsave'
      obtain rfl : s = s' := Except.ok.inj (hprint.symm.trans hprint')
      refine ⟨f, f', s, foldedIn_of_layered hlocate hmerge, Fragment.eq_of_run_aggregate hcombine,
        hprint, FileTree.read_of_write hwrite, FileTree.read_of_write hwrite', fun p hp => ?_⟩
      obtain ⟨c, c', hc, hc', rfl⟩ := hfiles p hp
      exact ⟨c, hc, hc'⟩

/-- The patch file of an overlay is apart from all that is written, and a name is generated. -/
theorem compose_twice_of_overlay :
    ∃ t t' : FileTree,
      t = ⟨[([.ofString "app"], .directory),
        ([.ofString "app", .ofString "base"], .directory),
        ([.ofString "app", .ofString "base", .ofString "kustomization.yaml"], .file (.text "{}")),
        ([.ofString "app", .ofString "base", .ofString "params.env"],
          .file (.text "generateName=\n")),
        ([.ofString "app", .ofString "overlays"], .directory),
        ([.ofString "app", .ofString "overlays", .ofString "x"], .directory),
        ([.ofString "app", .ofString "overlays", .ofString "x", .ofString "kustomization.yaml"],
          .file (.text ("bases: [../../base]\npatchesJson6902:\n" ++
            "- path: p\n  target:\n    kind: K\n    name: w\n"))),
        ([.ofString "app", .ofString "overlays", .ofString "x", .ofString "p"],
          .file (.text "- a"))], [], []⟩ ∧
      (compose (fun _ _ => 0) {} (.ofString "app") ["x"] [⟨"generateName", "g"⟩]).run t =
        .ok (.composed (.ofString "app/kustomization.yaml")) t' ∧
      t'.read (.ofString "app/w-K.yaml") = .ok "- a\n" ∧
      ∃ t'', (compose (fun _ _ => 1) {} (.ofString "app") ["x"] [⟨"generateName", "g"⟩]).run t' =
          .ok (.composed (.ofString "app/kustomization.yaml")) t'' ∧
        Repeated {} (.ofString "app") ["x"] [⟨"generateName", "g"⟩]
          (.composed (.ofString "app/kustomization.yaml")) t t' t'' := by
  -- Decided together, so that the run is evaluated once.
  suffices h : _ ∧ _ ∧ _ ∧ _ ∧ _ from
    ⟨_, _, rfl, Files.run_eq_ok_iff.2 ⟨h.1, rfl⟩, h.2.1,
      compose_twice _ (Files.run_eq_ok_iff.2 ⟨h.1, rfl⟩) h.2.2.1 h.2.2.2.1 h.2.2.2.2⟩
  decide +kernel

/-- A combined file that is one of its own patch files has its contents twice after the second
run. -/
theorem compose_grows :
    ∃ t t' t'' : FileTree,
      t = ⟨[([.ofString "app"], .directory),
        ([.ofString "app", .ofString "base"], .directory),
        ([.ofString "app", .ofString "base", .ofString "kustomization.yaml"], .file (.text "{}")),
        ([.ofString "app", .ofString "overlays"], .directory),
        ([.ofString "app", .ofString "overlays", .ofString "x"], .directory),
        ([.ofString "app", .ofString "overlays", .ofString "x", .ofString "kustomization.yaml"],
          .file (.text ("bases: [../../base]\npatchesJson6902:\n" ++
            "- path: p\n  target:\n    kind: K\n    name: w\n" ++
            "- path: ../../w-K.yaml\n  target:\n    kind: K\n    name: w\n"))),
        ([.ofString "app", .ofString "overlays", .ofString "x", .ofString "p"],
          .file (.text "- a\n"))], [], []⟩ ∧
      (compose (fun _ _ => 0) {} (.ofString "app") ["x"] []).run t =
        .ok (.composed (.ofString "app/kustomization.yaml")) t' ∧
      (compose (fun _ _ => 0) {} (.ofString "app") ["x"] []).run t' =
        .ok (.composed (.ofString "app/kustomization.yaml")) t'' ∧
      t'.read (.ofString "app/w-K.yaml") = .ok "- a\n" ∧
      t''.read (.ofString "app/w-K.yaml") = .ok "- a\n- a\n" := by
  suffices h : _ ∧ _ ∧ _ ∧ _ from
    ⟨_, _, _, rfl, Files.run_eq_ok_iff.2 ⟨h.1, rfl⟩, Files.run_eq_ok_iff.2 ⟨h.2.1, rfl⟩, h.2.2⟩
  decide +kernel

end Component
end LayeredConfig
