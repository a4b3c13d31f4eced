/-
What becomes of a parameter file when components are composed.

Composing does nothing to it but to fill in values, if at all, once for each layer that has it
(`after_compose_refills`); no other file that is written has its name. So a text that stays when
values are filled in stays, and a parameter file is what filling in has made of it the first time,
however often its directory is listed and its component is composed, unless a name is generated
(`fill_again`).
-/
import LayeredConfig.Proofs.Compose.Course
import LayeredConfig.Proofs.Parameters.Again

namespace LayeredConfig

variable {t t' : FileTree} {dir component : Path} {s : String}
variable {draws draws' : Parameters.Draws} {d : Deployment} {overrides : Dict String}

/-! ## Trees in which one file has been filled in -/

namespace FileTree

open Parameters (Refill)
open Relation (ReflTransGen TransGen)

/-- The text of the file has at most been filled in, any number of times. -/
def Refills (overrides : Dict String) (d : Deployment) (p : Path) (t t' : FileTree) : Prop :=
  ∀ s, t.read p = .ok s → ∃ s', t'.read p = .ok s' ∧ ReflTransGen (Refill overrides d) s s'

namespace Refills

variable {p : Path}

theorem refl (t : FileTree) : t.Refills overrides d p t := fun s hs => ⟨s, hs, .refl⟩

theorem trans {u : FileTree} (h : t.Refills overrides d p t') (h' : t'.Refills overrides d p u) :
    t.Refills overrides d p u := by
  intro s hs
  obtain ⟨s', hs', hfirst⟩ := h s hs
  obtain ⟨s'', hs'', hrest⟩ := h' s' hs'
  exact ⟨s'', hs'', hfirst.trans hrest⟩

/-- A change elsewhere. -/
theorem of_changedAt {P : Location → Prop} (h : t.ChangedAt P t')
    (hp : ∀ loc, P loc → t.find p ≠ .ok loc) : t.Refills overrides d p t' := by
  intro s hs
  have hget : ∀ loc, t.find p = .ok loc → t'.get? loc = t.get? loc := fun loc hfind =>
    h.unchanged fun hloc => hp loc hloc hfind
  exact ⟨s, h.directories.read hget hs, .refl⟩

/-- What filling in makes of the file at `q` is written there. -/
theorem of_write {q : Path} (draws : Nat → UInt32) (hq : t.read q = .ok s)
    (h : t.write q (Parameters.fill draws overrides d s) = .ok t') :
    t.Refills overrides d p t' := by
  intro s₀ hs₀
  obtain ⟨loc, hfind, htext, hname⟩ := read_eq_ok_iff.1 hs₀
  obtain ⟨loc', hfind', htext', -⟩ := read_eq_ok_iff.1 hq
  have hdirs := SameDirectories.of_write h
  by_cases hloc : t.find q = .ok loc
  · -- Both paths lead to the same file.
    obtain rfl : loc' = loc := Except.ok.inj (hfind'.symm.trans hloc)
    obtain rfl : s = s₀ := by simpa using htext'.symm.trans htext
    refine ⟨_, read_eq_ok_iff.2 ⟨loc', hdirs.find hfind, ?_, hname⟩, .single ⟨draws, rfl⟩⟩
    rw [get?_of_write h, if_pos hloc]
  · refine ⟨s₀, read_eq_ok_iff.2 ⟨loc, hdirs.find hfind, ?_, hname⟩, .refl⟩
    rw [get?_of_write_of_ne h hloc, htext]

end Refills

end FileTree

/-! ## Filling in -/

namespace Parameters

open FileTree (Refills)

theorem after_fillFile_refills (draws : Draws) (overrides : Dict String) (d : Deployment)
    (t : FileTree) (dir p : Path) :
    t.Refills overrides d p ((fillFile draws dir overrides d).after t) := by
  rcases run_fillFile_cases draws overrides d t dir with
    ⟨s, t', hs, ht', hrun⟩ | ⟨-, hrun⟩ | ⟨-, fault, hrun⟩
  · rw [Files.after_of_run_ok hrun]
    exact .of_write _ hs ht'
  · rw [Files.after_of_run_ok hrun]
    exact .refl t
  · rw [Files.after_of_run_error hrun]
    exact .refl t

theorem read_of_run_fillFile {b : Bool} (h : (fillFile draws dir overrides d).run t = .ok b t')
    (hs : t.read (file dir) = .ok s) :
    t'.read (file dir) = .ok (fill (draws (file dir)) overrides d s) := by
  rcases run_fillFile_cases draws overrides d t dir with
    ⟨s', u, hs', hwrite, hrun⟩ | ⟨hnone, -⟩ | ⟨-, fault, hrun⟩
  · obtain rfl := Except.ok.inj (hs.symm.trans hs')
    obtain ⟨-, rfl⟩ := EStateM.Result.ok.inj (hrun.symm.trans h)
    exact FileTree.read_of_write hwrite
  · exact absurd (hnone.symm.trans hs) nofun
  · exact absurd (hrun.symm.trans h) nofun

/-- No combined file has the name of a parameter file, whatever it is put together from. -/
theorem find_file_ne_of_combinedPlace {f : Fragment} {loc : Location}
    (h : f.CombinedPlace t component loc) (dir : Path) : t.find (file dir) ≠ .ok loc := by
  obtain ⟨p, -, n, hfind⟩ := h
  obtain ⟨front, hname⟩ := PatchGroup.exists_candidate_eq (PatchGroup.stem ⟨p.target, ""⟩) n
  rw [hname] at hfind
  obtain ⟨before, hlast⟩ := FileTree.exists_getLast?_of_find (by decide) (by decide) hfind
  intro hfile
  obtain ⟨base, -, -, rfl⟩ := FileTree.find_join_name (by decide) hfile
  have hends : Name.ofString ".yaml" <:+ Name.ofString fileName := by
    rw [List.getLast?_concat] at hlast
    exact ⟨before, (Option.some.inj hlast).symm⟩
  exact absurd hends (by decide)

end Parameters

namespace Component

open FileTree (Refills)
open Parameters (Refill)
open Relation (ReflTransGen TransGen)

variable {overlays : List String} {parameters : List Parameter} {layer : Layer}
variable {layers : List Layer} {path : Path}

theorem after_fillLayers_refills (draws : Parameters.Draws) (d : Deployment) (component : Path)
    (parameters : List Parameter) (layers : List Layer) (t : FileTree) (p : Path) :
    t.Refills (Parameter.dict parameters) d p
      ((fillLayers draws d component parameters layers).after t) := by
  induction layers generalizing t with
  | nil => exact .refl t
  | cons layer layers ih =>
    rw [fillLayers_cons]
    refine Files.after_bind_of_trans .trans ?_ fun _ _ => ih _
    rw [after_fillLayer]
    exact Parameters.after_fillFile_refills draws _ d t layer.dir p

/-- The parameter file of a layer is filled in at least once. -/
theorem refilled_of_run_fillLayers
    (h : (fillLayers draws d component parameters layers).run t = .ok () t')
    (hlayer : layer ∈ layers) (hs : t.read (Parameters.file layer.dir) = .ok s) :
    ∃ s', t'.read (Parameters.file layer.dir) = .ok s' ∧
      TransGen (Refill (Parameter.dict parameters) d) s s' := by
  induction layers generalizing t s with
  | nil => exact absurd hlayer List.not_mem_nil
  | cons first rest ih =>
    rw [fillLayers_cons] at h
    obtain ⟨⟨⟩, mid, hfirst, hrest⟩ := Files.run_bind_eq_ok_iff.1 h
    obtain ⟨b, hb⟩ := run_fillLayer_eq_ok_iff.1 hfirst
    rcases List.mem_cons.1 hlayer with rfl | hlayer
    · have hmid := Parameters.read_of_run_fillFile hb hs
      have hafter := after_fillLayers_refills draws d component parameters rest mid
        (Parameters.file layer.dir)
      rw [Files.after_of_run_ok hrest] at hafter
      obtain ⟨s', hs', hrefills⟩ := hafter _ hmid
      exact ⟨s', hs', .head' ⟨_, rfl⟩ hrefills⟩
    · have hafter := Parameters.after_fillFile_refills draws (Parameter.dict parameters) d t
        first.dir (Parameters.file layer.dir)
      rw [Files.after_of_run_ok hb] at hafter
      obtain ⟨mids, hmid, hrefills⟩ := hafter s hs
      obtain ⟨s', hs', hmore⟩ := ih hrest hlayer hmid
      exact ⟨s', hs', .trans_right hrefills hmore⟩

/-! ## Composing -/

theorem after_aggregate_refills (overrides : Dict String) (d : Deployment) (component : Path)
    (f : Fragment) (t : FileTree) (dir : Path) :
    t.Refills overrides d (Parameters.file dir) ((f.aggregate component).after t) :=
  .of_changedAt (Fragment.after_aggregate component f t) fun _ hloc =>
    Parameters.find_file_ne_of_combinedPlace hloc dir

theorem after_save_refills (overrides : Dict String) (d : Deployment) (component : Path)
    (f : Fragment) (t : FileTree) (dir : Path) :
    t.Refills overrides d (Parameters.file dir) ((f.save component).after t) := by
  refine .of_changedAt (Fragment.after_save component f t) fun loc hloc hfile => ?_
  exact absurd (FileTree.find_join_name_inj (by decide) (by decide) hfile hloc) (by decide)

theorem after_compose_refills (draws : Parameters.Draws) (d : Deployment) (component : Path)
    (overlays : List String) (parameters : List Parameter) (t : FileTree) (dir : Path) :
    t.Refills (Parameter.dict parameters) d (Parameters.file dir)
      ((compose draws d component overlays parameters).after t) := by
  have hasks := (asks_locate component overlays).explain (ComposeError.locate component)
  rw [compose_eq]
  refine Files.after_bind_of_trans .trans ?_ fun located _ => ?_
  · rw [hasks]
    exact .refl t
  rw [hasks]
  cases located with
  | final own => exact .refl t
  | layered base layers =>
    show t.Refills _ d _ ((finish draws d component parameters base layers).after t)
    rw [finish]
    refine Files.after_bind_of_trans .trans
      (after_fillLayers_refills draws d component parameters (base :: layers) t _) fun _ _ => ?_
    refine Files.after_bind_of_trans .trans ?_ fun f _ => ?_
    · rw [Files.after_ask]
      exact .refl _
    rw [Files.after_ask]
    refine Files.after_bind_of_trans .trans ?_ fun f' _ =>
      Files.after_bind_of_trans .trans ?_ fun path _ => ?_
    · rw [Files.after_explain]
      exact after_aggregate_refills _ d component f _ dir
    · rw [Files.after_explain, Files.after_explain]
      exact after_save_refills _ d component f' _ dir
    · rw [Files.after_pure (Outcome.composed path)]
      exact .refl _

theorem refilled_of_run_compose
    (h : (compose draws d component overlays parameters).run t = .ok (.composed path) t')
    (hlayer : layer ∈ layersIn t component overlays)
    (hs : t.read (Parameters.file layer.dir) = .ok s) :
    ∃ s', t'.read (Parameters.file layer.dir) = .ok s' ∧
      TransGen (Refill (Parameter.dict parameters) d) s s' := by
  cases run_compose_eq_iff.1 h with
  | @composed base layers f f' path filled combined t' hlocate hfill hmerge hcombine hsave =>
    rw [layersIn_of_layered hlocate] at hlayer
    obtain ⟨first, hfirst, hrefilled⟩ := refilled_of_run_fillLayers hfill hlayer hs
    have hcombined := after_aggregate_refills (Parameter.dict parameters) d
      component f filled layer.dir
    have hsaved := after_save_refills (Parameter.dict parameters) d
      component f' combined layer.dir
    rw [Files.after_of_run_ok hcombine] at hcombined
    rw [Files.after_of_run_ok hsave] at hsaved
    obtain ⟨s', hs', hrest⟩ := hcombined.trans hsaved first hfirst
    exact ⟨s', hs', hrefilled.trans_left hrest⟩

/-- Composing with these parameters makes `filled` of a parameter file that holds `text`, however
often its directory is listed, and leaves a parameter file that holds `filled` as it is. -/
structure Steady (d : Deployment) (parameters : List Parameter) (text filled : String) : Prop where
  made : ∀ {draws : Parameters.Draws} {component : Path} {overlays : List String}
    {t t' : FileTree} {path : Path} {layer : Layer},
    (compose draws d component overlays parameters).run t = .ok (.composed path) t' →
    layer ∈ layersIn t component overlays → t.read (Parameters.file layer.dir) = .ok text →
    t'.read (Parameters.file layer.dir) = .ok filled
  kept : ∀ {draws : Parameters.Draws} {component : Path} {overlays : List String}
    {t : FileTree} {dir : Path}, t.read (Parameters.file dir) = .ok filled →
    ((compose draws d component overlays parameters).after t).read (Parameters.file dir) =
      .ok filled

end Component

namespace Parameters

open Component (Steady)

variable {text : String}

/-- A row stays, or the name that was generated on it loses its suffix. -/
def Stripped (overrides : Dict String) (row row' : List Char) : Prop :=
  row' = row ∨ ∃ value draw, overrides.find? generatedName = some value ∧
    row = Parameters.row generatedName (value ++ suffix draw) ∧
    row' = Parameters.row generatedName value

theorem stripped_fillLine (overrides : Dict String) (d : Deployment) (draw : UInt32)
    (line : List Char) :
    Stripped overrides (fillLine overrides d draw line) (settleLine overrides d line) := by
  by_cases hgenerates : Generates overrides line
  · obtain ⟨⟨value, hvalue, hne⟩, hentry⟩ := hgenerates
    have hoverride : (overrides.find? (entry line).1).filter (· ≠ "") = some value := by
      rw [hentry, hvalue]
      simp [hne]
    refine .inr ⟨value, draw, hvalue, ?_, ?_⟩
    · rw [fillLine_of_some (newValue?_of_override hoverride _), hentry, if_pos ⟨rfl, rfl⟩]
    · rw [settleLine_of_override hoverride, hentry]
  · exact .inl (fillLine_eq_settleLine_iff.2 hgenerates).symm

theorem steady_of_plain {parameters : List Parameter}
    (hvalues : ∀ v ∈ offered (Parameter.dict parameters) d, Text.Clean v.toList)
    (htext : ∀ line ∈ Text.lines text.toList, Text.Clean line)
    (hplain : ∀ line ∈ Text.lines text.toList, ¬ Generates (Parameter.dict parameters) line)
    (draws : Nat → UInt32) :
    Steady d parameters text (fill draws (Parameter.dict parameters) d text) := by
  refine ⟨fun hrun hlayer hread => ?_, fun {draws' component overlays t dir} hread => ?_⟩
  · obtain ⟨s', hs', hrefills⟩ := Component.refilled_of_run_compose hrun hlayer hread
    rw [hs', eq_fill_of_refills hvalues htext hplain hrefills draws]
  · obtain ⟨s', hs', hrefills⟩ :=
      Component.after_compose_refills draws' d component overlays parameters t dir _ hread
    rw [hs', eq_of_refills (fun _ => fill_fill_of_plain hvalues htext hplain) hrefills]

/-- Filling in the same values a second time changes nothing but generated names, which lose their
suffixes, and a third time changes nothing. So a parameter file without a name to generate is what
filling in makes of it the first time, however often its directory is listed and its component is
composed. -/
theorem fill_again (overrides : Dict String) (d : Deployment) (text : String)
    (draws draws' : Nat → UInt32)
    (hvalues : ∀ v ∈ offered overrides d, Text.Clean v.toList)
    (htext : ∀ line ∈ Text.lines text.toList, Text.Clean line) :
    (fill draws' overrides d (fill draws overrides d text) = fill draws overrides d text ↔
      ∀ line ∈ Text.lines text.toList, ¬ Generates overrides line) ∧
    List.Forall₂ (Stripped overrides) (Text.lines (fill draws overrides d text).toList)
      (Text.lines (fill draws' overrides d (fill draws overrides d text)).toList) ∧
    (∀ draws'', fill draws'' overrides d (fill draws' overrides d (fill draws overrides d text)) =
      fill draws' overrides d (fill draws overrides d text)) ∧
    ((∀ line ∈ Text.lines text.toList, ¬ Generates overrides line) →
      ∀ parameters, Parameter.dict parameters = overrides →
        Steady d parameters text (fill draws overrides d text)) := by
  have hsecond : fill draws' overrides d (fill draws overrides d text) = settle overrides d text :=
    fill_fill hvalues htext
  refine ⟨?_, ?_, fun draws'' => ?_, ?_⟩
  · rw [hsecond, eq_comm]
    exact fill_eq_settle_iff hvalues htext
  · rw [hsecond, lines_fill hvalues htext, lines_settle hvalues htext,
      List.forall₂_map_right_iff]
    refine (forall₂_filledRows draws overrides d text).flip.imp ?_
    rintro row line ⟨draw, rfl⟩
    exact stripped_fillLine overrides d draw line
  · rw [hsecond]
    exact fill_settle hvalues htext
  · rintro hplain parameters rfl
    exact steady_of_plain hvalues htext hplain draws

/-- An overlay is listed twice, and the component is composed twice. -/
theorem fill_again_of_overlay_listed_twice :
    ∃ t t' : FileTree,
      t = ⟨[([.ofString "app"], .directory),
        ([.ofString "app", .ofString "base"], .directory),
        ([.ofString "app", .ofString "base", .ofString "kustomization.yaml"], .file (.text "{}")),
        ([.ofString "app", .ofString "overlays"], .directory),
        ([.ofString "app", .ofString "overlays", .ofString "x"], .directory),
        ([.ofString "app", .ofString "overlays", .ofString "x", .ofString "kustomization.yaml"],
          .file (.text "{}")),
        ([.ofString "app", .ofString "overlays", .ofString "x", .ofString "params.env"],
          .file (.text "a=1\r\ngenerateName=x"))], [], []⟩ ∧
      (Component.compose (fun _ _ => 0) {} (.ofString "app") ["x", "x"]
        [⟨"generateName", "g-"⟩]).run t = .ok (.composed (.ofString "app/kustomization.yaml")) t' ∧
      t'.read (file (.ofString "app/overlays/x")) = .ok "a=1\ngenerateName=g-\n" ∧
      ((Component.compose (fun _ _ => 1) {} (.ofString "app") ["x"]
        [⟨"generateName", "g-"⟩]).after t').read (file (.ofString "app/overlays/x")) =
        .ok "a=1\ngenerateName=g-\n" := by
  let t : FileTree :=
    ⟨[([.ofString "app"], .directory),
      ([.ofString "app", .ofString "base"], .directory),
      ([.ofString "app", .ofString "base", .ofString "kustomization.yaml"], .file (.text "{}")),
      ([.ofString "app", .ofString "overlays"], .directory),
      ([.ofString "app", .ofString "overlays", .ofString "x"], .directory),
      ([.ofString "app", .ofString "overlays", .ofString "x", .ofString "kustomization.yaml"],
        .file (.text "{}")),
      ([.ofString "app", .ofString "overlays", .ofString "x", .ofString "params.env"],
        .file (.text "a=1\r\ngenerateName=x"))], [], []⟩
  have hfilled : fill (fun _ => 0) (Parameter.dict [⟨"generateName", "g-"⟩]) {}
      "a=1\r\ngenerateName=x" = "a=1\ngenerateName=g-\n" := by decide +kernel
  have hsteady : Component.Steady {} [⟨"generateName", "g-"⟩] "a=1\r\ngenerateName=x"
      "a=1\ngenerateName=g-\n" :=
    hfilled ▸ (fill_again (Parameter.dict [⟨"generateName", "g-"⟩]) {} "a=1\r\ngenerateName=x"
      (fun _ => 0) (fun _ => 1) (by decide) (by decide)).2.2.2 (by decide) _ rfl
  have hrun : (Component.compose (fun _ _ => 0) {} (.ofString "app") ["x", "x"]
      [⟨"generateName", "g-"⟩]).run t = .ok (.composed (.ofString "app/kustomization.yaml")) _ :=
    Files.run_eq_ok_iff.2 ⟨by decide +kernel, rfl⟩
  have hdir : .ofString "app/overlays/x" ∈
      (Component.layersIn t (.ofString "app") ["x", "x"]).map (·.dir) := by decide +kernel
  obtain ⟨layer, hlayer, hdir⟩ := List.mem_map.1 hdir
  have hread : t.read (file layer.dir) = .ok "a=1\r\ngenerateName=x" := by
    rw [hdir]
    decide +kernel
  have hmade := hsteady.made hrun hlayer hread
  rw [hdir] at hmade
  exact ⟨t, _, rfl, hrun, hmade, hsteady.kept hmade⟩

/-- A generated name has its suffix for one time only. A value that goes over a line feed brings
lines that are filled in themselves, and a carriage return at the end of a line is lost the next
time, because it is read as a part of the line break. -/
theorem fill_changes_again :
    ∃ generated broken : Dict String,
      generated = Parameter.dict [⟨"generateName", "g-"⟩] ∧
      fill (fun _ => 0) generated {} "generateName=\n" = "generateName=g-00000000\n" ∧
      fill (fun _ => 1) generated {} (fill (fun _ => 0) generated {} "generateName=\n") =
        "generateName=g-\n" ∧
      broken = Parameter.dict [⟨"p", "x\np=y"⟩] ∧
      fill (fun _ => 0) broken {} "p=\n" = "p=x\np=y\n" ∧
      fill (fun _ => 0) broken {} (fill (fun _ => 0) broken {} "p=\n") =
        "p=x\np=y\np=x\np=y\n" ∧
      fill (fun _ => 0) ∅ {} "a=x\r\r\n" = "a=x\r\n" ∧
      fill (fun _ => 0) ∅ {} (fill (fun _ => 0) ∅ {} "a=x\r\r\n") = "a=x\n" := by
  refine ⟨_, _, rfl, ?_, ?_, rfl, ?_, ?_, ?_, ?_⟩
  all_goals decide +kernel

end Parameters
end LayeredConfig
