/-
Filling in the parameters of the layers.

Only texts of parameter files are replaced, by other texts, also if the run ends early
(`after_fillLayers`). Since a text stays a text, whether the run gets to its end is known from the
start: every parameter file can be read and written or is missing (`exists_run_fillLayers_iff`). Neither the
values nor the random numbers have a part in this.
-/
import LayeredConfig.Compose
import LayeredConfig.Proofs.FileTree.Change

namespace LayeredConfig

variable {t t' : FileTree} {dir : Path} {s : String}

/-! ## One parameter file -/

namespace Parameters

/-- The parameter file of a directory. -/
def file (dir : Path) : Path := dir / .ofString fileName

/-- The parameter file of the directory can be read and written, or there is none. -/
def Fillable (t : FileTree) (dir : Path) : Prop :=
  (∃ s, t.read (file dir) = .ok s) ∧ t.Writable (file dir) ∨ t.read (file dir) = .error .notFound

theorem fillable_iff_of_sameKind (h : t.SameKind t') : Fillable t' dir ↔ Fillable t dir := by
  have hwritable : t'.Writable (file dir) ↔ t.Writable (file dir) :=
    ⟨fun hw => hw.of_sameDirectories h.directories.symm, fun hw => hw.of_sameDirectories h.directories⟩
  unfold Fillable
  rw [hwritable]
  rcases h.read_cases (file dir) with heq | ⟨s, s', hs, hs'⟩
  · rw [heq]
  · rw [hs, hs']
    simp

/-- Writing texts does no harm to a parameter file. -/
theorem Fillable.of_changedAt {P : Location → Prop} {loc : Location} (hfill : Fillable t dir)
    (h : t.ChangedAt P t') (hwalk : t.walk dir.parts = .ok loc)
    (hdir : t.get? loc = some .directory) : Fillable t' dir := by
  have hlast : (Path.Part.name (Name.ofString fileName)).Lasting := by decide
  have hfind : t'.find (file dir) = t.find (file dir) :=
    FileTree.find_join_name_eq h.directories hlast hwalk hdir
  have hname : FileTree.namesDirectory (file dir) = false :=
    FileTree.namesDirectory_join_name dir hlast
  have hsame (hread : t'.read (file dir) = t.read (file dir)) : Fillable t' dir := by
    rw [Fillable, hread]
    exact hfill.imp_left (And.imp_right fun hw => hw.of_sameDirectories h.directories)
  cases hplace : t.find (file dir) with
  | error e =>
    refine hsame ?_
    rw [FileTree.read, FileTree.read, hfind, hplace]
    rfl
  | ok place =>
    rcases h.entry place with heq | ⟨-, ⟨s, hs⟩, hrefusal⟩
    · refine hsame ?_
      rw [FileTree.read, FileTree.read, hfind, hplace, ok_bind, ok_bind, heq]
    · have hread : t'.read (file dir) = .ok s :=
        FileTree.read_eq_ok_iff.2 ⟨place, hfind.trans hplace, hs, hname⟩
      exact .inl ⟨⟨s, hread⟩, .of_accepts (.of_read hread (hfind.trans hplace) hrefusal)⟩

variable {draws : Draws} {overrides : Dict String} {d : Deployment}

theorem run_fillFile_of_read (h : t.read (file dir) = .ok s)
    (hwrite : t.write (file dir) (fill (draws (file dir)) overrides d s) = .ok t') :
    (fillFile draws dir overrides d).run t = .ok true t' := by
  refine Files.run_bind_eq_ok_iff.2 ⟨some s, t, Files.run_ask_eq_ok_iff.2 ⟨?_, rfl⟩, ?_⟩
  · rw [file] at h
    simp only [h]
  · refine Files.run_bind_eq_ok_iff.2 ⟨(), t', ?_, rfl⟩
    exact Files.run_explain_eq_ok_iff.2 (Files.run_write_eq_ok_iff.2 hwrite)

theorem run_fillFile_of_notFound (h : t.read (file dir) = .error .notFound) :
    (fillFile draws dir overrides d).run t = .ok false t := by
  refine Files.run_bind_eq_ok_iff.2 ⟨none, t, Files.run_ask_eq_ok_iff.2 ⟨?_, rfl⟩, rfl⟩
  rw [file] at h
  simp only [h]

theorem run_fillFile_of_not_fillable (h : ¬ Fillable t dir) :
    ∃ fault, (fillFile draws dir overrides d).run t = .error fault t := by
  cases hread : t.read (file dir) with
  | ok s =>
    cases hwrite : t.write (file dir) (fill (draws (file dir)) overrides d s) with
    | ok t' => exact absurd (.inl ⟨⟨s, hread⟩, _, t', hwrite⟩) h
    | error e =>
      refine ⟨.notWritten (file dir) e, Files.run_bind_eq_error_iff.2 (.inr ⟨some s, t, ?_, ?_⟩)⟩
      · rw [file] at hread
        exact Files.run_ask_eq_ok_iff.2 ⟨by simp only [hread], rfl⟩
      · refine Files.run_bind_eq_error_iff.2 (.inl (Files.run_explain_eq_error_iff.2 ?_))
        exact ⟨e, Files.run_write_eq_error_iff.2 ⟨hwrite, rfl⟩, rfl⟩
  | error e =>
    refine ⟨.notRead (file dir) e, Files.run_bind_eq_error_iff.2 (.inl ?_)⟩
    refine Files.run_ask_eq_error_iff.2 ⟨?_, rfl⟩
    cases e with
    | notFound => exact absurd (.inr hread) h
    | _ =>
      rw [file] at hread
      simp only [hread]
      rfl

/-- The file is written if it could be read and may be written, and otherwise nothing is done. -/
theorem run_fillFile_cases (draws : Draws) (overrides : Dict String) (d : Deployment)
    (t : FileTree) (dir : Path) :
    (∃ s t', t.read (file dir) = .ok s ∧
      t.write (file dir) (fill (draws (file dir)) overrides d s) = .ok t' ∧
      (fillFile draws dir overrides d).run t = .ok true t') ∨
    (t.read (file dir) = .error .notFound ∧
      (fillFile draws dir overrides d).run t = .ok false t) ∨
    (¬ Fillable t dir ∧ ∃ fault, (fillFile draws dir overrides d).run t = .error fault t) := by
  by_cases h : Fillable t dir
  · rcases h with ⟨⟨s, hs⟩, hwritable⟩ | hnone
    · obtain ⟨t', ht'⟩ := hwritable.write (fill (draws (file dir)) overrides d s)
      exact .inl ⟨s, t', hs, ht', run_fillFile_of_read hs ht'⟩
    · exact .inr (.inl ⟨hnone, run_fillFile_of_notFound hnone⟩)
  · exact .inr (.inr ⟨h, run_fillFile_of_not_fillable h⟩)

theorem after_fillFile (draws : Draws) (overrides : Dict String) (d : Deployment) (t : FileTree)
    (dir : Path) :
    t.SameKind ((fillFile draws dir overrides d).after t) ∧
      t.ChangedAt (fun loc => t.find (file dir) = .ok loc)
        ((fillFile draws dir overrides d).after t) := by
  rcases run_fillFile_cases draws overrides d t dir with
    ⟨s, t', hs, ht', hrun⟩ | ⟨-, hrun⟩ | ⟨-, fault, hrun⟩
  · rw [Files.after_of_run_ok hrun]
    obtain ⟨loc, haccepts, -⟩ := FileTree.write_eq_ok_iff.1 ht'
    exact ⟨.of_write ht' haccepts.find (FileTree.holdsText_of_read hs haccepts), .of_write ht'⟩
  · rw [Files.after_of_run_ok hrun]
    exact ⟨.refl t, .refl _ t⟩
  · rw [Files.after_of_run_error hrun]
    exact ⟨.refl t, .refl _ t⟩

theorem exists_run_fillFile_iff :
    (∃ b t', (fillFile draws dir overrides d).run t = .ok b t') ↔ Fillable t dir := by
  rcases run_fillFile_cases draws overrides d t dir with
    ⟨s, t', hs, ht', hrun⟩ | ⟨hnone, hrun⟩ | ⟨hn, fault, hrun⟩
  · exact iff_of_true ⟨true, t', hrun⟩ (.inl ⟨⟨s, hs⟩, _, t', ht'⟩)
  · exact iff_of_true ⟨false, t, hrun⟩ (.inr hnone)
  · refine iff_of_false ?_ hn
    rintro ⟨b, t', hrun'⟩
    exact absurd (hrun.symm.trans hrun') (by simp)

end Parameters

/-! ## The parameter files of all layers -/

namespace Component

open Parameters (Draws Fillable)

variable {draws : Draws} {d : Deployment} {component : Path} {parameters : List Parameter}
variable {layer : Layer} {layers : List Layer} {e : ComposeError}

def fillLayer (draws : Draws) (d : Deployment) (component : Path) (parameters : List Parameter)
    (layer : Layer) : Files ComposeError Unit :=
  discard <| (Parameters.fillFile draws layer.dir (Parameter.dict parameters) d).explain
    (.parameters component)

/-- Fills in the parameters of some layers, one after the other. -/
def fillLayers (draws : Draws) (d : Deployment) (component : Path) (parameters : List Parameter)
    (layers : List Layer) : Files ComposeError Unit :=
  layers.forM (fillLayer draws d component parameters)

/-- The place of the parameter file of one of the layers. -/
def ParameterPlace (t : FileTree) (layers : List Layer) (loc : Location) : Prop :=
  ∃ layer ∈ layers, t.find (Parameters.file layer.dir) = .ok loc

theorem ParameterPlace.of_sameDirectories {loc : Location} (h : ParameterPlace t' layers loc)
    (hd : t.SameDirectories t') : ParameterPlace t layers loc := by
  obtain ⟨layer, hlayer, hfind⟩ := h
  exact ⟨layer, hlayer, hd.find_eq_ok_iff.1 hfind⟩

theorem run_fillLayer_eq_ok_iff :
    (fillLayer draws d component parameters layer).run t = .ok () t' ↔
      ∃ b, (Parameters.fillFile draws layer.dir (Parameter.dict parameters) d).run t =
        .ok b t' := by
  rw [fillLayer, Files.run_discard_eq_ok_iff]
  exact exists_congr fun b => Files.run_explain_eq_ok_iff

theorem run_fillLayer_eq_error_iff :
    (fillLayer draws d component parameters layer).run t = .error e t' ↔
      ∃ fault, (Parameters.fillFile draws layer.dir (Parameter.dict parameters) d).run t =
        .error fault t' ∧ e = .parameters component fault := by
  rw [fillLayer, Files.run_discard_eq_error_iff, Files.run_explain_eq_error_iff]

theorem after_fillLayer (draws : Draws) (d : Deployment) (component : Path)
    (parameters : List Parameter) (layer : Layer) (t : FileTree) :
    (fillLayer draws d component parameters layer).after t =
      (Parameters.fillFile draws layer.dir (Parameter.dict parameters) d).after t := by
  rw [fillLayer, Files.after_discard, Files.after_explain]

theorem fillLayers_cons (draws : Draws) (d : Deployment) (component : Path)
    (parameters : List Parameter) (layer : Layer) (layers : List Layer) :
    fillLayers draws d component parameters (layer :: layers) =
      (fillLayer draws d component parameters layer >>= fun _ =>
        fillLayers draws d component parameters layers) := rfl

theorem parameters_of_run_fillLayers
    (h : (fillLayers draws d component parameters layers).run t = .error e t') :
    ∃ fault, e = .parameters component fault := by
  induction layers generalizing t with
  | nil => exact absurd h (by simp [fillLayers, EStateM.run, pure, EStateM.pure])
  | cons layer layers ih =>
    rw [fillLayers_cons, Files.run_bind_eq_error_iff] at h
    rcases h with hfirst | ⟨⟨⟩, mid, -, hrest⟩
    · obtain ⟨fault, -, he⟩ := run_fillLayer_eq_error_iff.1 hfirst
      exact ⟨fault, he⟩
    · exact ih hrest

/-- Only parameter files change, and they hold texts before and after. -/
theorem after_fillLayers (draws : Draws) (d : Deployment) (component : Path)
    (parameters : List Parameter) (layers : List Layer) (t : FileTree) :
    t.SameKind ((fillLayers draws d component parameters layers).after t) ∧
      t.ChangedAt (ParameterPlace t layers)
        ((fillLayers draws d component parameters layers).after t) := by
  induction layers generalizing t with
  | nil => exact ⟨.refl t, .refl _ t⟩
  | cons layer layers ih =>
    have hfirst := Parameters.after_fillFile draws (Parameter.dict parameters) d t layer.dir
    rw [← after_fillLayer draws d component parameters] at hfirst
    rw [fillLayers_cons]
    refine Files.after_bind_of_trans (R := fun u v => u.SameKind v ∧
      u.ChangedAt (ParameterPlace t (layer :: layers)) v) ?_ ?_ fun _ _ => ?_
    · rintro a b c ⟨hk, hc⟩ ⟨hk', hc'⟩
      exact ⟨hk.trans hk', hc.trans hc'⟩
    · exact ⟨hfirst.1, hfirst.2.mono fun loc hloc => ⟨layer, List.mem_cons_self, hloc⟩⟩
    · -- The files are at the same places as before, since the trees are of the same kind.
      obtain ⟨hk, hc⟩ := ih ((fillLayer draws d component parameters layer).after t)
      refine ⟨hk, hc.mono fun loc hloc => ?_⟩
      obtain ⟨other, hother, hfind⟩ := hloc.of_sameDirectories hfirst.1.directories
      exact ⟨other, List.mem_cons_of_mem layer hother, hfind⟩

theorem changedAt_of_run_fillLayers
    (h : (fillLayers draws d component parameters layers).run t = .ok () t') :
    t.ChangedAt (ParameterPlace t layers) t' :=
  Files.after_of_run_ok h ▸ (after_fillLayers draws d component parameters layers t).2

theorem sameKind_of_run_fillLayers
    (h : (fillLayers draws d component parameters layers).run t = .ok () t') : t.SameKind t' :=
  Files.after_of_run_ok h ▸ (after_fillLayers draws d component parameters layers t).1

/-- The run gets to its end if every parameter file can be read and written or is missing. -/
theorem exists_run_fillLayers_iff :
    (∃ t', (fillLayers draws d component parameters layers).run t = .ok () t') ↔
      ∀ layer ∈ layers, Fillable t layer.dir := by
  induction layers generalizing t with
  | nil => exact iff_of_true ⟨t, rfl⟩ (by simp)
  | cons layer layers ih =>
    have hsame {mid : FileTree}
        (h : (fillLayer draws d component parameters layer).run t = .ok () mid) :
        t.SameKind mid := by
      rw [← Files.after_of_run_ok h, after_fillLayer]
      exact (Parameters.after_fillFile draws (Parameter.dict parameters) d t layer.dir).1
    rw [fillLayers_cons, List.forall_mem_cons]
    constructor
    · rintro ⟨t', h⟩
      obtain ⟨⟨⟩, mid, hfirst, hrest⟩ := Files.run_bind_eq_ok_iff.1 h
      obtain ⟨b, hb⟩ := run_fillLayer_eq_ok_iff.1 hfirst
      refine ⟨Parameters.exists_run_fillFile_iff.1 ⟨b, mid, hb⟩, fun other hother => ?_⟩
      exact (Parameters.fillable_iff_of_sameKind (hsame hfirst)).1
        (ih.1 ⟨t', hrest⟩ other hother)
    · rintro ⟨hlayer, hlayers⟩
      have hfile : ∃ b mid, (Parameters.fillFile draws layer.dir (Parameter.dict parameters) d).run
          t = .ok b mid := Parameters.exists_run_fillFile_iff.2 hlayer
      obtain ⟨b, mid, hb⟩ := hfile
      have hfirst : (fillLayer draws d component parameters layer).run t = .ok () mid :=
        run_fillLayer_eq_ok_iff.2 ⟨b, hb⟩
      obtain ⟨t', hrest⟩ := ih.2 fun other hother =>
        (Parameters.fillable_iff_of_sameKind (hsame hfirst)).2 (hlayers other hother)
      exact ⟨t', Files.run_bind_eq_ok_iff.2 ⟨(), mid, hfirst, hrest⟩⟩

end Component
end LayeredConfig
