/-
The courses that a composition can take.

It ends where the first of its stages fails, or with the fragment written. `Course` has one case for
each end, with what the stages before it have done, and these are all the runs there are
(`run_compose_eq_iff`).
-/
import LayeredConfig.Proofs.Aggregate.Change
import LayeredConfig.Proofs.Compose.Fill
import LayeredConfig.Proofs.Compose.Locate
import LayeredConfig.Proofs.Fold.Contained

namespace LayeredConfig

variable {t t' : FileTree} {component dir : Path}

namespace Component

variable {draws : Parameters.Draws} {d : Deployment} {overlays : List String}
variable {parameters : List Parameter} {base : Layer} {layers : List Layer}
variable {f : Fragment} {p : JsonPatch}

/-! ## Folding the layers -/

theorem fold_of_merge {e : ComposeError} (h : merge d component base layers parameters = .error e) :
    ∃ dir cause, e = .fold dir cause := by
  have hfold {layers : List Layer} {acc : Accumulator} {e : ComposeError}
      (h : foldLayers component layers acc = .error e) : ∃ dir cause, e = .fold dir cause := by
    induction layers generalizing acc with
    | nil => exact absurd h (by simp [foldLayers])
    | cons layer layers ih =>
      rw [foldLayers] at h
      cases hlayer : (layer.fold component).run acc with
      | ok a mid =>
        rw [hlayer] at h
        exact ih h
      | error cause mid =>
        rw [hlayer] at h
        exact ⟨layer.dir, cause, (Except.error.inj h).symm⟩
  unfold merge at h
  cases hlayers : foldLayers component (base :: layers) .blank with
  | ok acc =>
    rw [hlayers] at h
    exact absurd h (by simp [pure, Except.pure])
  | error cause =>
    rw [hlayers] at h
    obtain rfl := Except.error.inj h
    exact hfold hlayers

/-- The patches of the folded fragment have the targets that those of the layers have. -/
theorem exists_target_of_merge (h : merge d component base layers parameters = .ok f)
    (hp : p ∈ f.jsonPatches) :
    ∃ layer ∈ base :: layers, ∃ q ∈ layer.fragment.jsonPatches, q.target = p.target := by
  obtain ⟨acc, hacc, rfl⟩ := merge_eq_ok_iff.1 h
  obtain ⟨-, hrun⟩ := run_of_foldLayers hacc
  obtain ⟨k, hk, hcell⟩ := Field.grows_jsonPatches.run_accepted (hrun .jsonPatches)
  obtain ⟨ps, hps, rfl⟩ := map_eq_ok_iff.1 hk
  have hvalue : acc.fragment.jsonPatches = ps := congrArg Cell.value hcell
  have hmem : p ∈ ps := hvalue ▸ hp
  obtain ⟨entry, hentry, r, -, rfl⟩ := exists_of_mem_forall₂ (mapM_rebasePatch hps) hmem
  obtain ⟨layer, hlayer, -, hpatch⟩ := Layer.exists_of_mem_entries hentry
  exact ⟨layer, hlayer, entry.2, hpatch, rfl⟩

theorem contained_of_merge (ha : component.Anchored)
    (h : merge d component base layers parameters = .ok f) (hp : p ∈ f.jsonPatches) :
    (Path.ofString p.path).Contained := by
  obtain ⟨acc, hacc, rfl⟩ := merge_eq_ok_iff.1 h
  refine pathsContained_of_anchored ha hacc p.path ?_
  have hmem : p.path ∈ acc.fragment.jsonPatches.map (·.path) := List.mem_map_of_mem hp
  simp only [Fragment.paths, List.mem_append]
  exact .inl (.inr hmem)

/-! ## Composing -/

/-- The layers that are found, the base first. A component without a base has none. -/
def layersIn (t : FileTree) (component : Path) (overlays : List String) : List Layer :=
  ((locate component overlays).answer t).toOption.elim [] fun
    | .final _ => []
    | .layered base layers => base :: layers

theorem layersIn_of_layered
    (h : (locate component overlays).answer t = .ok (.layered base layers)) :
    layersIn t component overlays = base :: layers := by
  rw [layersIn, h]
  rfl

theorem layersIn_of_final {own : Fragment}
    (h : (locate component overlays).answer t = .ok (.final own)) :
    layersIn t component overlays = [] := by
  rw [layersIn, h]
  rfl

theorem mem_layersIn {layer : Layer} (h : layer ∈ layersIn t component overlays) :
    (layer.dir = baseDir component ∨
        ∃ overlay ∈ overlays, layer.dir = overlayDir component overlay) ∧
      (load component layer.dir).answer t = .ok (some layer.fragment) := by
  rw [layersIn] at h
  cases hlocate : (locate component overlays).answer t with
  | error e =>
    rw [hlocate] at h
    exact absurd h List.not_mem_nil
  | ok located =>
    rw [hlocate] at h
    cases located with
    | final own => exact absurd h List.not_mem_nil
    | layered base layers => exact mem_located hlocate h

/-- How composing can end, and with which tree. -/
inductive Course (draws : Parameters.Draws) (d : Deployment) (component : Path)
    (overlays : List String) (parameters : List Parameter) (t : FileTree) :
    EStateM.Result ComposeError FileTree Outcome → Prop where
  | unlocated {e : LocateError} (hlocate : (locate component overlays).answer t = .error e) :
    Course draws d component overlays parameters t (.error (.locate component e) t)
  | final {own : Fragment} (hlocate : (locate component overlays).answer t = .ok (.final own)) :
    Course draws d component overlays parameters t (.ok .final t)
  | unfilled {base : Layer} {layers : List Layer} {e : ComposeError} {t' : FileTree}
    (hlocate : (locate component overlays).answer t = .ok (.layered base layers))
    (hfill : (fillLayers draws d component parameters (base :: layers)).run t = .error e t') :
    Course draws d component overlays parameters t (.error e t')
  | unfolded {base : Layer} {layers : List Layer} {e : ComposeError} {t' : FileTree}
    (hlocate : (locate component overlays).answer t = .ok (.layered base layers))
    (hfill : (fillLayers draws d component parameters (base :: layers)).run t = .ok () t')
    (hmerge : merge d component base layers parameters = .error e) :
    Course draws d component overlays parameters t (.error e t')
  | uncombined {base : Layer} {layers : List Layer} {f : Fragment} {e : AggregateError}
    {filled t' : FileTree}
    (hlocate : (locate component overlays).answer t = .ok (.layered base layers))
    (hfill : (fillLayers draws d component parameters (base :: layers)).run t = .ok () filled)
    (hmerge : merge d component base layers parameters = .ok f)
    (hcombine : (f.aggregate component).run filled = .error e t') :
    Course draws d component overlays parameters t (.error (.aggregate component e) t')
  | unsaved {base : Layer} {layers : List Layer} {f f' : Fragment} {e : Fragment.SaveError}
    {filled combined t' : FileTree}
    (hlocate : (locate component overlays).answer t = .ok (.layered base layers))
    (hfill : (fillLayers draws d component parameters (base :: layers)).run t = .ok () filled)
    (hmerge : merge d component base layers parameters = .ok f)
    (hcombine : (f.aggregate component).run filled = .ok f' combined)
    (hsave : (f'.save component).run combined = .error e t') :
    Course draws d component overlays parameters t (.error (.save component e) t')
  | composed {base : Layer} {layers : List Layer} {f f' : Fragment} {path : Path}
    {filled combined t' : FileTree}
    (hlocate : (locate component overlays).answer t = .ok (.layered base layers))
    (hfill : (fillLayers draws d component parameters (base :: layers)).run t = .ok () filled)
    (hmerge : merge d component base layers parameters = .ok f)
    (hcombine : (f.aggregate component).run filled = .ok f' combined)
    (hsave : (f'.save component).run combined = .ok path t') :
    Course draws d component overlays parameters t (.ok (.composed path) t')

/-- What follows once the layers are found. -/
def finish (draws : Parameters.Draws) (d : Deployment) (component : Path)
    (parameters : List Parameter) (base : Layer) (layers : List Layer) :
    Files ComposeError Outcome := do
  fillLayers draws d component parameters (base :: layers)
  let folded ← Files.ask fun _ => merge d component base layers parameters
  let f ← (folded.aggregate component).explain (.aggregate component)
  let path ← (f.save component).explain (.save component)
  return .composed path

theorem compose_eq (draws : Parameters.Draws) (d : Deployment) (component : Path)
    (overlays : List String) (parameters : List Parameter) :
    compose draws d component overlays parameters =
      ((locate component overlays).explain (.locate component) >>= fun
        | .final _ => pure .final
        | .layered base layers => finish draws d component parameters base layers) := rfl

theorem run_compose_of_layered
    (h : (locate component overlays).answer t = .ok (.layered base layers))
    (draws : Parameters.Draws) (d : Deployment) (parameters : List Parameter) :
    (compose draws d component overlays parameters).run t =
      (finish draws d component parameters base layers).run t := by
  have hlocate : ((locate component overlays).explain (.locate component) :
      Files ComposeError Located).run t = .ok (.layered base layers) t :=
    Files.run_explain_eq_ok_iff.2 ((asks_locate component overlays).run_eq_ok_iff.2 ⟨h, rfl⟩)
  rw [compose_eq, Files.run_bind, hlocate]

variable {r : EStateM.Result ComposeError FileTree Outcome}

theorem run_of_course (h : Course draws d component overlays parameters t r) :
    (compose draws d component overlays parameters).run t = r := by
  have hmid {base : Layer} {layers : List Layer} {f : Fragment} {filled : FileTree}
      (hmerge : merge d component base layers parameters = .ok f) :
      (Files.ask fun _ => merge d component base layers parameters).run filled = .ok f filled :=
    Files.run_ask_eq_ok_iff.2 ⟨hmerge, rfl⟩
  cases h with
  | unlocated hlocate =>
    refine Files.run_bind_eq_error_iff.2 (.inl (Files.run_explain_eq_error_iff.2 ⟨_, ?_, rfl⟩))
    exact (asks_locate component overlays).run_eq_error_iff.2 ⟨hlocate, rfl⟩
  | @final own hlocate =>
    refine Files.run_bind_eq_ok_iff.2 ⟨.final own, t, Files.run_explain_eq_ok_iff.2 ?_, rfl⟩
    exact (asks_locate component overlays).run_eq_ok_iff.2 ⟨hlocate, rfl⟩
  | unfilled hlocate hfill =>
    rw [run_compose_of_layered hlocate]
    exact Files.run_bind_eq_error_iff.2 (.inl hfill)
  | unfolded hlocate hfill hmerge =>
    rw [run_compose_of_layered hlocate]
    refine Files.run_bind_eq_error_iff.2 (.inr ⟨(), _, hfill, ?_⟩)
    exact Files.run_bind_eq_error_iff.2 (.inl (Files.run_ask_eq_error_iff.2 ⟨hmerge, rfl⟩))
  | uncombined hlocate hfill hmerge hcombine =>
    rw [run_compose_of_layered hlocate]
    refine Files.run_bind_eq_error_iff.2 (.inr ⟨(), _, hfill, ?_⟩)
    refine Files.run_bind_eq_error_iff.2 (.inr ⟨_, _, hmid hmerge, ?_⟩)
    refine Files.run_bind_eq_error_iff.2 (.inl ?_)
    exact Files.run_explain_eq_error_iff.2 ⟨_, hcombine, rfl⟩
  | unsaved hlocate hfill hmerge hcombine hsave =>
    rw [run_compose_of_layered hlocate]
    refine Files.run_bind_eq_error_iff.2 (.inr ⟨(), _, hfill, ?_⟩)
    refine Files.run_bind_eq_error_iff.2 (.inr ⟨_, _, hmid hmerge, ?_⟩)
    refine Files.run_bind_eq_error_iff.2
      (.inr ⟨_, _, Files.run_explain_eq_ok_iff.2 hcombine, ?_⟩)
    refine Files.run_bind_eq_error_iff.2 (.inl ?_)
    exact Files.run_explain_eq_error_iff.2 ⟨_, hsave, rfl⟩
  | composed hlocate hfill hmerge hcombine hsave =>
    rw [run_compose_of_layered hlocate]
    refine Files.run_bind_eq_ok_iff.2 ⟨(), _, hfill, ?_⟩
    refine Files.run_bind_eq_ok_iff.2 ⟨_, _, hmid hmerge, ?_⟩
    refine Files.run_bind_eq_ok_iff.2 ⟨_, _, Files.run_explain_eq_ok_iff.2 hcombine, ?_⟩
    exact Files.run_bind_eq_ok_iff.2 ⟨_, _, Files.run_explain_eq_ok_iff.2 hsave, rfl⟩

theorem exists_course (draws : Parameters.Draws) (d : Deployment) (component : Path)
    (overlays : List String) (parameters : List Parameter) (t : FileTree) :
    ∃ r, Course draws d component overlays parameters t r := by
  cases hlocate : (locate component overlays).answer t with
  | error e => exact ⟨_, .unlocated hlocate⟩
  | ok located =>
    cases located with
    | final own => exact ⟨_, .final hlocate⟩
    | layered base layers =>
      cases hfill : (fillLayers draws d component parameters (base :: layers)).run t with
      | error e filled => exact ⟨_, .unfilled hlocate hfill⟩
      | ok a filled =>
        cases hmerge : merge d component base layers parameters with
        | error e => exact ⟨_, .unfolded hlocate hfill hmerge⟩
        | ok f =>
          cases hcombine : (f.aggregate component).run filled with
          | error e combined => exact ⟨_, .uncombined hlocate hfill hmerge hcombine⟩
          | ok f' combined =>
            cases hsave : (f'.save component).run combined with
            | error e t' => exact ⟨_, .unsaved hlocate hfill hmerge hcombine hsave⟩
            | ok path t' => exact ⟨_, .composed hlocate hfill hmerge hcombine hsave⟩

theorem run_compose_eq_iff :
    (compose draws d component overlays parameters).run t = r ↔
      Course draws d component overlays parameters t r := by
  constructor
  · rintro rfl
    obtain ⟨r, h⟩ := exists_course draws d component overlays parameters t
    exact (run_of_course h).symm ▸ h
  · exact run_of_course

/-! ## The same fragment in two trees -/

open PatchGroup (Congruence Contributing) in
/-- A folded fragment is combined and written in two trees in the same steps. -/
theorem exists_save_alike {r : String → String → Prop} {u : FileTree} {f' : Fragment} {path : Path}
    {combined : FileTree} (hr : Congruence r) (hd : t.SameDirectories u)
    (hc : Contributing r t u component f.jsonPatches)
    (hcombine : (f.aggregate component).run t = .ok f' combined)
    (hsave : (f'.save component).run combined = .ok path t') :
    ∃ combined' u', (f.aggregate component).run u = .ok f' combined' ∧
      (f'.save component).run combined' = .ok path u' ∧ FileTree.Alike r t t' u u' ∧
      ∀ p ∈ f'.jsonPatches, ∃ s s', t'.read (component / .ofString p.path) = .ok s ∧
        u'.read (component / .ofString p.path) = .ok s' ∧ r s s' := by
  obtain ⟨combined', hcombine', halike, hread⟩ :=
    Fragment.run_aggregate_alike hr hd hc hcombine
  obtain ⟨rfl, s, hprint, hwrite⟩ := Fragment.run_save_eq_ok_iff.1 hsave
  obtain ⟨u', hwrite'⟩ := FileTree.write_of_sameDirectories hwrite halike.directories s
  have hlast : FileTree.Alike r combined t' combined' u' :=
    .of_write hwrite hwrite' halike.directories (hr.refl s)
  refine ⟨combined', u', hcombine', Fragment.run_save_eq_ok_iff.2 ⟨rfl, s, hprint, hwrite'⟩,
    halike.trans hlast, fun p hp => ?_⟩
  obtain ⟨a, b, ha, hb, hab⟩ := hread p hp
  exact hlast.read halike.directories ha hb hab

/-! ## What can have changed -/

/-- The place of a file that is written before the fragment of the component is. -/
inductive EarlyPlace (t : FileTree) (component : Path) (layers : List Layer) (loc : Location) :
    Prop where
  | parameters (h : ParameterPlace t layers loc)
  | combined {layer : Layer} (hlayer : layer ∈ layers)
    (h : layer.fragment.CombinedPlace t component loc)

theorem EarlyPlace.of_merge {loc : Location}
    (hmerge : merge d component base layers parameters = .ok f) (hd : t.SameDirectories t')
    (h : f.CombinedPlace t' component loc) : EarlyPlace t component (base :: layers) loc := by
  obtain ⟨p, hp, n, hfind⟩ := h
  obtain ⟨layer, hlayer, q, hq, htarget⟩ := exists_target_of_merge hmerge hp
  refine .combined hlayer ⟨q, hq, n, ?_⟩
  rw [htarget]
  exact hd.find_eq_ok_iff.1 hfind

theorem after_compose (draws : Parameters.Draws) (d : Deployment) (component : Path)
    (overlays : List String) (parameters : List Parameter) (t : FileTree) :
    t.ChangedAt (fun loc => EarlyPlace t component (layersIn t component overlays) loc ∨
      t.find (Fragment.file component) = .ok loc)
      ((compose draws d component overlays parameters).after t) := by
  have hasks := (asks_locate component overlays).explain (ComposeError.locate component)
  rw [compose_eq]
  refine Files.after_bind_of_trans .trans ?_ fun located hlocated => ?_
  · rw [hasks]
    exact .refl _ t
  rw [hasks]
  rw [Files.answer_explain_eq_ok_iff] at hlocated
  cases located with
  | final own => exact .refl _ t
  | layered base layers =>
    rw [layersIn_of_layered hlocated]
    show FileTree.ChangedAt _ t ((finish draws d component parameters base layers).after t)
    rw [finish]
    have hfill := (after_fillLayers draws d component parameters (base :: layers) t).2
    refine Files.after_bind_of_trans .trans (hfill.mono fun _ h => .inl (.parameters h))
      fun _ _ => ?_
    refine Files.after_bind_of_trans .trans ?_ fun f hmerge => ?_
    · rw [Files.after_ask]
      exact .refl _ _
    rw [Files.answer_ask] at hmerge
    rw [Files.after_ask]
    have hcombine := Fragment.after_aggregate component f
      ((fillLayers draws d component parameters (base :: layers)).after t)
    have hdirs := hfill.directories.trans hcombine.directories
    refine Files.after_bind_of_trans .trans ?_ fun f' _ =>
      Files.after_bind_of_trans .trans ?_ fun path _ => ?_
    · rw [Files.after_explain]
      exact hcombine.mono fun loc hloc => .inl (.of_merge hmerge hfill.directories hloc)
    · rw [Files.after_explain, Files.after_explain]
      exact (Fragment.after_save component f' _).mono fun loc hloc =>
        .inr (hdirs.find_eq_ok_iff.1 hloc)
    · rw [Files.after_pure (Outcome.composed path)]
      exact .refl _ _

end Component
end LayeredConfig
