/-
Which answer finding the layers of a component gives.

The directories that count are the base, the component itself and those of the overlays asked for
that are directories. Each of them has a fragment, lacks one or has one that is spoiled. That decides
between the answers: `locateOverlays` stops at the first overlay that does not have its fragment
(`answer_locateOverlays_eq_error_iff`), and `locate` looks at the component itself only if the base
lacks a fragment (`locate_classifies`).
-/
import LayeredConfig.Proofs.Compose.Locate

namespace LayeredConfig

open Fragment (file)

variable {t : FileTree} {component dir : Path} {overlays : List String} {overlay : String}
variable {base : Layer} {layers : List Layer} {f own : Fragment}

/-! ## One directory -/

theorem Files.answer_explain_eq_error_iff {ε ε' α : Type} {explanation : ε → ε'} {x : Files ε α}
    {e : ε'} :
    (x.explain explanation).answer t = .error e ↔
      ∃ cause, x.answer t = .error cause ∧ e = explanation cause := by
  rw [Files.answer_explain]
  cases x.answer t <;> simp [Except.mapError, eq_comm]

theorem mapM_eq_error_iff {ε α β : Type} {f : α → Except ε β} {l : List α} {e : ε} :
    l.mapM f = .error e ↔
      ∃ before a after, l = before ++ a :: after ∧ (∀ b ∈ before, ∃ x, f b = .ok x) ∧
        f a = .error e := by
  induction l with
  | nil =>
    refine iff_of_false nofun ?_
    rintro ⟨before, a, after, hl, -⟩
    exact absurd hl.symm (by simp)
  | cons a l ih =>
    cases ha : f a with
    | error e' =>
      rw [mapM_error_cons ha]
      constructor
      · rintro ⟨⟩
        exact ⟨[], a, l, rfl, nofun, ha⟩
      · rintro ⟨before, a', after, hl, hbefore, ha'⟩
        cases before with
        | nil =>
          obtain ⟨rfl, -⟩ := List.cons.inj hl
          obtain rfl := Except.error.inj (ha.symm.trans ha')
          rfl
        | cons b before =>
          obtain ⟨rfl, -⟩ := List.cons.inj hl
          obtain ⟨x, hx⟩ := hbefore a List.mem_cons_self
          exact absurd (ha.symm.trans hx) nofun
    | ok b =>
      have hrest : (l.mapM f).map (b :: ·) = .error e ↔ l.mapM f = .error e := by
        cases l.mapM f <;> simp
      rw [mapM_ok_cons ha, hrest, ih]
      constructor
      · rintro ⟨before, a', after, rfl, hbefore, ha'⟩
        exact ⟨a :: before, a', after, rfl, List.forall_mem_cons.2 ⟨⟨b, ha⟩, hbefore⟩, ha'⟩
      · rintro ⟨before, a', after, hl, hbefore, ha'⟩
        cases before with
        | nil =>
          obtain ⟨rfl, -⟩ := List.cons.inj hl
          exact absurd (ha.symm.trans ha') nofun
        | cons b' before =>
          obtain ⟨rfl, rfl⟩ := List.cons.inj hl
          exact ⟨before, a', after, rfl, (List.forall_mem_cons.1 hbefore).2, ha'⟩

namespace Component

/-- The directory has a fragment, which is `f`. -/
def HasFragment (t : FileTree) (dir : Path) (f : Fragment) : Prop :=
  ∃ s, t.read (file dir) = .ok s ∧ Fragment.parse s = .ok f

/-- There is no fragment in the directory, or no such directory. -/
def LacksFragment (t : FileTree) (dir : Path) : Prop := t.read (file dir) = .error .notFound

/-- Where the fragment should be there is something else. -/
def SpoilsFragment (t : FileTree) (dir : Path) (cause : DocumentError) : Prop :=
  (∃ s fault, t.read (file dir) = .ok s ∧ Fragment.parse s = .error fault ∧
    cause = .malformed (file dir) fault) ∨
  ∃ fault, t.read (file dir) = .error fault ∧ fault ≠ .notFound ∧ cause = .notRead (file dir) fault

theorem answer_load_eq_error_iff {e : LocateError} :
    (load component dir).answer t = .error e ↔
      ∃ cause, SpoilsFragment t dir cause ∧ e = .load component ⟨dir, cause⟩ := by
  have hdocument {cause : DocumentError} :
      (Document.load Fragment.parse (file dir)).answer t = .error cause ↔
        SpoilsFragment t dir cause := by
    rw [Document.load, Files.answer_ask, SpoilsFragment]
    cases t.read (file dir) with
    | ok s => cases hs : Fragment.parse s <;> simp [hs, eq_comm]
    | error fault => cases fault <;> simp [eq_comm]
  rw [load, Files.answer_explain_eq_error_iff]
  constructor
  · rintro ⟨_, hload, rfl⟩
    obtain ⟨cause, hcause, rfl⟩ := Files.answer_explain_eq_error_iff.1 hload
    exact ⟨cause, hdocument.1 hcause, rfl⟩
  · rintro ⟨cause, hcause, rfl⟩
    exact ⟨_, Files.answer_explain_eq_error_iff.2 ⟨cause, hdocument.2 hcause, rfl⟩, rfl⟩

/-! ## Overlays -/

/-- The overlays asked for that are directories. -/
def present (t : FileTree) (component : Path) (overlays : List String) : List String :=
  overlays.filter fun overlay => t.isDirectory (overlayDir component overlay)

theorem mem_present : overlay ∈ present t component overlays ↔
    overlay ∈ overlays ∧ t.isDirectory (overlayDir component overlay) = true := List.mem_filter

theorem present_cons_of_isDirectory (h : t.isDirectory (overlayDir component overlay) = true) :
    present t component (overlay :: overlays) = overlay :: present t component overlays :=
  List.filter_cons_of_pos h

/-- The layer of an overlay that is a directory. -/
def overlayLayer (t : FileTree) (component : Path) (overlay : String) : Except LocateError Layer :=
  (load component (overlayDir component overlay)).answer t >>= fun
    | some f => .ok ⟨overlayDir component overlay, f⟩
    | none => .error (.missingOverlay overlay component)

theorem overlayLayer_eq_ok_iff {layer : Layer} : overlayLayer t component overlay = .ok layer ↔
    layer.dir = overlayDir component overlay ∧ HasFragment t layer.dir layer.fragment := by
  rw [overlayLayer, bind_eq_ok_iff]
  constructor
  · rintro ⟨f?, hload, hlayer⟩
    cases f? with
    | none => exact absurd hlayer nofun
    | some f =>
      obtain rfl := Except.ok.inj hlayer
      exact ⟨rfl, answer_load_eq_some_iff.1 hload⟩
  · obtain ⟨dir, f⟩ := layer
    rintro ⟨rfl, hfragment⟩
    exact ⟨some f, answer_load_eq_some_iff.2 hfragment, rfl⟩

theorem overlayLayer_eq_error_iff {e : LocateError} : overlayLayer t component overlay = .error e ↔
    (LacksFragment t (overlayDir component overlay) ∧ e = .missingOverlay overlay component) ∨
    ∃ cause, SpoilsFragment t (overlayDir component overlay) cause ∧
      e = .load component ⟨overlayDir component overlay, cause⟩ := by
  rw [overlayLayer, bind_eq_error_iff, answer_load_eq_error_iff, or_comm]
  refine or_congr_left ?_
  constructor
  · rintro ⟨f?, hload, he⟩
    cases f? with
    | none => exact ⟨answer_load_eq_none_iff.1 hload, (Except.error.inj he).symm⟩
    | some f => exact absurd he nofun
  · rintro ⟨hlacks, rfl⟩
    exact ⟨none, answer_load_eq_none_iff.2 hlacks, rfl⟩

theorem answer_locateOverlays (t : FileTree) (component : Path) (overlays : List String) :
    (locateOverlays component overlays).answer t =
      (present t component overlays).mapM (overlayLayer t component) := by
  induction overlays with
  | nil => rfl
  | cons overlay rest ih =>
    cases hdir : t.isDirectory (overlayDir component overlay) with
    | false =>
      have hpresent : present t component (overlay :: rest) = present t component rest :=
        List.filter_cons_of_neg (by simp [hdir])
      rw [answer_locateOverlays_cons_of_not_isDirectory hdir, ih, hpresent]
    | true =>
      rw [locateOverlays, (Files.Asks.isDirectory _).answer_bind, Files.answer_isDirectory, hdir,
        ok_bind, if_pos rfl, (asks_load component _).answer_bind,
        present_cons_of_isDirectory hdir, List.mapM_cons, overlayLayer, bind_assoc]
      refine bind_congr fun f? => ?_
      cases f? with
      | none => rfl
      | some f =>
        refine ((asks_locateOverlays component rest).answer_bind _ t).trans ?_
        rw [ih]
        rfl

/-- An overlay that is a directory is asked for, and those before it have their fragments. -/
def Reaches (t : FileTree) (component : Path) (overlays : List String) (overlay : String) : Prop :=
  ∃ before after, overlays = before ++ overlay :: after ∧
    t.isDirectory (overlayDir component overlay) = true ∧
    ∀ earlier ∈ before, t.isDirectory (overlayDir component earlier) = true →
      ∃ f, HasFragment t (overlayDir component earlier) f

theorem exists_overlayLayer_iff :
    (∃ layer, overlayLayer t component overlay = .ok layer) ↔
      ∃ f, HasFragment t (overlayDir component overlay) f := by
  constructor
  · rintro ⟨layer, hlayer⟩
    obtain ⟨hdir, hfragment⟩ := overlayLayer_eq_ok_iff.1 hlayer
    exact ⟨layer.fragment, hdir ▸ hfragment⟩
  · rintro ⟨f, hfragment⟩
    exact ⟨⟨_, f⟩, overlayLayer_eq_ok_iff.2 ⟨rfl, hfragment⟩⟩

theorem answer_locateOverlays_eq_ok_iff :
    (locateOverlays component overlays).answer t = .ok layers ↔
      layers.map (·.dir) = (present t component overlays).map (overlayDir component) ∧
        ∀ layer ∈ layers, HasFragment t layer.dir layer.fragment := by
  have hsplit (l : List String) (layers : List Layer) :
      List.Forall₂ (fun o layer => overlayLayer t component o = .ok layer) l layers ↔
        layers.map (·.dir) = l.map (overlayDir component) ∧
          ∀ layer ∈ layers, HasFragment t layer.dir layer.fragment := by
    induction l generalizing layers with
    | nil =>
      rw [List.forall₂_nil_left_iff, List.map_nil, List.map_eq_nil_iff]
      exact ⟨fun h => ⟨h, by simp [h]⟩, And.left⟩
    | cons o l ih =>
      cases layers with
      | nil => simp
      | cons layer layers =>
        rw [List.forall₂_cons, overlayLayer_eq_ok_iff, ih, List.map_cons, List.map_cons,
          List.cons.injEq, List.forall_mem_cons]
        exact and_and_and_comm
  rw [answer_locateOverlays, mapM_eq_ok_iff, hsplit]

theorem exists_answer_locateOverlays_iff :
    (∃ layers, (locateOverlays component overlays).answer t = .ok layers) ↔
      ∀ overlay ∈ overlays, t.isDirectory (overlayDir component overlay) = true →
        ∃ f, HasFragment t (overlayDir component overlay) f := by
  rw [answer_locateOverlays, exists_mapM_iff]
  simp only [mem_present, exists_overlayLayer_iff, and_imp]

theorem answer_locateOverlays_eq_error_iff {e : LocateError} :
    (locateOverlays component overlays).answer t = .error e ↔
      ∃ overlay, Reaches t component overlays overlay ∧
        overlayLayer t component overlay = .error e := by
  rw [answer_locateOverlays, mapM_eq_error_iff]
  constructor
  · rintro ⟨_, overlay, _, hpresent, hbefore, he⟩
    obtain ⟨front, back, rfl, rfl, hback⟩ := List.filter_eq_append_iff.1 hpresent
    obtain ⟨skipped, after, rfl, hskipped, hdir, -⟩ := List.filter_eq_cons_iff.1 hback
    refine ⟨overlay, ⟨front ++ skipped, after, (List.append_assoc ..).symm, hdir, ?_⟩, he⟩
    intro earlier hearlier hearlierDir
    rcases List.mem_append.1 hearlier with hfront | hskip
    · exact exists_overlayLayer_iff.1 (hbefore earlier (mem_present.2 ⟨hfront, hearlierDir⟩))
    · exact absurd hearlierDir (hskipped earlier hskip)
  · rintro ⟨overlay, ⟨before, after, rfl, hdir, hbefore⟩, he⟩
    refine ⟨present t component before, overlay, present t component after, ?_, ?_, he⟩
    · rw [← present_cons_of_isDirectory hdir]
      exact List.filter_append ..
    · intro earlier hearlier
      obtain ⟨hmem, hearlierDir⟩ := mem_present.1 hearlier
      exact exists_overlayLayer_iff.2 (hbefore earlier hmem hearlierDir)

/-! ## Components -/

theorem answer_locate_eq_error_iff {e : LocateError} :
    (locate component overlays).answer t = .error e ↔
      (load component (baseDir component)).answer t = .error e ∨
      ((∃ f, HasFragment t (baseDir component) f) ∧
        (locateOverlays component overlays).answer t = .error e) ∨
      (LacksFragment t (baseDir component) ∧
        ((load component component).answer t = .error e ∨
          LacksFragment t component ∧ e = .missing component)) := by
  have hbase : (∃ f, HasFragment t (baseDir component) f) ↔
      ∃ f, (load component (baseDir component)).answer t = .ok (some f) :=
    exists_congr fun f => answer_load_eq_some_iff.symm
  have hlacks (dir : Path) :
      LacksFragment t dir ↔ (load component dir).answer t = .ok none :=
    answer_load_eq_none_iff.symm
  rw [hbase, hlacks, hlacks]
  cases hload : (load component (baseDir component)).answer t with
  | error e' =>
    rw [answer_locate_of_error hload]
    simp
  | ok base? =>
    cases base? with
    | none =>
      rw [answer_locate_of_no_base hload]
      rcases (load component component).answer t with e' | (_ | own) <;> simp [eq_comm]
    | some f =>
      rw [answer_locate_of_base hload]
      cases (locateOverlays component overlays).answer t <;> simp

theorem answer_locate_eq_missing_iff {c : Path} :
    (locate component overlays).answer t = .error (.missing c) ↔
      c = component ∧ LacksFragment t (baseDir component) ∧ LacksFragment t component := by
  have hload {dir : Path} : (load component dir).answer t ≠ .error (.missing c) := by
    intro h
    obtain ⟨cause, -, he⟩ := answer_load_eq_error_iff.1 h
    exact absurd he nofun
  have hoverlays : (locateOverlays component overlays).answer t ≠ .error (.missing c) := by
    intro h
    obtain ⟨overlay, -, he⟩ := answer_locateOverlays_eq_error_iff.1 h
    rcases overlayLayer_eq_error_iff.1 he with ⟨-, he⟩ | ⟨cause, -, he⟩ <;> exact absurd he nofun
  have hmissing : LocateError.missing c = .missing component ↔ c = component := by simp
  rw [answer_locate_eq_error_iff, hmissing, or_iff_right hload, or_iff_right fun h => hoverlays h.2,
    or_iff_right hload]
  tauto

theorem answer_locate_eq_missingOverlay_iff {c : Path} :
    (locate component overlays).answer t = .error (.missingOverlay overlay c) ↔
      c = component ∧ (∃ f, HasFragment t (baseDir component) f) ∧
        Reaches t component overlays overlay ∧
        LacksFragment t (overlayDir component overlay) := by
  have hload {dir : Path} : (load component dir).answer t ≠ .error (.missingOverlay overlay c) := by
    intro h
    obtain ⟨cause, -, he⟩ := answer_load_eq_error_iff.1 h
    exact absurd he nofun
  have hoverlays : (locateOverlays component overlays).answer t =
      .error (.missingOverlay overlay c) ↔ c = component ∧ Reaches t component overlays overlay ∧
        LacksFragment t (overlayDir component overlay) := by
    rw [answer_locateOverlays_eq_error_iff]
    constructor
    · rintro ⟨o, hreaches, he⟩
      rcases overlayLayer_eq_error_iff.1 he with ⟨hlacks, he⟩ | ⟨cause, -, he⟩
      · obtain ⟨rfl, rfl⟩ := LocateError.missingOverlay.inj he
        exact ⟨rfl, hreaches, hlacks⟩
      · exact absurd he nofun
    · rintro ⟨rfl, hreaches, hlacks⟩
      exact ⟨overlay, hreaches, overlayLayer_eq_error_iff.2 (.inl ⟨hlacks, rfl⟩)⟩
  rw [answer_locate_eq_error_iff, hoverlays]
  simp [hload, and_left_comm]

theorem answer_locate_eq_load_iff {c : Path} {cause : DocumentError} :
    (locate component overlays).answer t = .error (.load c ⟨dir, cause⟩) ↔
      c = component ∧ SpoilsFragment t dir cause ∧
        (dir = baseDir component ∨
          (LacksFragment t (baseDir component) ∧ dir = component) ∨
          (∃ f, HasFragment t (baseDir component) f) ∧
            ∃ overlay, Reaches t component overlays overlay ∧
              dir = overlayDir component overlay) := by
  have hload {d : Path} : (load component d).answer t = .error (.load c ⟨dir, cause⟩) ↔
      c = component ∧ SpoilsFragment t dir cause ∧ dir = d := by
    rw [answer_load_eq_error_iff]
    constructor
    · rintro ⟨cause, hspoils, he⟩
      obtain ⟨rfl, hcause⟩ := LocateError.load.inj he
      obtain ⟨rfl, rfl⟩ := Fragment.LoadError.mk.inj hcause
      exact ⟨rfl, hspoils, rfl⟩
    · rintro ⟨rfl, hspoils, rfl⟩
      exact ⟨cause, hspoils, rfl⟩
  have hoverlays : (locateOverlays component overlays).answer t =
      .error (.load c ⟨dir, cause⟩) ↔ c = component ∧ SpoilsFragment t dir cause ∧
        ∃ overlay, Reaches t component overlays overlay ∧ dir = overlayDir component overlay := by
    rw [answer_locateOverlays_eq_error_iff]
    constructor
    · rintro ⟨o, hreaches, he⟩
      rcases overlayLayer_eq_error_iff.1 he with ⟨-, he⟩ | ⟨cause, hspoils, he⟩
      · exact absurd he nofun
      · obtain ⟨rfl, hcause⟩ := LocateError.load.inj he
        obtain ⟨rfl, rfl⟩ := Fragment.LoadError.mk.inj hcause
        exact ⟨rfl, hspoils, o, hreaches, rfl⟩
    · rintro ⟨rfl, hspoils, o, hreaches, rfl⟩
      exact ⟨o, hreaches, overlayLayer_eq_error_iff.2 (.inr ⟨cause, hspoils, rfl⟩)⟩
  rw [answer_locate_eq_error_iff, hload, hload, hoverlays]
  constructor
  · rintro (⟨hc, hspoils, hdir⟩ | ⟨hbase, hc, hspoils, hreaches⟩ | ⟨hlacks, hown⟩)
    · exact ⟨hc, hspoils, .inl hdir⟩
    · exact ⟨hc, hspoils, .inr (.inr ⟨hbase, hreaches⟩)⟩
    · rcases hown with ⟨hc, hspoils, hdir⟩ | ⟨-, he⟩
      · exact ⟨hc, hspoils, .inr (.inl ⟨hlacks, hdir⟩)⟩
      · exact absurd he nofun
  · rintro ⟨hc, hspoils, hdir | ⟨hlacks, hdir⟩ | ⟨hbase, hreaches⟩⟩
    · exact .inl ⟨hc, hspoils, hdir⟩
    · exact .inr (.inr ⟨hlacks, .inl ⟨hc, hspoils, hdir⟩⟩)
    · exact .inr (.inl ⟨hbase, hc, hspoils, hreaches⟩)

/-- Which of its answers finding the layers gives. It changes nothing. -/
theorem locate_classifies (t : FileTree) (component : Path) (overlays : List String) :
    (locate component overlays).after t = t ∧
    ((∃ base layers, (locate component overlays).answer t = .ok (.layered base layers)) ↔
      (∃ f, HasFragment t (baseDir component) f) ∧
        ∀ overlay ∈ overlays, t.isDirectory (overlayDir component overlay) = true →
          ∃ f, HasFragment t (overlayDir component overlay) f) ∧
    (∀ base layers, (locate component overlays).answer t = .ok (.layered base layers) ↔
      (base.dir = baseDir component ∧ HasFragment t base.dir base.fragment) ∧
        layers.map (·.dir) = (present t component overlays).map (overlayDir component) ∧
        ∀ layer ∈ layers, HasFragment t layer.dir layer.fragment) ∧
    (∀ own, (locate component overlays).answer t = .ok (.final own) ↔
      LacksFragment t (baseDir component) ∧ HasFragment t component own) ∧
    (∀ c, (locate component overlays).answer t = .error (.missing c) ↔
      c = component ∧ LacksFragment t (baseDir component) ∧ LacksFragment t component) ∧
    (∀ overlay c, (locate component overlays).answer t = .error (.missingOverlay overlay c) ↔
      c = component ∧ (∃ f, HasFragment t (baseDir component) f) ∧
        Reaches t component overlays overlay ∧
        LacksFragment t (overlayDir component overlay)) ∧
    ∀ c dir cause, (locate component overlays).answer t = .error (.load c ⟨dir, cause⟩) ↔
      c = component ∧ SpoilsFragment t dir cause ∧
        (dir = baseDir component ∨
          (LacksFragment t (baseDir component) ∧ dir = component) ∨
          (∃ f, HasFragment t (baseDir component) f) ∧
            ∃ overlay, Reaches t component overlays overlay ∧
              dir = overlayDir component overlay) := by
  have hlayered (base : Layer) (layers : List Layer) :
      (locate component overlays).answer t = .ok (.layered base layers) ↔
        (base.dir = baseDir component ∧ HasFragment t base.dir base.fragment) ∧
          (locateOverlays component overlays).answer t = .ok layers := by
    rw [answer_locate_eq_layered_iff]
    obtain ⟨dir, f⟩ := base
    constructor
    · rintro ⟨f', hbase, hlayers, hlayer⟩
      obtain ⟨rfl, rfl⟩ := Layer.mk.inj hlayer
      exact ⟨⟨rfl, answer_load_eq_some_iff.1 hbase⟩, hlayers⟩
    · rintro ⟨⟨rfl, hbase⟩, hlayers⟩
      exact ⟨f, answer_load_eq_some_iff.2 hbase, hlayers, rfl⟩
  refine ⟨asks_locate component overlays t, ?_, fun base layers => ?_, fun own => ?_,
    fun c => answer_locate_eq_missing_iff, fun overlay c => answer_locate_eq_missingOverlay_iff,
    fun c dir cause => answer_locate_eq_load_iff⟩
  · rw [← exists_answer_locateOverlays_iff]
    constructor
    · rintro ⟨base, layers, h⟩
      obtain ⟨⟨hdir, hbase⟩, hlayers⟩ := (hlayered base layers).1 h
      exact ⟨⟨base.fragment, hdir ▸ hbase⟩, layers, hlayers⟩
    · rintro ⟨⟨f, hbase⟩, layers, hlayers⟩
      exact ⟨⟨_, f⟩, layers, (hlayered ⟨_, f⟩ layers).2 ⟨⟨rfl, hbase⟩, hlayers⟩⟩
  · rw [hlayered, answer_locateOverlays_eq_ok_iff]
  · rw [answer_locate_eq_final_iff, answer_load_eq_none_iff, answer_load_eq_some_iff]
    rfl

/-- An overlay that is asked for twice, one that is not there, and a directory without a fragment. -/
theorem locate_classifies_of_directories :
    ∃ t : FileTree,
      t = ⟨[([.ofString "app"], .directory),
        ([.ofString "app", .ofString "base"], .directory),
        ([.ofString "app", .ofString "base", .ofString "kustomization.yaml"], .file (.text "{}")),
        ([.ofString "app", .ofString "overlays"], .directory),
        ([.ofString "app", .ofString "overlays", .ofString "x"], .directory),
        ([.ofString "app", .ofString "overlays", .ofString "x", .ofString "kustomization.yaml"],
          .file (.text "{}")),
        ([.ofString "app", .ofString "overlays", .ofString "y"], .directory)], [], []⟩ ∧
      present t (.ofString "app") ["x", "z", "x"] = ["x", "x"] ∧
      (∃ base layers, (locate (.ofString "app") ["x", "z", "x"]).answer t =
        .ok (.layered base layers) ∧ layers.map (·.dir) =
          [overlayDir (.ofString "app") "x", overlayDir (.ofString "app") "x"]) ∧
      (locate (.ofString "app") ["x", "y", "x"]).answer t =
        .error (.missingOverlay "y" (.ofString "app")) := by
  let t : FileTree := ⟨[([.ofString "app"], .directory),
    ([.ofString "app", .ofString "base"], .directory),
    ([.ofString "app", .ofString "base", .ofString "kustomization.yaml"], .file (.text "{}")),
    ([.ofString "app", .ofString "overlays"], .directory),
    ([.ofString "app", .ofString "overlays", .ofString "x"], .directory),
    ([.ofString "app", .ofString "overlays", .ofString "x", .ofString "kustomization.yaml"],
      .file (.text "{}")),
    ([.ofString "app", .ofString "overlays", .ofString "y"], .directory)], [], []⟩
  have hparse : ∃ f, Fragment.parse "{}" = .ok f := by
    have hok : (Fragment.parse "{}").toOption.isSome = true := by decide +kernel
    cases h : Fragment.parse "{}" with
    | ok f => exact ⟨f, rfl⟩
    | error e => exact absurd (h ▸ hok) nofun
  have hfragment (dir : Path) (h : t.read (file dir) = .ok "{}") : ∃ f, HasFragment t dir f :=
    hparse.imp fun f hf => ⟨"{}", h, hf⟩
  have hbase := hfragment (baseDir (.ofString "app")) (by decide +kernel)
  have hx := hfragment (overlayDir (.ofString "app") "x") (by decide +kernel)
  obtain ⟨-, hlayered, hexact, -⟩ := locate_classifies t (.ofString "app") ["x", "z", "x"]
  obtain ⟨-, -, -, -, -, hmissing, -⟩ := locate_classifies t (.ofString "app") ["x", "y", "x"]
  have hpresent : present t (.ofString "app") ["x", "z", "x"] = ["x", "x"] := by decide +kernel
  have hothers : ∀ overlay ∈ ["x", "z", "x"],
      t.isDirectory (overlayDir (.ofString "app") overlay) = true →
        ∃ f, HasFragment t (overlayDir (.ofString "app") overlay) f := by
    intro overlay hoverlay hdir
    have hmem := mem_present.2 ⟨hoverlay, hdir⟩
    rw [hpresent] at hmem
    obtain rfl : overlay = "x" := by simpa using hmem
    exact hx
  have hreaches : Reaches t (.ofString "app") ["x", "y", "x"] "y" := by
    refine ⟨["x"], ["x"], rfl, by decide +kernel, fun earlier hearlier _ => ?_⟩
    obtain rfl := List.mem_singleton.1 hearlier
    exact hx
  have hy : LacksFragment t (overlayDir (.ofString "app") "y") := by
    unfold LacksFragment
    decide +kernel
  obtain ⟨base, layers, hlocate⟩ := hlayered.2 ⟨hbase, hothers⟩
  obtain ⟨-, hdirs, -⟩ := (hexact base layers).1 hlocate
  rw [hpresent] at hdirs
  exact ⟨t, rfl, hpresent, ⟨base, layers, hlocate, hdirs⟩,
    (hmissing _ _).2 ⟨rfl, hbase, hreaches, hy⟩⟩

end Component
end LayeredConfig
