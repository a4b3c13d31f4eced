/-
Finding the layers of a component changes nothing, and what is found is what is on disk.

Loading is a question about a single file (`answer_load_eq_some_iff`, `answer_load_eq_none_iff`), so
the answer of `locate` is known from what these files hold and from which overlays are directories.
-/
import LayeredConfig.Compose
import LayeredConfig.Proofs.Document

namespace LayeredConfig
namespace Component

open Fragment (file)

variable {t t' : FileTree} {component dir : Path} {overlays : List String}
variable {base layer : Layer} {layers : List Layer}

/-! ## Fragments of directories -/

theorem asks_load (component dir : Path) : (load component dir).Asks :=
  (Fragment.asks_load dir).explain _

theorem answer_load_eq_some_iff {f : Fragment} :
    (load component dir).answer t = .ok (some f) ↔
      ∃ s, t.read (file dir) = .ok s ∧ Fragment.parse s = .ok f := by
  rw [load, Files.answer_explain_eq_ok_iff, Fragment.answer_load_eq_some_iff]

theorem answer_load_eq_none_iff :
    (load component dir).answer t = .ok none ↔ t.read (file dir) = .error .notFound := by
  rw [load, Files.answer_explain_eq_ok_iff, Fragment.answer_load_eq_none_iff]

/-- A directory with a fragment is there. -/
theorem exists_walk_of_load {f : Fragment} (h : (load component dir).answer t = .ok (some f)) :
    ∃ loc, t.walk dir.parts = .ok loc ∧ t.get? loc = some .directory := by
  obtain ⟨s, hread, -⟩ := answer_load_eq_some_iff.1 h
  obtain ⟨loc, hfind, -, -⟩ := FileTree.read_eq_ok_iff.1 hread
  obtain ⟨base, hwalk, hbase, -⟩ := FileTree.find_join_name (by decide) hfind
  exact ⟨base, hwalk, hbase⟩

/-! ## Overlays -/

theorem asks_locateOverlays (component : Path) (overlays : List String) :
    (locateOverlays component overlays).Asks := by
  induction overlays with
  | nil => exact .pure _
  | cons overlay rest ih =>
    rw [locateOverlays]
    refine .bind (.isDirectory _) fun b => ?_
    cases b with
    | false => exact ih
    | true =>
      refine .bind (asks_load component _) fun f? => ?_
      cases f? with
      | none => exact .throw _
      | some f => exact .bind ih fun _ => .pure _

theorem answer_locateOverlays_cons_of_not_isDirectory {overlay : String}
    (h : t.isDirectory (overlayDir component overlay) = false) (rest : List String) :
    (locateOverlays component (overlay :: rest)).answer t =
      (locateOverlays component rest).answer t := by
  rw [locateOverlays, (Files.Asks.isDirectory _).answer_bind, Files.answer_isDirectory, h]
  rfl

theorem answer_locateOverlays_cons_eq_ok_iff {overlay : String} {rest : List String}
    (h : t.isDirectory (overlayDir component overlay) = true) :
    (locateOverlays component (overlay :: rest)).answer t = .ok layers ↔
      ∃ f others, (load component (overlayDir component overlay)).answer t = .ok (some f) ∧
        (locateOverlays component rest).answer t = .ok others ∧
        layers = ⟨overlayDir component overlay, f⟩ :: others := by
  rw [locateOverlays, (Files.Asks.isDirectory _).answer_bind, Files.answer_isDirectory, h, ok_bind,
    if_pos rfl, (asks_load component _).answer_bind, bind_eq_ok_iff]
  constructor
  · rintro ⟨f?, hload, hrest⟩
    cases f? with
    | none => exact absurd hrest (by simp)
    | some f =>
      obtain ⟨others, hothers, hlayers⟩ := bind_eq_ok_iff.1
        (((asks_locateOverlays component rest).answer_bind _ t).symm.trans hrest)
      exact ⟨f, others, hload, hothers, (Except.ok.inj hlayers).symm⟩
  · rintro ⟨f, others, hload, hothers, rfl⟩
    refine ⟨some f, hload, ?_⟩
    refine ((asks_locateOverlays component rest).answer_bind _ t).trans ?_
    rw [hothers]
    rfl

/-- The same overlays are found in a tree in which they are directories likewise and have the same
fragments. -/
theorem answer_locateOverlays_congr (h : (locateOverlays component overlays).answer t = .ok layers)
    (hdirs : t.SameDirectories t')
    (hread : ∀ layer ∈ layers, t'.read (file layer.dir) = t.read (file layer.dir)) :
    (locateOverlays component overlays).answer t' = .ok layers := by
  induction overlays generalizing layers with
  | nil => exact h
  | cons overlay rest ih =>
    have hdir := hdirs.isDirectory_eq (overlayDir component overlay)
    cases hd : t.isDirectory (overlayDir component overlay) with
    | false =>
      rw [answer_locateOverlays_cons_of_not_isDirectory hd] at h
      rw [answer_locateOverlays_cons_of_not_isDirectory (hdir.trans hd)]
      exact ih h hread
    | true =>
      obtain ⟨f, others, hload, hothers, rfl⟩ := (answer_locateOverlays_cons_eq_ok_iff hd).1 h
      refine (answer_locateOverlays_cons_eq_ok_iff (hdir.trans hd)).2 ⟨f, others, ?_, ?_, rfl⟩
      · rw [answer_load_eq_some_iff] at hload ⊢
        rwa [hread ⟨_, f⟩ List.mem_cons_self]
      · exact ih hothers fun layer hlayer => hread layer (List.mem_cons_of_mem _ hlayer)

theorem mem_locateOverlays (h : (locateOverlays component overlays).answer t = .ok layers)
    (hlayer : layer ∈ layers) :
    (∃ overlay ∈ overlays, layer.dir = overlayDir component overlay) ∧
      (load component layer.dir).answer t = .ok (some layer.fragment) := by
  induction overlays generalizing layers with
  | nil =>
    obtain rfl := Except.ok.inj h
    exact absurd hlayer List.not_mem_nil
  | cons overlay rest ih =>
    have hrest {layers : List Layer} (h : (locateOverlays component rest).answer t = .ok layers)
        (hlayer : layer ∈ layers) :
        (∃ o ∈ overlay :: rest, layer.dir = overlayDir component o) ∧
          (load component layer.dir).answer t = .ok (some layer.fragment) := by
      obtain ⟨⟨o, ho, hdir⟩, hload⟩ := ih h hlayer
      exact ⟨⟨o, List.mem_cons_of_mem _ ho, hdir⟩, hload⟩
    cases hd : t.isDirectory (overlayDir component overlay) with
    | false =>
      rw [answer_locateOverlays_cons_of_not_isDirectory hd] at h
      exact hrest h hlayer
    | true =>
      obtain ⟨f, others, hload, hothers, rfl⟩ := (answer_locateOverlays_cons_eq_ok_iff hd).1 h
      rcases List.mem_cons.1 hlayer with rfl | hlayer
      · exact ⟨⟨overlay, List.mem_cons_self, rfl⟩, hload⟩
      · exact hrest hothers hlayer

/-! ## Components -/

theorem asks_locate (component : Path) (overlays : List String) :
    (locate component overlays).Asks := by
  rw [locate]
  refine .bind (asks_load component _) fun base? => ?_
  cases base? with
  | some base => exact .bind (asks_locateOverlays component overlays) fun _ => .pure _
  | none =>
    refine .bind (asks_load component component) fun own? => ?_
    cases own? with
    | some own => exact .pure _
    | none => exact .throw _

theorem answer_locate_of_error {e : LocateError}
    (h : (load component (baseDir component)).answer t = .error e) (overlays : List String) :
    (locate component overlays).answer t = .error e := by
  rw [locate, (asks_load component _).answer_bind, h]
  rfl

theorem answer_locate_of_base {f : Fragment}
    (h : (load component (baseDir component)).answer t = .ok (some f)) (overlays : List String) :
    (locate component overlays).answer t =
      ((locateOverlays component overlays).answer t).map (.layered ⟨baseDir component, f⟩) := by
  rw [locate, (asks_load component _).answer_bind, h]
  refine ((asks_locateOverlays component overlays).answer_bind _ t).trans ?_
  cases (locateOverlays component overlays).answer t <;> rfl

theorem answer_locate_of_no_base (h : (load component (baseDir component)).answer t = .ok none)
    (overlays : List String) :
    (locate component overlays).answer t =
      ((load component component).answer t >>= fun
        | some own => .ok (.final own)
        | none => .error (.missing component)) := by
  rw [locate, (asks_load component _).answer_bind, h]
  refine ((asks_load component component).answer_bind _ t).trans ?_
  congr 1
  funext own?
  cases own? <;> rfl

theorem answer_locate_eq_layered_iff :
    (locate component overlays).answer t = .ok (.layered base layers) ↔
      ∃ f, (load component (baseDir component)).answer t = .ok (some f) ∧
        (locateOverlays component overlays).answer t = .ok layers ∧
        base = ⟨baseDir component, f⟩ := by
  cases hload : (load component (baseDir component)).answer t with
  | error e =>
    rw [answer_locate_of_error hload]
    simp
  | ok base? =>
    cases base? with
    | none =>
      rw [answer_locate_of_no_base hload]
      rcases (load component component).answer t with e | (_ | own) <;> simp
    | some f =>
      rw [answer_locate_of_base hload, map_eq_ok_iff]
      constructor
      · rintro ⟨ls, hls, hlocated⟩
        obtain ⟨rfl, rfl⟩ := Located.layered.inj hlocated
        exact ⟨f, rfl, hls, rfl⟩
      · rintro ⟨f', hf', hls, rfl⟩
        obtain rfl : f = f' := Option.some.inj (Except.ok.inj hf')
        exact ⟨layers, hls, rfl⟩

theorem answer_locate_eq_final_iff {own : Fragment} :
    (locate component overlays).answer t = .ok (.final own) ↔
      (load component (baseDir component)).answer t = .ok none ∧
        (load component component).answer t = .ok (some own) := by
  cases hload : (load component (baseDir component)).answer t with
  | error e =>
    rw [answer_locate_of_error hload]
    simp
  | ok base? =>
    cases base? with
    | none =>
      rw [answer_locate_of_no_base hload]
      rcases (load component component).answer t with e | (_ | own') <;> simp
    | some f =>
      rw [answer_locate_of_base hload, map_eq_ok_iff]
      simp

theorem mem_located (h : (locate component overlays).answer t = .ok (.layered base layers))
    (hlayer : layer ∈ base :: layers) :
    (layer.dir = baseDir component ∨
        ∃ overlay ∈ overlays, layer.dir = overlayDir component overlay) ∧
      (load component layer.dir).answer t = .ok (some layer.fragment) := by
  obtain ⟨f, hbase, hlayers, rfl⟩ := answer_locate_eq_layered_iff.1 h
  rcases List.mem_cons.1 hlayer with rfl | hlayer
  · exact ⟨.inl rfl, hbase⟩
  · obtain ⟨hdir, hload⟩ := mem_locateOverlays hlayers hlayer
    exact ⟨.inr hdir, hload⟩

/-- The same layers are found in a tree in which the overlays are directories likewise and the
fragments are the same. -/
theorem answer_locate_congr (h : (locate component overlays).answer t = .ok (.layered base layers))
    (hdirs : t.SameDirectories t')
    (hread : ∀ layer ∈ base :: layers, t'.read (file layer.dir) = t.read (file layer.dir)) :
    (locate component overlays).answer t' = .ok (.layered base layers) := by
  obtain ⟨f, hbase, hlayers, rfl⟩ := answer_locate_eq_layered_iff.1 h
  refine answer_locate_eq_layered_iff.2 ⟨f, ?_, ?_, rfl⟩
  · rw [answer_load_eq_some_iff] at hbase ⊢
    rwa [hread ⟨_, f⟩ List.mem_cons_self]
  · exact answer_locateOverlays_congr hlayers hdirs fun layer hlayer =>
      hread layer (List.mem_cons_of_mem _ hlayer)

end Component
end LayeredConfig
