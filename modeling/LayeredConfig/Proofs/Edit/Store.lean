/-
Config maps as a store: the value that is set last is the one that is kept.

Setting parameters registers the config map of each application once and leaves everything else
alone (`ConfigMap.Kept`). So setting a value again changes nothing, and values of different
parameters of one application can be set in either order (`ConfigMap.injectAll_kept`).
-/
import LayeredConfig.Proofs.Edit.Ready
import Mathlib

namespace LayeredConfig

variable {t t' start : FileTree} {dir : Path} {l l' : List Setting} {s : Setting}
variable {f : Fragment} {m : ConfigMap} {app : String}

namespace Edit

theorem files_map_setting (l : List Setting) :
    files (l.map setting) = l.map fun s => ConfigMap.fileFor s.app := by
  rw [files, settings_map_setting]

theorem revised_map_setting (f : Fragment) (l : List Setting) : revised f (l.map setting) =
    { f with strategicPatches := f.strategicPatches ++
      (l.map fun s => ConfigMap.fileFor s.app).eraseDups.filter (· ∉ f.strategicPatches) } := by
  rw [revised_eq, packages_map_setting, files_map_setting, Fragment.addMissing_eq]
  rfl

/-- A fragment in which something has been registered is not missing. -/
theorem mem_strategicPatches_of_called (hs : s ∈ l) (f : Fragment) :
    ConfigMap.fileFor s.app ∈ (revised f (l.map setting)).strategicPatches := by
  refine mem_strategicPatches_revised.2 (.inr ?_)
  rw [files_map_setting]
  exact List.mem_map_of_mem hs

/-- Edits that ask for entries that are asked for already write the fragment no more. -/
theorem fragments_append_of_mem (hs : s ∈ l) (f : Fragment) :
    fragments f ((l ++ [s]).map setting) = fragments f (l.map setting) := by
  have hmem := mem_strategicPatches_of_called hs f
  have hsettled : (setting s).rewrites (revised f (l.map setting)) = false := by
    rw [rewrites, Fragment.addStrategicPatch, Fragment.addOnce_eq]
    simp [hmem]
  rw [List.map_append, List.map_singleton, fragments_append, fragments_singleton, hsettled]
  exact List.append_nil _

/-- The fragments are a matter of which applications are called. -/
theorem fragments_congr (h : l'.map (·.app) = l.map (·.app)) (f : Fragment) :
    fragments f (l'.map setting) = fragments f (l.map setting) := by
  induction l generalizing l' f with
  | nil =>
    rw [List.map_eq_nil_iff.1 h]
  | cons s l ih =>
    obtain ⟨s', l'', rfl, happ, hrest⟩ := List.map_eq_cons_iff.1 h
    have hrevise : (setting s').revise f = (setting s).revise f := by simp only [revise, happ]
    have hrewrites : (setting s').rewrites f = (setting s).rewrites f := by
      simp only [rewrites, happ]
    rw [List.map_cons, List.map_cons, fragments, fragments, hrevise, hrewrites, ih hrest]

end Edit

namespace Setting

theorem last?_append (l l' : List Setting) (app param : String) :
    last? (l ++ l') app param = (last? l' app param).or (last? l app param) := by
  simp only [last?, List.filter_append, List.getLast?_append]
  cases (l'.filter fun s => s.app = app ∧ s.param = param).getLast? <;> simp

/-- Setting the value that is there already changes none. -/
theorem last?_append_of_last? (hlast : last? l s.app s.param = some s.value) (app param : String) :
    last? (l ++ [s]) app param = last? l app param := by
  rw [last?_append_singleton]
  split
  · rename_i heq
    rw [← heq.1, ← heq.2, hlast]
  · rfl

/-- Where no values are there are no settings. -/
theorem eq_nil_of_last? (h : ∀ app param, last? l' app param = last? l app param) (hnil : l = []) :
    l' = [] := by
  refine List.eq_nil_iff_forall_not_mem.2 fun s hs => ?_
  refine (forall_ne_iff_of_last? (h s.app)).2 (fun s' hs' => ?_) s hs rfl
  rw [hnil] at hs'
  exact absurd hs' List.not_mem_nil

theorem last?_swap {l₁ l₂ : List Setting} {s₁ s₂ : Setting} (hne : s₁.param ≠ s₂.param)
    (app param : String) :
    last? (l₁ ++ s₂ :: s₁ :: l₂) app param = last? (l₁ ++ s₁ :: s₂ :: l₂) app param := by
  have hpair : last? [s₂, s₁] app param = last? [s₁, s₂] app param := by
    by_cases h₁ : s₁.app = app ∧ s₁.param = param
    · have h₂ : ¬ (s₂.app = app ∧ s₂.param = param) := fun h₂ => hne (h₁.2.trans h₂.2.symm)
      simp [last?, h₁, h₂]
    · simp [last?, List.filter_cons, h₁]
  have hsplit (a b : Setting) : l₁ ++ a :: b :: l₂ = l₁ ++ ([a, b] ++ l₂) := rfl
  rw [hsplit, hsplit, last?_append, last?_append, last?_append, last?_append, hpair]

end Setting

namespace ConfigMap

/-- A config map that is set to what it holds is not a new one. -/
theorem mem_versions_of_append (hs : s ∈ l)
    (hlast : Setting.last? l s.app s.param = some s.value) {k : ConfigMap}
    (hk : k ∈ versions app m (l ++ [s])) : k ∈ versions app m l := by
  rw [versions_append, versions_singleton] at hk
  rcases List.mem_append.1 hk with hk | hk
  · exact hk
  by_cases happ : s.app = app
  · subst happ
    rw [if_pos rfl, List.mem_singleton] at hk
    have hsame : setAll s.app m (l ++ [s]) = setAll s.app m l :=
      setAll_congr m (Setting.last?_append_of_last? hlast s.app)
    rw [setAll_append, setAll_singleton, if_pos rfl] at hsame
    rw [hk, hsame]
    refine List.mem_of_getLast? ?_
    rw [getLast?_versions, if_neg fun hne => hne s hs rfl]
  · rw [if_neg happ] at hk
    exact absurd hk List.not_mem_nil

/-- Sets parameters one after the other. -/
def injectAll (dir : Path) (l : List Setting) : Files InjectError Unit :=
  l.forM fun s => inject dir s.app s.param s.value

theorem run_injectAll_eq_ok_iff : (injectAll dir l).run t = .ok () t' ↔
    (Edit.performAll dir (l.map .setting)).run t = .ok () t' := by
  induction l generalizing t with
  | nil =>
    show EStateM.Result.ok () t = .ok () t' ↔ EStateM.Result.ok () t = .ok () t'
    simp
  | cons s l ih =>
    have hcons : injectAll dir (s :: l) =
        (inject dir s.app s.param s.value >>= fun _ => injectAll dir l) := rfl
    have hcons' : Edit.performAll dir ((s :: l).map .setting) =
        (Edit.perform dir (.setting s) >>= fun _ => Edit.performAll dir (l.map .setting)) := rfl
    rw [hcons, hcons', Files.run_bind_eq_ok_iff, Files.run_bind_eq_ok_iff]
    simp only [ih, Edit.perform, Files.run_explain_eq_ok_iff]

theorem run_injectAll_append_singleton_iff :
    (injectAll dir (l ++ [s])).run t = .ok () t' ↔
      ∃ mid, (injectAll dir l).run t = .ok () mid ∧
        (inject dir s.app s.param s.value).run mid = .ok () t' := by
  have happend : injectAll dir (l ++ [s]) = (injectAll dir l >>= fun _ => injectAll dir [s]) :=
    List.forM_append
  have hsingle : injectAll dir [s] = inject dir s.app s.param s.value := bind_pure_unit
  rw [happend, hsingle, Files.run_bind_eq_ok_iff]
  exact ⟨fun ⟨⟨⟩, mid, hruns⟩ => ⟨mid, hruns⟩, fun ⟨mid, hruns⟩ => ⟨(), mid, hruns⟩⟩

theorem plain_map_setting (h : ∀ s ∈ l, s.Plain) : ∀ e ∈ l.map Edit.setting, e.Plain := by
  intro e he
  obtain ⟨s, hs, rfl⟩ := List.mem_map.1 he
  exact h s hs

/-- Settings that register the same and leave the same values can be made in place of others. -/
theorem exists_run_injectAll (hplain : ∀ s ∈ l, s.Plain) (hplain' : ∀ s ∈ l', s.Plain)
    (hback : Edit.ReadBack dir (l.map .setting) ((Files.makeDirectory dir).after t))
    (hback' : Edit.ReadBack dir (l'.map .setting) ((Files.makeDirectory dir).after t))
    (hfragments : ∀ f, Edit.fragments f (l'.map .setting) = Edit.fragments f (l.map .setting))
    (hlast : ∀ app param, Setting.last? l' app param = Setting.last? l app param)
    (h : (injectAll dir l).run t = .ok () t') :
    ∃ t'', (injectAll dir l').run t = .ok () t'' ∧ ∀ loc, t''.get? loc = t'.get? loc := by
  by_cases hnil : l = []
  · rw [hnil] at h
    exact ⟨t', Setting.eq_nil_of_last? hlast hnil ▸ h, fun loc => rfl⟩
  have hnil' : l' ≠ [] := fun h' =>
    hnil (Setting.eq_nil_of_last? (fun app param => (hlast app param).symm) h')
  have hedits := plain_map_setting hplain
  have hedits' := plain_map_setting hplain'
  obtain ⟨start, hmake, hsteps⟩ := (Edit.run_performAll_eq_ok_iff hedits (by simpa using hnil)).1
    (run_injectAll_eq_ok_iff.1 h)
  rw [Files.after_of_run_ok hmake] at hback hback'
  obtain ⟨f, hf⟩ := hsteps.exists_currentIn (by simpa using hnil)
  have hready := (Edit.exists_steps_iff hedits hback hf).1 ⟨t', hsteps⟩
  have hready' : Edit.Ready dir (l'.map .setting) start := by
    refine hready.of_fragments hfragments fun s hs => ?_
    rw [Edit.settings_map_setting] at hs ⊢
    by_contra hnot
    push Not at hnot
    exact (Setting.forall_ne_iff_of_last? (hlast s.app)).2 hnot s hs rfl
  obtain ⟨t'', hsteps'⟩ := (Edit.exists_steps_iff hedits' hback' hf).2 hready'
  refine ⟨t'', run_injectAll_eq_ok_iff.2 ?_, fun loc => ?_⟩
  · exact (Edit.run_performAll_eq_ok_iff hedits' (by simpa using hnil')).2 ⟨start, hmake, hsteps'⟩
  · refine hsteps.get?_eq hedits hedits' hback hback' hsteps' hf ?_ ?_ loc
    · rw [hfragments]
    · simpa using hlast

theorem readBack_append (hs : s ∈ l) (hlast : Setting.last? l s.app s.param = some s.value)
    (hback : Edit.ReadBack dir (l.map .setting) t) :
    Edit.ReadBack dir ((l ++ [s]).map .setting) t := by
  refine ⟨fun f hf g hg => ?_, fun s' hs' m hm k hk => ?_⟩
  · rw [Edit.fragments_append_of_mem hs] at hg
    exact hback.fragment f hf g hg
  · rw [Edit.settings_map_setting] at hk
    refine hback.versions hm k ?_
    rw [Edit.settings_map_setting]
    exact mem_versions_of_append hs hlast hk

/-! ## What is kept -/

/-- What becomes of a directory in which parameters are set. -/
structure Kept (dir : Path) (l : List Setting) (t t' : FileTree) : Prop where
  fragment : ∃ f? f missing, (Fragment.load dir).answer t = .ok f? ∧ f = f?.getD .blank ∧
    missing = (l.map fun s => fileFor s.app).eraseDups.filter (· ∉ f.strategicPatches) ∧
    (Fragment.load dir).answer t' =
      .ok (some { f with strategicPatches := f.strategicPatches ++ missing }) ∧
    (missing = [] → ∀ loc, t.find (Fragment.file dir) = .ok loc → t'.get? loc = t.get? loc)
  configMap : ∀ s ∈ l, Updated dir s.app l t t'
  changed : t.ChangedAt (fun loc => t.find (Fragment.file dir) = .ok loc ∨
    ∃ s ∈ l, t.find (file dir s.app) = .ok loc) t'

theorem kept_of_steps (hplain : ∀ s ∈ l, s.Plain) (hnil : l ≠ [])
    (hback : Edit.ReadBack dir (l.map .setting) t)
    (h : Edit.Steps dir (l.map .setting) t t') : Kept dir l t t' := by
  have hedits := plain_map_setting hplain
  obtain ⟨f, hf⟩ := h.exists_currentIn (by simpa using hnil)
  refine ⟨?_, fun s hs => ?_, h.changedAt.mono fun loc hloc => hloc.imp_right ?_⟩
  · obtain ⟨hwritten, hafter⟩ := h.fragment hedits hf (hback.fragment f hf)
    obtain ⟨f', hload', hrevised⟩ := Fragment.currentIn_iff.1 hafter
    obtain ⟨f?, hload, hf?⟩ := Fragment.currentIn_iff.1 hf
    refine ⟨f?, f, _, hload, hf?.symm, rfl, ?_, fun hmissing loc hfind => ?_⟩
    · rw [← Edit.revised_map_setting, ← hrevised]
      cases f' with
      | some f' => exact hload'
      | none =>
        -- A blank fragment would have nothing registered.
        obtain ⟨s, hs⟩ := List.exists_mem_of_ne_nil l hnil
        have hmem := Edit.mem_strategicPatches_of_called hs f
        rw [← hrevised] at hmem
        exact absurd hmem List.not_mem_nil
    · have hsettled : Edit.Settled f (l.map .setting) := by
        refine ⟨Edit.packages_map_setting l, fun name hname => ?_⟩
        rw [Edit.files_map_setting] at hname
        simpa [hname] using List.filter_eq_nil_iff.1 hmissing name
      rw [Edit.fragments_eq_nil_iff.2 hsettled] at hwritten
      exact hwritten.unchanged hfind
  · have hupdated := h.updated hedits hback hf (s := s) (by rwa [Edit.settings_map_setting])
    rwa [Edit.settings_map_setting] at hupdated
  · rintro ⟨s, hs, hfind⟩
    exact ⟨s, by simpa using hs, hfind⟩

/-- Parameters that are set in config maps are kept as they are set last. -/
theorem injectAll_kept (hplain : ∀ s ∈ l, s.Plain)
    (hback : Edit.ReadBack dir (l.map .setting) ((Files.makeDirectory dir).after t))
    (h : (injectAll dir l).run t = .ok () t') :
    (l = [] → t' = t) ∧
    (l ≠ [] → ∃ start, Edit.Start dir (l.map .setting) t start ∧ Kept dir l start t') ∧
    (∀ s ∈ l, Setting.last? l s.app s.param = some s.value →
      ∃ t'', (inject dir s.app s.param s.value).run t' = .ok () t'' ∧
        ∀ loc, t''.get? loc = t'.get? loc) ∧
    ∀ l₁ s₁ s₂ l₂, l = l₁ ++ s₁ :: s₂ :: l₂ → s₁.app = s₂.app → s₁.param ≠ s₂.param →
      Edit.ReadBack dir ((l₁ ++ s₂ :: s₁ :: l₂).map .setting) ((Files.makeDirectory dir).after t) →
      ∃ t'', (injectAll dir (l₁ ++ s₂ :: s₁ :: l₂)).run t = .ok () t'' ∧
        ∀ loc, t''.get? loc = t'.get? loc := by
  have hedits := plain_map_setting hplain
  refine ⟨?none, fun hnil => ?some, fun s hs hlast => ?again, ?swap⟩
  case none =>
    rintro rfl
    exact (EStateM.Result.ok.inj h).2.symm
  case some =>
    have hne : l.map Edit.setting ≠ [] := by simpa using hnil
    obtain ⟨start, hmake, hsteps⟩ :=
      (Edit.run_performAll_eq_ok_iff hedits hne).1 (run_injectAll_eq_ok_iff.1 h)
    rw [Files.after_of_run_ok hmake] at hback
    exact ⟨start, .of_run hedits hne hback hmake hsteps, kept_of_steps hplain hnil hback hsteps⟩
  case again =>
    have hplain' : ∀ s' ∈ l ++ [s], s'.Plain := by
      intro s' hs'
      rcases List.mem_append.1 hs' with hs' | hs'
      · exact hplain s' hs'
      · exact List.mem_singleton.1 hs' ▸ hplain s hs
    obtain ⟨t'', hrun, hget⟩ := exists_run_injectAll hplain hplain' hback
      (readBack_append hs hlast hback) (Edit.fragments_append_of_mem hs)
      (Setting.last?_append_of_last? hlast) h
    obtain ⟨mid, hfirst, hagain⟩ := run_injectAll_append_singleton_iff.1 hrun
    obtain ⟨-, rfl⟩ := EStateM.Result.ok.inj (hfirst.symm.trans h)
    exact ⟨t'', hagain, hget⟩
  case swap =>
    rintro l₁ s₁ s₂ l₂ rfl happ hparam hback'
    have hplain' : ∀ s ∈ l₁ ++ s₂ :: s₁ :: l₂, s.Plain := fun s hs =>
      hplain s (by simp only [List.mem_append, List.mem_cons] at hs ⊢; tauto)
    refine exists_run_injectAll hplain hplain' hback hback' (Edit.fragments_congr ?_)
      (Setting.last?_swap hparam) h
    simp [happ]

/-- Two parameters of an application of which nothing is there yet. -/
theorem injectAll_kept_of_two :
    ∃ (t t' : FileTree) (l : List Setting),
      t = ⟨[([.ofString "d"], .directory),
        ([.ofString "d", .ofString "kustomization.yaml"], .file (.text "resources:\n- x\n"))], [], []⟩ ∧
      t' = ⟨[([.ofString "d"], .directory),
        ([.ofString "d", .ofString "kustomization.yaml"],
          .file (.text "patchesStrategicMerge:\n- a-config.yaml\nresources:\n- x\n")),
        ([.ofString "d", .ofString "a-config.yaml"],
          .file (.text ("apiVersion: v1\nkind: ConfigMap\ndata:\n  p: '1'\n  q: '2'\n" ++
            "metadata:\n  name: a-config\n")))], [], []⟩ ∧
      l = [⟨"a", "p", "1"⟩, ⟨"a", "q", "2"⟩] ∧
      (∀ s ∈ l, s.Plain) ∧
      Edit.ReadBack (.ofString "d") (l.map .setting)
        ((Files.makeDirectory (.ofString "d")).after t) ∧
      (injectAll (.ofString "d") l).run t = .ok () t' ∧
      (∃ start, Edit.Start (.ofString "d") (l.map .setting) t start ∧
        Kept (.ofString "d") l start t') ∧
      (∃ t'', (inject (.ofString "d") "a" "q" "2").run t' = .ok () t'' ∧
        ∀ loc, t''.get? loc = t'.get? loc) ∧
      ∃ t'', (injectAll (.ofString "d") l.reverse).run t = .ok () t'' ∧
        ∀ loc, t''.get? loc = t'.get? loc := by
  let t : FileTree := ⟨[([.ofString "d"], .directory),
    ([.ofString "d", .ofString "kustomization.yaml"], .file (.text "resources:\n- x\n"))], [], []⟩
  let t' : FileTree := ⟨[([.ofString "d"], .directory),
    ([.ofString "d", .ofString "kustomization.yaml"],
      .file (.text "patchesStrategicMerge:\n- a-config.yaml\nresources:\n- x\n")),
    ([.ofString "d", .ofString "a-config.yaml"],
      .file (.text ("apiVersion: v1\nkind: ConfigMap\ndata:\n  p: '1'\n  q: '2'\n" ++
        "metadata:\n  name: a-config\n")))], [], []⟩
  let dir : Path := .ofString "d"
  let s₁ : Setting := ⟨"a", "p", "1"⟩
  let s₂ : Setting := ⟨"a", "q", "2"⟩
  have hf : Fragment.CurrentIn dir t { resources := ["x"] } :=
    .of_read (s := "resources:\n- x\n") (by decide +kernel) (by decide +kernel)
  have hm : CurrentIn dir "a" t (blank "a") := .of_missing (by decide +kernel)
  have hstart : (Files.makeDirectory dir).after t = t :=
    Files.after_of_run_ok (Files.run_makeDirectory_of_isDirectory (by decide +kernel))
  have hfragment : Fragment.ReadsBack
      { resources := ["x"], strategicPatches := ["a-config.yaml"] } := by decide +kernel
  have hp : ((blank "a").setText "p" "1").ReadsBack := by decide +kernel
  have hq : ((blank "a").setText "q" "2").ReadsBack := by decide +kernel
  have hpq : (((blank "a").setText "p" "1").setText "q" "2").ReadsBack := by decide +kernel
  have hqp : setAll "a" (blank "a") [s₁, s₂] = setAll "a" (blank "a") [s₂, s₁] :=
    setAll_congr _ (@Setting.last?_swap [] [] s₂ s₁ (by decide) "a")
  have hback (l : List Setting) (hl : l = [s₁, s₂] ∨ l = [s₂, s₁]) :
      Edit.ReadBack dir (l.map .setting) ((Files.makeDirectory dir).after t) := by
    rw [hstart]
    constructor
    · intro f hf' g hg
      obtain rfl := hf'.unique hf
      have hwritten : Edit.fragments { resources := ["x"] } (l.map .setting) =
          [{ resources := ["x"], strategicPatches := ["a-config.yaml"] }] := by
        rcases hl with rfl | rfl <;> rfl
      rw [hwritten, List.mem_singleton] at hg
      exact hg ▸ hfragment
    · intro s hs m hm' k hk
      rw [Edit.settings_map_setting] at hs hk
      have happ : s.app = "a" := by
        rcases hl with rfl | rfl <;> simp only [List.mem_cons, List.not_mem_nil, or_false] at hs <;>
          rcases hs with rfl | rfl <;> rfl
      rw [happ] at hm' hk
      obtain rfl := hm'.unique hm
      rcases hl with rfl | rfl
      · rcases List.mem_pair.1 hk with rfl | rfl
        · exact hp
        · exact hpq
      · rcases List.mem_pair.1 hk with rfl | rfl
        · exact hq
        · show (setAll "a" (blank "a") [s₂, s₁]).ReadsBack
          rw [← hqp]
          exact hpq
  have hplain : ∀ s ∈ [s₁, s₂], s.Plain := by decide
  have hrun : (injectAll dir [s₁, s₂]).run t = .ok () t' :=
    Files.run_eq_ok_iff.2 (by decide +kernel)
  obtain ⟨-, hkept, hagain, hswap⟩ := injectAll_kept hplain (hback _ (.inl rfl)) hrun
  exact ⟨t, t', [s₁, s₂], rfl, rfl, rfl, hplain, hback _ (.inl rfl), hrun, hkept (by simp),
    hagain s₂ (by simp) rfl, hswap [] s₁ s₂ [] rfl rfl (by decide) (hback _ (.inr rfl))⟩
end ConfigMap
end LayeredConfig
