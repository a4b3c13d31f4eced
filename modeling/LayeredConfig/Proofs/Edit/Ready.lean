/-
Which edits can be performed, and when two lists of edits come to the same.

Both are seen in the tree that the edits start from, given that what they write reads back: an edit
finds there what it needs or gets it from an earlier one (`Edit.exists_steps_iff`), and only what is
written last into a file counts (`Edit.Steps.get?_eq`).
-/
import LayeredConfig.Proofs.Edit.Run

namespace LayeredConfig

variable {t t' mid u u' : FileTree} {dir : Path} {e : Edit} {edits edits' : List Edit}
variable {s : Setting} {f : Fragment} {m : ConfigMap} {app : String}

/-- The config map of an application has other texts, set last in a list of settings, and is
otherwise as it was. -/
def ConfigMap.Updated (dir : Path) (app : String) (l : List Setting) (t t' : FileTree) : Prop :=
  ∃ m? m data, (load dir app).answer t = .ok m? ∧ m = m?.getD (blank app) ∧
    (load dir app).answer t' = .ok (some { m with data := some data }) ∧
    ∀ param, data.find? param = (Setting.last? l app param).or ((m.data.getD {}).find? param)

namespace Edit

/-! ## What can be performed -/

/-- The edits find what they need. -/
structure Ready (dir : Path) (edits : List Edit) (t : FileTree) : Prop where
  fragment : ∃ f, f.CurrentIn dir t ∧ ∀ g ∈ fragments f edits,
    (∃ text, g.print = .ok text) ∧ t.Writable (Fragment.file dir)
  configMap : ∀ s ∈ settings edits, ∃ m : ConfigMap, m.CurrentIn dir s.app t ∧
    (∃ text, m.print = .ok text) ∧ t.Writable (ConfigMap.file dir s.app)

/-- What the edits write is read back as it was. -/
structure ReadBack (dir : Path) (edits : List Edit) (t : FileTree) : Prop where
  fragment : ∀ f : Fragment, f.CurrentIn dir t → ∀ g ∈ fragments f edits, g.ReadsBack
  configMap : ∀ s ∈ settings edits, ∀ m : ConfigMap, m.CurrentIn dir s.app t →
    ∀ m' ∈ ConfigMap.versions s.app m (settings edits), m'.ReadsBack

theorem Step.ready (he : e.Plain) (h : e.Step dir t t') : Ready dir [e] t := by
  have hrevises {e : Edit} {u : FileTree} (h : e.Revises dir t u) : ∃ f : Fragment,
      f.CurrentIn dir t ∧ ∀ g ∈ fragments f [e],
        (∃ text, g.print = .ok text) ∧ t.Writable (Fragment.file dir) := by
    obtain ⟨f, hf, h⟩ := h
    refine ⟨f, hf, fun g hg => ?_⟩
    rw [fragments_singleton] at hg
    by_cases hrewrites : e.rewrites f = true
    · rw [if_pos hrewrites] at h hg
      obtain ⟨text, hprint, hwrite⟩ := h
      rw [List.mem_singleton.1 hg]
      exact ⟨⟨text, hprint⟩, text, u, hwrite⟩
    · rw [if_neg hrewrites] at hg
      exact absurd hg List.not_mem_nil
  cases e with
  | package base => exact ⟨hrevises h, fun s hs => absurd hs List.not_mem_nil⟩
  | setting s =>
    obtain ⟨mid, hmid, m, hm, text, hprint, hwrite⟩ := h
    refine ⟨hrevises hmid, fun s' hs' => ?_⟩
    obtain rfl := List.mem_singleton.1 hs'
    have hwritable : mid.Writable (ConfigMap.file dir s'.app) := ⟨text, t', hwrite⟩
    refine ⟨m, hm.of_read_eq (hmid.keeps he).read.symm, ?_,
      hwritable.of_sameDirectories hmid.changedAt.directories.symm⟩
    exact (ConfigMap.exists_print_setText m _ _).1 ⟨text, hprint⟩

theorem Ready.exists_step (he : e.Plain) (h : Ready dir [e] t) : ∃ t', e.Step dir t t' := by
  have hrevises : ∃ u, e.Revises dir t u := by
    obtain ⟨f, hf, hg⟩ := h.fragment
    rw [fragments_singleton] at hg
    by_cases hrewrites : e.rewrites f = true
    · rw [if_pos hrewrites] at hg
      obtain ⟨⟨text, hprint⟩, hwritable⟩ := hg _ List.mem_cons_self
      obtain ⟨u, hwrite⟩ := hwritable.write text
      exact ⟨u, f, hf, by rw [if_pos hrewrites]; exact ⟨text, hprint, hwrite⟩⟩
    · exact ⟨t, f, hf, by rw [if_neg hrewrites]⟩
  cases e with
  | package base => exact hrevises
  | setting s =>
    obtain ⟨mid, hmid⟩ := hrevises
    obtain ⟨m, hm, hprint, hwritable⟩ := h.configMap s List.mem_cons_self
    obtain ⟨text, hprint⟩ := (ConfigMap.exists_print_setText m s.param s.value).2 hprint
    obtain ⟨t', hwrite⟩ := (hwritable.of_sameDirectories hmid.changedAt.directories).write text
    exact ⟨t', mid, hmid, m, hm.of_read_eq (hmid.keeps he).read, text, hprint, hwrite⟩

theorem Ready.first (h : Ready dir (e :: edits) t) : Ready dir [e] t := by
  obtain ⟨f, hf, hg⟩ := h.fragment
  rw [fragments_cons] at hg
  refine ⟨⟨f, hf, fun g hfirst => hg g (List.mem_append_left _ hfirst)⟩, fun s hs => ?_⟩
  refine h.configMap s ?_
  rw [settings_cons]
  exact List.mem_append_left _ hs

/-- Edits that write the same fragments and set texts in no other config maps need no more. -/
theorem Ready.of_fragments (hfragments : ∀ f, fragments f edits' = fragments f edits)
    (hcalled : ∀ s ∈ settings edits', ∃ s' ∈ settings edits, s'.app = s.app)
    (h : Ready dir edits t) : Ready dir edits' t := by
  obtain ⟨f, hf, hneeds⟩ := h.fragment
  refine ⟨⟨f, hf, fun g hg => hneeds g ?_⟩, fun s hs => ?_⟩
  · rwa [hfragments] at hg
  · obtain ⟨s', hs', happ⟩ := hcalled s hs
    rw [← happ]
    exact h.configMap s' hs'

theorem ReadBack.versions (hback : ReadBack dir edits t) (hm : m.CurrentIn dir app t) :
    ∀ m' ∈ ConfigMap.versions app m (settings edits), m'.ReadsBack := by
  by_cases hcalled : ∀ s ∈ settings edits, s.app ≠ app
  · rw [ConfigMap.versions_of_forall_ne m hcalled]
    exact fun m' hm' => absurd hm' List.not_mem_nil
  · push Not at hcalled
    obtain ⟨s, hs, rfl⟩ := hcalled
    exact hback.configMap s hs m hm

theorem ReadBack.first (hback : ReadBack dir (e :: edits) t) : ReadBack dir [e] t := by
  refine ⟨fun f hf g hg => hback.fragment f hf g ?_, fun s hs m hm m' hm' => ?_⟩
  · rw [fragments_cons]
    exact List.mem_append_left _ hg
  · refine hback.versions hm m' ?_
    rw [settings_cons, ConfigMap.versions_append]
    exact List.mem_append_left _ hm'

/-- A config map that can be read after the edit could be read before. -/
theorem Step.exists_currentIn (he : e.Plain) (happ : '/' ∉ app.toList) (h : e.Step dir t mid)
    (hm : m.CurrentIn dir app mid) : ∃ m₀ : ConfigMap, m₀.CurrentIn dir app t := by
  by_cases hcalled : ∀ s ∈ settings [e], s.app ≠ app
  · exact ⟨m, hm.of_read_eq (h.keeps he happ hcalled).read.symm⟩
  · push Not at hcalled
    obtain ⟨s, hs, rfl⟩ := hcalled
    obtain ⟨m₀, hm₀, -⟩ := (h.ready he).configMap s hs
    exact ⟨m₀, hm₀⟩

theorem plain_of_mem_settings (hplain : ∀ e ∈ edits, e.Plain) (hs : s ∈ settings edits) :
    '/' ∉ s.app.toList := hplain _ (mem_settings.1 hs)

theorem ReadBack.of_step (hplain : ∀ e' ∈ e :: edits, e'.Plain)
    (hback : ReadBack dir (e :: edits) t) (h : e.Step dir t mid) : ReadBack dir edits mid := by
  obtain ⟨he, hrest⟩ := List.forall_mem_cons.1 hplain
  obtain ⟨f, hf, -⟩ := (h.ready he).fragment
  refine ⟨fun f' hf' g hg => ?_, fun s hs m' hm' k hk => ?_⟩
  · have hmid := (h.fragment he hf (hback.first.fragment f hf)).2
    obtain rfl := hf'.unique hmid
    refine hback.fragment f hf g ?_
    rw [fragments_cons]
    exact List.mem_append_right _ hg
  · have happ := plain_of_mem_settings hrest hs
    obtain ⟨m, hm⟩ := h.exists_currentIn he happ hm'
    have hmid := (h.configMap he happ hm (hback.first.versions hm)).2
    obtain rfl := hm'.unique hmid
    refine hback.versions hm k ?_
    rw [settings_cons, ConfigMap.versions_append]
    exact List.mem_append_right _ hk

theorem ready_cons_iff (hplain : ∀ e' ∈ e :: edits, e'.Plain) (hback : ReadBack dir (e :: edits) t)
    (h : e.Step dir t mid) : Ready dir (e :: edits) t ↔ Ready dir edits mid := by
  obtain ⟨he, hrest⟩ := List.forall_mem_cons.1 hplain
  have hdirs := h.changedAt.directories
  obtain ⟨f, hf, hfirst⟩ := (h.ready he).fragment
  have hmid := (h.fragment he hf (hback.first.fragment f hf)).2
  have happ {s : Setting} (hs : s ∈ settings edits) := plain_of_mem_settings hrest hs
  have hset {app : String} {m : ConfigMap} (happ : '/' ∉ app.toList) (hm : m.CurrentIn dir app t) :=
    (h.configMap he happ hm (hback.first.versions hm)).2
  constructor
  · intro hready
    refine ⟨⟨e.revise f, hmid, fun g hg => ?_⟩, fun s hs => ?_⟩
    · obtain ⟨f', hf', hlater⟩ := hready.fragment
      obtain rfl := hf.unique hf'
      rw [fragments_cons] at hlater
      obtain ⟨hprint, hwritable⟩ := hlater g (List.mem_append_right _ hg)
      exact ⟨hprint, hwritable.of_sameDirectories hdirs⟩
    · have hs' : s ∈ settings (e :: edits) := by
        rw [settings_cons]
        exact List.mem_append_right _ hs
      obtain ⟨m, hm, hprint, hwritable⟩ := hready.configMap s hs'
      exact ⟨_, hset (happ hs) hm, (ConfigMap.exists_print_setAll _ m _).2 hprint,
        hwritable.of_sameDirectories hdirs⟩
  · intro hready
    refine ⟨⟨f, hf, fun g hg => ?_⟩, fun s hs => ?_⟩
    · rw [fragments_cons] at hg
      rcases List.mem_append.1 hg with hg | hg
      · exact hfirst g hg
      · obtain ⟨f', hf', hlater⟩ := hready.fragment
        obtain rfl := hmid.unique hf'
        obtain ⟨hprint, hwritable⟩ := hlater g hg
        exact ⟨hprint, hwritable.of_sameDirectories hdirs.symm⟩
    · rw [settings_cons] at hs
      rcases List.mem_append.1 hs with hs | hs
      · exact (h.ready he).configMap s hs
      · obtain ⟨m', hm', hprint, hwritable⟩ := hready.configMap s hs
        obtain ⟨m, hm⟩ := h.exists_currentIn he (happ hs) hm'
        obtain rfl := hm'.unique (hset (happ hs) hm)
        exact ⟨m, hm, (ConfigMap.exists_print_setAll _ m _).1 hprint,
          hwritable.of_sameDirectories hdirs.symm⟩

theorem Steps.exists_currentIn (hne : edits ≠ []) (h : Steps dir edits t t') :
    ∃ f : Fragment, f.CurrentIn dir t := by
  cases edits with
  | nil => exact absurd rfl hne
  | cons e edits =>
    obtain ⟨mid, hstep, -⟩ := h
    cases e with
    | package base =>
      obtain ⟨f, hf, -⟩ := hstep
      exact ⟨f, hf⟩
    | setting s =>
      obtain ⟨_, ⟨f, hf, -⟩, -⟩ := hstep
      exact ⟨f, hf⟩

/-- Whether the edits can be performed is seen in the tree that they start from. -/
theorem exists_steps_iff (hplain : ∀ e ∈ edits, e.Plain) (hback : ReadBack dir edits t)
    (hf : f.CurrentIn dir t) : (∃ t', Steps dir edits t t') ↔ Ready dir edits t := by
  induction edits generalizing t f with
  | nil =>
    refine ⟨fun _ => ⟨⟨f, hf, fun g hg => ?_⟩, fun s hs => ?_⟩, fun _ => ⟨t, rfl⟩⟩
    · exact absurd hg List.not_mem_nil
    · exact absurd hs List.not_mem_nil
  | cons e edits ih =>
    obtain ⟨he, hrest⟩ := List.forall_mem_cons.1 hplain
    have hlater {mid : FileTree} (hstep : e.Step dir t mid) :
        (∃ t', Steps dir edits mid t') ↔ Ready dir (e :: edits) t := by
      have hmid := (hstep.fragment he hf (hback.first.fragment f hf)).2
      rw [ready_cons_iff hplain hback hstep, ih hrest (hback.of_step hplain hstep) hmid]
    constructor
    · rintro ⟨t', mid, hstep, hsteps⟩
      exact (hlater hstep).1 ⟨t', hsteps⟩
    · intro hready
      obtain ⟨mid, hstep⟩ := hready.first.exists_step he
      obtain ⟨t', hsteps⟩ := (hlater hstep).2 hready
      exact ⟨t', mid, hstep, hsteps⟩

theorem Steps.updated (hplain : ∀ e ∈ edits, e.Plain) (hback : ReadBack dir edits t)
    (hf : f.CurrentIn dir t) (h : Steps dir edits t t') (hs : s ∈ settings edits) :
    ConfigMap.Updated dir s.app (settings edits) t t' := by
  have hready := (exists_steps_iff hplain hback hf).1 ⟨t', h⟩
  obtain ⟨m, hm, -⟩ := hready.configMap s hs
  obtain ⟨-, m', hload', hset⟩ :=
    h.configMap hplain (plain_of_mem_settings hplain hs) hm (hback.versions hm)
  obtain ⟨m?, hload, hm?⟩ := hm
  have hdata := ConfigMap.data_setAll s.app m (settings edits)
  rw [if_neg fun hne => hne s hs rfl] at hdata
  refine ⟨m?, m, _, hload, hm?.symm, ?_, ConfigMap.find?_setAll s.app m (settings edits)⟩
  rw [← hdata, ← ConfigMap.setAll_eq, ← hset]
  cases m' with
  | some m' => exact hload'
  | none =>
    -- A blank config map would have no data.
    rw [← hset] at hdata
    exact absurd hdata nofun

/-! ## Before the directory is made -/

/-- `start` is what the edits find once the directory has been made. -/
structure Start (dir : Path) (edits : List Edit) (t start : FileTree) : Prop where
  made : (Files.makeDirectory dir).run t = .ok () start
  grown : t.Grown (t.OnTheWay dir) start
  same : t.isDirectory dir = true → start = t
  read : ∀ p s, t.read p = .ok s → start.read p = .ok s
  /-- Along a path that only goes down nothing comes to light that was not there before. -/
  loaded : t.Connected → .up ∉ dir.parts →
    (Fragment.load dir).answer start = (Fragment.load dir).answer t ∧
      ∀ s ∈ settings edits,
        (ConfigMap.load dir s.app).answer start = (ConfigMap.load dir s.app).answer t

theorem Start.of_run {start : FileTree} (hplain : ∀ e ∈ edits, e.Plain) (hne : edits ≠ [])
    (hback : ReadBack dir edits start) (hmake : (Files.makeDirectory dir).run t = .ok () start)
    (h : Steps dir edits start t') : Start dir edits t start := by
  have hgrown := Files.after_makeDirectory dir t
  rw [Files.after_of_run_ok hmake] at hgrown
  refine ⟨hmake, hgrown, fun hdir => ?_, fun p s => hgrown.read, fun hc hup => ?_⟩
  · rw [Files.run_makeDirectory_of_isDirectory hdir] at hmake
    exact (EStateM.Result.ok.inj hmake).2.symm
  · obtain ⟨f, hf⟩ := h.exists_currentIn hne
    have hready := (exists_steps_iff hplain hback hf).1 ⟨t', h⟩
    obtain ⟨base, hopen⟩ : ∃ base, start.OpenAt dir base := by
      cases edits with
      | nil => exact absurd rfl hne
      | cons e edits =>
        obtain ⟨mid, hstep, -⟩ := h
        obtain ⟨base, hopen, -⟩ := hstep.exists_openAt (hplain e List.mem_cons_self)
        exact ⟨base, hopen⟩
    have hsame {n : Name} (hn : (Path.Part.name n).Lasting) :=
      hgrown.read_eq_of_openAt hc hup hopen hn
    refine ⟨?_, fun s hs => ?_⟩
    · obtain ⟨f?, hload, -⟩ := hf
      have hread := Document.read_of_answer_load hload
      exact Fragment.answer_load_congr (hsame Fragment.lasting_fileName hread)
    · obtain ⟨m, ⟨m?, hload, -⟩, -⟩ := hready.configMap s hs
      have hlasting := ConfigMap.lasting_fileFor (plain_of_mem_settings hplain hs)
      exact Document.answer_load_congr _ (hsame hlasting (Document.read_of_answer_load hload))

/-! ## The same in the end -/

theorem Steps.get?_eq (hplain : ∀ e ∈ edits, e.Plain) (hplain' : ∀ e ∈ edits', e.Plain)
    (hback : ReadBack dir edits t) (hback' : ReadBack dir edits' t) (h : Steps dir edits t u)
    (h' : Steps dir edits' t u') (hf : f.CurrentIn dir t)
    (hfragment : (fragments f edits').getLast? = (fragments f edits).getLast?)
    (hlast : ∀ app param,
      Setting.last? (settings edits') app param = Setting.last? (settings edits) app param)
    (loc : Location) : u'.get? loc = u.get? loc := by
  have hready := (exists_steps_iff hplain hback hf).1 ⟨u, h⟩
  by_cases hfile : t.find (Fragment.file dir) = .ok loc
  · have hwritten := (h.fragment hplain hf (hback.fragment f hf)).1
    have hwritten' := (h'.fragment hplain' hf (hback'.fragment f hf)).1
    refine hwritten.get?_eq hwritten' ?_ hfile
    rw [List.getLast?_map, List.getLast?_map, hfragment]
  by_cases hcalled : ∃ s ∈ settings edits, t.find (ConfigMap.file dir s.app) = .ok loc
  · obtain ⟨s, hs, hfind⟩ := hcalled
    have happ := plain_of_mem_settings hplain hs
    obtain ⟨m, hm, -⟩ := hready.configMap s hs
    have hwritten := (h.configMap hplain happ hm (hback.versions hm)).1
    have hwritten' := (h'.configMap hplain' happ hm (hback'.versions hm)).1
    refine hwritten.get?_eq hwritten' ?_ hfind
    rw [List.getLast?_map, List.getLast?_map, ConfigMap.getLast?_versions_congr m (hlast s.app)]
  · have hnot : ¬ Touches dir edits t loc := by
      rintro (hfind | ⟨s, hs, hfind⟩)
      · exact hfile hfind
      · exact hcalled ⟨s, mem_settings.2 hs, hfind⟩
    have hnot' : ¬ Touches dir edits' t loc := by
      rintro (hfind | ⟨s, hs, hfind⟩)
      · exact hfile hfind
      · -- The application is called in the one list if it is in the other.
        have hne : ∀ s' ∈ settings edits, s'.app ≠ s.app := fun s' hs' heq =>
          hcalled ⟨s', hs', by rw [heq]; exact hfind⟩
        exact (Setting.forall_ne_iff_of_last? (hlast s.app)).2 hne s (mem_settings.2 hs) rfl
    rw [h.changedAt.unchanged hnot, h'.changedAt.unchanged hnot']

end Edit
end LayeredConfig
