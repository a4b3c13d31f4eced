/-
Setting a parameter again after an attempt that has failed.

An attempt makes the directory, registers the config map and stores the value, and it may fail at
each of these. The first two are then done or not (`ConfigMap.run_inject_error_cases`); whatever
was there before, the config map included, is as it was. The next attempt takes over what has been
done. So it ends in the same tree as if there had been no other before it
(`ConfigMap.inject_retried`).
-/
import Mathlib
import LayeredConfig.Proofs.Edit.Run
import LayeredConfig.Proofs.FileTree.Passed

namespace LayeredConfig

variable {t t' t₁ u u' start : FileTree} {dir : Path} {base loc : Location} {n : Name}
variable {P : Location → Prop} {s : Setting} {e : InjectError} {f : Fragment} {text : String}

/-! ## Files in a directory of two trees -/

namespace FileTree

theorem OpenAt.find_eq (h : t.OpenAt dir base) (h' : t'.OpenAt dir base)
    (hn : (Path.Part.name n).Lasting) : t'.find (dir / ⟨n⟩) = t.find (dir / ⟨n⟩) := by
  rw [find, find, h.walk_join_name hn, h'.walk_join_name hn]

theorem OpenAt.eq_of_find (h : t.OpenAt dir base) (hn : (Path.Part.name n).Lasting)
    (hfind : t.find (dir / ⟨n⟩) = .ok loc) : loc = base ++ [n] := by
  obtain ⟨base', hopen, rfl⟩ := exists_openAt_of_find hn hfind
  rw [Except.ok.inj (h.walk.symm.trans hopen.walk)]

namespace AgreeOn

theorem trans (h : AgreeOn P t t') (h' : AgreeOn P t' u) : AgreeOn P t u :=
  ⟨h'.home.trans h.home, fun loc hloc => (h'.entry loc hloc).trans (h.entry loc hloc),
    fun loc hloc => (h'.refusal loc hloc).trans (h.refusal loc hloc)⟩

theorem of_set (t : FileTree) (hloc : loc ≠ []) (e : Entry) : t.AgreeOn (· ≠ loc) (t.set loc e) :=
  ⟨rfl, fun other hother => by rw [get?_set t hloc, if_neg hother], fun _ _ => rfl⟩

/-- Trees that differ at one place at most and agree there are the same. -/
theorem of_ne (h : AgreeOn (· ≠ loc) t t') (hloc : t'.get? loc = t.get? loc)
    (hrefusal : t'.refusal? loc = t.refusal? loc) : AgreeOn (fun _ => True) t t' := by
  refine ⟨h.home, fun other _ => ?_, fun other _ => ?_⟩ <;> by_cases hother : other = loc
  · rw [hother, hloc]
  · exact h.entry other hother
  · rw [hother, hrefusal]
  · exact h.refusal other hother

theorem read_eq (h : AgreeOn P t t') (hopen : t.OpenAt dir base) (hopen' : t'.OpenAt dir base)
    (hn : (Path.Part.name n).Lasting) (hP : P (base ++ [n])) :
    t'.read (dir / ⟨n⟩) = t.read (dir / ⟨n⟩) := by
  rw [FileTree.read, FileTree.read, hopen.find_eq hopen' hn]
  cases hfind : t.find (dir / ⟨n⟩) with
  | error e => rfl
  | ok loc =>
    obtain rfl := hopen.eq_of_find hn hfind
    rw [ok_bind, ok_bind, h.entry _ hP]

theorem write (h : AgreeOn P t t') (hopen : t.OpenAt dir base) (hopen' : t'.OpenAt dir base)
    (hn : (Path.Part.name n).Lasting) (hP : P (base ++ [n]))
    (hwrite : t.write (dir / ⟨n⟩) text = .ok u) :
    ∃ u', t'.write (dir / ⟨n⟩) text = .ok u' ∧ AgreeOn P u u' := by
  obtain ⟨loc, haccepts, rfl⟩ := write_eq_ok_iff.1 hwrite
  obtain rfl := hopen.eq_of_find hn haccepts.find
  have haccepts' : t'.Accepts (dir / ⟨n⟩) (base ++ [n]) :=
    ⟨(hopen.find_eq hopen' hn).trans haccepts.find, haccepts.spelling,
      by rw [h.entry _ hP]; exact haccepts.free, (h.refusal _ hP).trans haccepts.unrefused⟩
  exact ⟨_, write_eq_ok_iff.2 ⟨_, haccepts', rfl⟩, h.set (by simp) _⟩

end AgreeOn

end FileTree

/-! ## What an attempt leaves behind -/

namespace ConfigMap

theorem eq_of_run_register_eq_error {app : String}
    (h : (register dir app).run t = .error e u) : u = t := by
  have hasks : ((Fragment.load dir).explain InjectError.load).Asks :=
    (Fragment.asks_load dir).explain _
  have hsave (added : Bool) (f : Fragment) (h : (if added then
      discard ((f.save dir).explain (.register app)) else pure () : Files InjectError Unit).run t =
        .error e u) : u = t := by
    cases added with
    | false => exact absurd h nofun
    | true =>
      obtain ⟨cause, hsave, -⟩ :=
        Files.run_explain_eq_error_iff.1 (Files.run_discard_eq_error_iff.1 h)
      exact Fragment.eq_of_run_save_eq_error hsave
  rw [register] at h
  rcases Files.run_bind_eq_error_iff.1 h with hload | ⟨f?, mid, hload, hrest⟩
  · exact (hasks.run_eq_error_iff.1 hload).2
  · obtain ⟨-, rfl⟩ := hasks.run_eq_ok_iff.1 hload
    exact hsave _ _ hrest

theorem eq_of_run_store_eq_error (h : (store dir s).run t = .error e u) : u = t := by
  have hasks : ((load dir s.app).explain InjectError.read).Asks := (Document.asks_load _ _).explain _
  rw [store] at h
  rcases Files.run_bind_eq_error_iff.1 h with hload | ⟨m?, mid, hload, hsave⟩
  · exact (hasks.run_eq_error_iff.1 hload).2
  · obtain ⟨-, rfl⟩ := hasks.run_eq_ok_iff.1 hload
    obtain ⟨cause, hsave, -⟩ := Files.run_explain_eq_error_iff.1 hsave
    exact Document.eq_of_run_save_eq_error hsave

/-- A failed attempt leaves the tree as it was, or has registered the config map. -/
theorem run_inject_error_cases (h : (inject dir s.app s.param s.value).run t = .error e u) :
    (∃ cause, (Files.makeDirectory dir).run t = .error cause u) ∨
      ∃ start, (Files.makeDirectory dir).run t = .ok () start ∧
        (u = start ∨ (Edit.setting s).Revises dir start u) := by
  rw [inject_eq] at h
  rcases Files.run_bind_eq_error_iff.1 h with hmake | ⟨⟨⟩, start, hmake, hrest⟩
  · obtain ⟨cause, hmake, -⟩ := Files.run_explain_eq_error_iff.1 hmake
    exact .inl ⟨cause, hmake⟩
  · refine .inr ⟨start, Files.run_explain_eq_ok_iff.1 hmake, ?_⟩
    rcases Files.run_bind_eq_error_iff.1 hrest with hregister | ⟨⟨⟩, mid, hregister, hstore⟩
    · exact .inl (eq_of_run_register_eq_error hregister)
    · rw [eq_of_run_store_eq_error hstore]
      exact .inr (run_register_eq_ok_iff.1 hregister)

end ConfigMap

/-! ## Steps in two trees -/

namespace Edit

variable {edit : Edit}

theorem Revises.unique (h : edit.Revises dir t u) (h' : edit.Revises dir t u') : u' = u := by
  obtain ⟨f, hf, h⟩ := h
  obtain ⟨f', hf', h'⟩ := h'
  obtain rfl := hf.unique hf'
  by_cases hrewrites : edit.rewrites f = true
  · rw [if_pos hrewrites] at h h'
    obtain ⟨text, hprint, hwrite⟩ := h
    obtain ⟨text', hprint', hwrite'⟩ := h'
    obtain rfl := Except.ok.inj (hprint.symm.trans hprint')
    exact Except.ok.inj (hwrite'.symm.trans hwrite)
  · rw [if_neg hrewrites] at h h'
    rw [h, h']

theorem Revises.of_agreeOn (h : edit.Revises dir t u) (ha : t.AgreeOn P t')
    (hopen : t.OpenAt dir base) (hopen' : t'.OpenAt dir base)
    (hP : P (base ++ [.ofString Fragment.fileName])) :
    ∃ u', edit.Revises dir t' u' ∧ u.AgreeOn P u' := by
  obtain ⟨f, hf, h⟩ := h
  have hf' : f.CurrentIn dir t' :=
    hf.of_read_eq (ha.read_eq hopen hopen' Fragment.lasting_fileName hP)
  by_cases hrewrites : edit.rewrites f = true
  · rw [if_pos hrewrites] at h
    obtain ⟨text, hprint, hwrite⟩ := h
    obtain ⟨u', hwrite', hu⟩ := ha.write hopen hopen' Fragment.lasting_fileName hP hwrite
    refine ⟨u', ⟨f, hf', ?_⟩, hu⟩
    rw [if_pos hrewrites]
    exact ⟨text, hprint, hwrite'⟩
  · rw [if_neg hrewrites] at h
    subst h
    exact ⟨t', ⟨f, hf', by rw [if_neg hrewrites]⟩, ha⟩

theorem rewrites_revise_setting (s : Setting) (f : Fragment) :
    (setting s).rewrites ((setting s).revise f) = false := by
  rw [rewrites, Fragment.addStrategicPatch, Fragment.addOnce_eq]
  simp [revise, Fragment.addStrategicPatch, Fragment.addOnce_eq]

/-- Registering adds the config map to the fragment unless it is there. -/
theorem Revises.registered (h : (setting s).Revises dir t u)
    (hback : ∀ f, f.CurrentIn dir t → ((setting s).revise f).ReadsBack) :
    u = t ∨ ∃ f : Fragment, f.CurrentIn dir t ∧ ConfigMap.fileFor s.app ∉ f.strategicPatches ∧
      (Fragment.load dir).answer u = .ok (some { f with
        strategicPatches := f.strategicPatches ++ [ConfigMap.fileFor s.app] }) := by
  obtain ⟨f, hf, h⟩ := h
  by_cases hmem : ConfigMap.fileFor s.app ∈ f.strategicPatches
  · have hrewrites : (setting s).rewrites f = false := by
      simpa [rewrites, Fragment.addStrategicPatch, Fragment.addOnce_eq] using hmem
    rw [hrewrites] at h
    exact .inl h
  · have hrewrites : (setting s).rewrites f = true := by
      simpa [rewrites, Fragment.addStrategicPatch, Fragment.addOnce_eq] using hmem
    have hrevise : (setting s).revise f = { f with
        strategicPatches := f.strategicPatches ++ [ConfigMap.fileFor s.app] } := by
      rw [revise, Fragment.addStrategicPatch, Fragment.addOnce_eq, if_neg hmem]
    rw [if_pos hrewrites] at h
    obtain ⟨text, hprint, hwrite⟩ := h
    refine .inr ⟨f, hf, hmem, Fragment.answer_load_eq_some_iff.2
      ⟨text, FileTree.read_of_write hwrite, ?_⟩⟩
    rw [← hrevise]
    exact hback f hf text hprint

/-- What is registered and reads back is not registered again. -/
theorem Revises.again (h : (setting s).Revises dir t u)
    (hback : ∀ f, f.CurrentIn dir t → ((setting s).revise f).ReadsBack) :
    (setting s).Revises dir u u := by
  obtain ⟨f, hf, -⟩ := id h
  refine ⟨(setting s).revise f, (h.fragment hf fun g hg => ?_).2, ?_⟩
  · rw [fragments_singleton] at hg
    split at hg
    · exact List.mem_singleton.1 hg ▸ hback f hf
    · exact absurd hg List.not_mem_nil
  · rw [rewrites_revise_setting]
    rfl

end Edit

theorem Setting.Stored.of_agreeOn (h : s.Stored dir t u) (hs : s.Plain)
    (ha : t.AgreeOn (fun _ => True) t') (hopen : t.OpenAt dir base) (hopen' : t'.OpenAt dir base) :
    ∃ u', s.Stored dir t' u' ∧ u.AgreeOn (fun _ => True) u' := by
  have hn := ConfigMap.lasting_fileFor hs
  obtain ⟨m, hm, text, hprint, hwrite⟩ := h
  obtain ⟨u', hwrite', hu⟩ := ha.write hopen hopen' hn trivial hwrite
  exact ⟨u', ⟨m, hm.of_read_eq (ha.read_eq hopen hopen' hn trivial), text, hprint, hwrite'⟩, hu⟩

theorem Edit.Step.of_agreeOn (h : (Edit.setting s).Step dir t u) (hs : s.Plain)
    (ha : t.AgreeOn (fun _ => True) t') (hopen : t.OpenAt dir base) :
    ∃ u', (Edit.setting s).Step dir t' u' ∧ u.AgreeOn (fun _ => True) u' := by
  have hopen' := ha.openAt (fun _ _ => trivial) hopen
  obtain ⟨mid, hrevises, hstored⟩ := h
  obtain ⟨mid', hrevises', hmid⟩ := hrevises.of_agreeOn ha hopen hopen' trivial
  have hmidopen := hopen.of_sameDirectories hrevises.changedAt.directories
  have hmidopen' := hopen'.of_sameDirectories hrevises'.changedAt.directories
  obtain ⟨u', hstored', hu⟩ := hstored.of_agreeOn hs hmid hmidopen hmidopen'
  exact ⟨u', ⟨mid', hrevises', hstored'⟩, hu⟩

namespace ConfigMap

/-! ## Another attempt -/

/-- The value is stored in the place of the config map, which is no directory. -/
theorem place_of_stored (h : s.Stored dir t u) (hs : s.Plain) (hopen : t.OpenAt dir base) :
    t.place (file dir s.app) = base ++ [.ofString (fileFor s.app)] ∧
      t.get? (base ++ [.ofString (fileFor s.app)]) ≠ some .directory := by
  obtain ⟨m, -, text, -, hwrite⟩ := h
  obtain ⟨loc, haccepts, -⟩ := FileTree.write_eq_ok_iff.1 hwrite
  have hplace : loc = t.place (file dir s.app) := FileTree.find_eq_follow haccepts.find
  obtain rfl := hopen.eq_of_find (lasting_fileFor hs) haccepts.find
  exact ⟨hplace.symm, haccepts.free⟩

/-- With another config map in its place the attempt after a failed one succeeds if it does without
the failed one, and ends in the same tree. -/
theorem run_inject_of_replaced
    (hback : ∀ f : Fragment, f.CurrentIn dir ((Files.makeDirectory dir).after t) →
      ((Edit.setting s).revise f).ReadsBack) (hs : s.Plain)
    (hfail : (inject dir s.app s.param s.value).run t = .error e u) {u₁ t₂ : FileTree}
    (ht : t.AgreeOn (· ≠ t.place (file dir s.app)) t₁)
    (hu : u.AgreeOn (· ≠ t.place (file dir s.app)) u₁)
    (hsame : u₁.get? (t.place (file dir s.app)) = t₁.get? (t.place (file dir s.app)))
    (hrefusal : u₁.refusal? (t.place (file dir s.app)) = t₁.refusal? (t.place (file dir s.app)))
    (hrun : (inject dir s.app s.param s.value).run t₁ = .ok () t₂) :
    ∃ u₂, (inject dir s.app s.param s.value).run u₁ = .ok () u₂ ∧
      t₂.AgreeOn (fun _ => True) u₂ := by
  obtain ⟨start₁, hmake₁, hstep⟩ := run_inject_eq_ok_iff.1 hrun
  obtain ⟨base, hopen₁, -⟩ := hstep.exists_openAt (e := .setting s) hs
  obtain ⟨mid₁, hrevises₁, hstored₁⟩ := id hstep
  have hdirs₁ := hrevises₁.changedAt.directories
  have hgrown₁ := Files.after_makeDirectory dir t₁
  rw [Files.after_of_run_ok hmake₁] at hgrown₁
  -- The place of the config map, in which there is no directory when the value is stored.
  obtain ⟨hplace, hfile⟩ := place_of_stored hstored₁ hs (hopen₁.of_sameDirectories hdirs₁)
  have hhome : mid₁.home = t.home := hdirs₁.home.trans (hgrown₁.home.trans ht.home)
  rw [FileTree.place_eq_of_home hhome] at hplace
  rw [hplace] at ht hu hsame hrefusal
  have hfile₁ : start₁.get? (base ++ [.ofString (fileFor s.app)]) ≠ some .directory :=
    fun hdir => hfile ((hdirs₁.directory _).2 hdir)
  have hother : base ++ [Name.ofString Fragment.fileName] ≠ base ++ [.ofString (fileFor s.app)] := by
    intro heq
    have hlast := List.append_cancel_left heq
    exact fileFor_ne_fileName s.app (Name.ofString_injective (List.cons.inj hlast).1).symm
  have hentry : u₁.get? (base ++ [.ofString (fileFor s.app)]) =
      start₁.get? (base ++ [.ofString (fileFor s.app)]) :=
    hsame.trans ((hgrown₁.entry _).resolve_right fun hnew => hfile₁ hnew.2.2).symm
  have hrefused : u₁.refusal? (base ++ [.ofString (fileFor s.app)]) =
      start₁.refusal? (base ++ [.ofString (fileFor s.app)]) := by
    rw [hrefusal, FileTree.refusal?, FileTree.refusal?, hgrown₁.refusals]
  have hmid : mid₁.get? (base ++ [.ofString (fileFor s.app)]) =
      start₁.get? (base ++ [.ofString (fileFor s.app)]) := by
    refine hrevises₁.changedAt.unchanged fun hfind => hother ?_
    exact (hopen₁.eq_of_find Fragment.lasting_fileName hfind).symm
  obtain ⟨start, hmake, hstart, hopen⟩ := ht.symm.makeDirectory_of_ne hmake₁ hopen₁ hfile₁
  rw [Files.after_of_run_ok hmake] at hback
  -- The failed attempt has left what this one would find at its start, or after registering.
  obtain ⟨w, hw, hwopen, hagree⟩ : ∃ w, (Edit.setting s).Step dir w t₂ ∧ w.OpenAt dir base ∧
      w.AgreeOn (fun _ => True) u₁ := by
    rcases run_inject_error_cases hfail with ⟨cause, hcause⟩ | ⟨start', hmake', hcases⟩
    · exact absurd (hmake.symm.trans hcause) (by simp)
    · obtain rfl : start = start' := (EStateM.Result.ok.inj (hmake.symm.trans hmake')).2
      rcases hcases with rfl | hrevises
      · exact ⟨start₁, hstep, hopen₁, (hstart.trans hu).of_ne hentry hrefused⟩
      · obtain ⟨u', hrevises', hu'⟩ := hrevises₁.of_agreeOn hstart hopen₁ hopen hother
        obtain rfl := hrevises.unique hrevises'
        have hback₁ : ∀ f : Fragment, f.CurrentIn dir start₁ →
            ((Edit.setting s).revise f).ReadsBack := fun f hf => hback f
          (hf.of_read_eq (hstart.read_eq hopen₁ hopen Fragment.lasting_fileName hother))
        exact ⟨mid₁, ⟨mid₁, hrevises₁.again hback₁, hstored₁⟩, hopen₁.of_sameDirectories hdirs₁,
          (hu'.trans hu).of_ne (hentry.trans hmid.symm)
            (hrefused.trans (hdirs₁.refusal?_eq _).symm)⟩
  obtain ⟨u₂, hu₂, hend⟩ := hw.of_agreeOn hs hagree hwopen
  have hopenu := hagree.openAt (fun _ _ => trivial) hwopen
  exact ⟨u₂, run_inject_eq_ok_iff.2 ⟨u₁, hopenu.run_makeDirectory, hu₂⟩, hend⟩

/-- The config map of any application has another name than the fragment. -/
theorem find_fragment_ne {app : String} (hfind : t.find (file dir app) = .ok loc) :
    t.find (Fragment.file dir) ≠ .ok loc := by
  have hfind : t.find (dir / .ofString (app ++ "-config.yaml")) = .ok loc := hfind
  obtain ⟨front, hlast⟩ := FileTree.exists_getLast?_of_find (by decide) (by decide) hfind
  intro hfragment
  obtain ⟨base, -, -, rfl⟩ := FileTree.find_join_name Fragment.lasting_fileName hfragment
  rw [List.getLast?_concat, Option.some.injEq] at hlast
  have hmem : NameUnit.char '-' ∈ Name.ofString Fragment.fileName := by
    rw [hlast]
    exact List.mem_append_right front (by decide)
  exact absurd hmem (by decide)

/-- What is left of an attempt that has failed: new directories on the way, and the config map
registered once in the fragment. Another attempt then does what it would do without the failed one,
whatever has been put in the place of the config map in between, and whether or not that place has
refused to be written before. -/
theorem inject_retried
    (hback : ∀ f : Fragment, f.CurrentIn dir ((Files.makeDirectory dir).after t) →
      ((Edit.setting s).revise f).ReadsBack)
    (hfail : (inject dir s.app s.param s.value).run t = .error e u) :
    (∃ start, t.Grown (t.OnTheWay dir) start ∧ (t.isDirectory dir = true → start = t) ∧
      (u = start ∨ ∃ f : Fragment, f.CurrentIn dir start ∧ fileFor s.app ∉ f.strategicPatches ∧
        start.ChangedAt (fun loc => start.find (Fragment.file dir) = .ok loc) u ∧
        (Fragment.load dir).answer u =
          .ok (some { f with strategicPatches := f.strategicPatches ++ [fileFor s.app] }))) ∧
    (∀ loc, u.find (file dir s.app) = .ok loc → t.get? loc ≠ none → u.get? loc = t.get? loc) ∧
    (∀ text, t.read (file dir s.app) = .ok text → u.read (file dir s.app) = .ok text) ∧
    (s.Plain → ∀ t₁ u₁ t₂, t.AgreeOn (· ≠ t.place (file dir s.app)) t₁ →
      u.AgreeOn (· ≠ t.place (file dir s.app)) u₁ →
      u₁.get? (t.place (file dir s.app)) = t₁.get? (t.place (file dir s.app)) →
      u₁.refusal? (t.place (file dir s.app)) = t₁.refusal? (t.place (file dir s.app)) →
      (inject dir s.app s.param s.value).run t₁ = .ok () t₂ →
      ∃ u₂, (inject dir s.app s.param s.value).run u₁ = .ok () u₂ ∧ u₂.home = t₂.home ∧
        ∀ loc, u₂.get? loc = t₂.get? loc ∧ u₂.refusal? loc = t₂.refusal? loc) := by
  obtain ⟨start, hstart⟩ : ∃ start, (Files.makeDirectory dir).after t = start := ⟨_, rfl⟩
  have hgrown := Files.after_makeDirectory dir t
  rw [hstart] at hgrown
  have hcases : u = start ∨ (Edit.setting s).Revises dir start u := by
    rcases run_inject_error_cases hfail with ⟨cause, hmake⟩ | ⟨start', hmake, hcases⟩
    · rw [Files.after_of_run_error hmake] at hstart
      exact .inl hstart
    · rw [Files.after_of_run_ok hmake] at hstart
      exact hstart ▸ hcases
  have hchanged : start.ChangedAt (fun loc => start.find (Fragment.file dir) = .ok loc) u := by
    rcases hcases with rfl | hrevises
    · exact .refl _ u
    · exact hrevises.changedAt
  have hkept (loc : Location) (hfind : u.find (file dir s.app) = .ok loc) :
      u.get? loc = start.get? loc :=
    hchanged.unchanged (find_fragment_ne (hchanged.directories.find_eq_ok_iff.1 hfind))
  refine ⟨⟨start, hgrown, fun hdir => ?_, ?_⟩, fun loc hfind hthere => ?_, fun text hread => ?_,
    fun hs t₁ u₁ t₂ ht hu hsame hrefusal hrun => ?_⟩
  · rw [← hstart, Files.after_of_run_ok (Files.run_makeDirectory_of_isDirectory hdir)]
  · rcases hcases with hsame | hrevises
    · exact .inl hsame
    · refine (hrevises.registered (hstart ▸ hback)).imp_right ?_
      rintro ⟨f, hf, hnew, hload⟩
      exact ⟨f, hf, hnew, hchanged, hload⟩
  · exact (hkept loc hfind).trans ((hgrown.entry loc).resolve_right fun hnew => hthere hnew.2.1)
  · obtain ⟨loc, hfind, hget, hname⟩ := FileTree.read_eq_ok_iff.1 (hgrown.read hread)
    have hfindu := hchanged.directories.find hfind
    exact FileTree.read_eq_ok_iff.2 ⟨loc, hfindu, (hkept loc hfindu).trans hget, hname⟩
  · obtain ⟨u₂, hu₂, hagree⟩ := run_inject_of_replaced hback hs hfail ht hu hsame hrefusal hrun
    exact ⟨u₂, hu₂, hagree.home, fun loc => ⟨hagree.entry loc trivial, hagree.refusal loc trivial⟩⟩

/-- A config map that is not YAML makes the attempt fail after it has been registered. One that is
takes its place. -/
theorem inject_retried_of_malformed :
    ∃ (t u t₂ u₂ : FileTree) (e : InjectError),
      t = ⟨[([.ofString "d"], .directory),
        ([.ofString "d", .ofString "kustomization.yaml"], .file (.text "resources: [b]\n")),
        ([.ofString "d", .ofString "a-config.yaml"], .file (.text "["))], [], []⟩ ∧
      (inject (.ofString "d") "a" "p" "1").run t = .error e u ∧
      u.read (.ofString "d/kustomization.yaml") =
        .ok "patchesStrategicMerge:\n- a-config.yaml\nresources:\n- b\n" ∧
      u.read (file (.ofString "d") "a") = .ok "[" ∧
      (inject (.ofString "d") "a" "p" "1").run (t.set [.ofString "d", .ofString "a-config.yaml"]
        (.file (.text "data:\n  q: '2'\n"))) = .ok () t₂ ∧
      (inject (.ofString "d") "a" "p" "1").run (u.set [.ofString "d", .ofString "a-config.yaml"]
        (.file (.text "data:\n  q: '2'\n"))) = .ok () u₂ ∧
      ∀ loc, u₂.get? loc = t₂.get? loc := by
  let t : FileTree := ⟨[([.ofString "d"], .directory),
    ([.ofString "d", .ofString "kustomization.yaml"], .file (.text "resources: [b]\n")),
    ([.ofString "d", .ofString "a-config.yaml"], .file (.text "["))], [], []⟩
  let s : Setting := ⟨"a", "p", "1"⟩
  let f : Fragment := { resources := ["b"] }
  have hmake : (Files.makeDirectory (.ofString "d")).after t = t := by decide +kernel
  have hf : f.CurrentIn (.ofString "d") t :=
    .of_read (s := "resources: [b]\n") (by decide +kernel) (by decide +kernel)
  have hreads : ((Edit.setting s).revise f).ReadsBack := by decide +kernel
  have hback : ∀ g : Fragment, g.CurrentIn (.ofString "d")
      ((Files.makeDirectory (.ofString "d")).after t) → ((Edit.setting s).revise g).ReadsBack := by
    intro g hg
    rw [hmake] at hg
    rwa [hg.unique hf]
  have hfail : ∃ e u, (inject (.ofString "d") "a" "p" "1").run t = .error e u := by
    have hanswer : ((inject (.ofString "d") "a" "p" "1").answer t).toOption = none := by
      decide +kernel
    cases hrun : (inject (.ofString "d") "a" "p" "1").run t with
    | error e u => exact ⟨e, u, rfl⟩
    | ok a u =>
      rw [(Files.run_eq_ok_iff.1 hrun).1] at hanswer
      cases hanswer
  obtain ⟨e, u, hfail⟩ := hfail
  have hu : u = (inject (.ofString "d") "a" "p" "1").after t := (Files.after_of_run_error hfail).symm
  obtain ⟨-, -, hread, hretry⟩ := inject_retried hback hfail
  let loc : Location := [.ofString "d", .ofString "a-config.yaml"]
  have hloc : loc ≠ [] := List.cons_ne_nil _ _
  have hplace : t.place (file (.ofString "d") s.app) = loc := by decide +kernel
  rw [hplace] at hretry
  let replacement : Entry := .file (.text "data:\n  q: '2'\n")
  have hrun : (inject (.ofString "d") "a" "p" "1").run (t.set loc replacement) = .ok () _ :=
    Files.run_eq_ok_iff.2 ⟨by decide +kernel, rfl⟩
  obtain ⟨u₂, hu₂, -, hsame⟩ := hretry (by decide) _ (u.set loc replacement) _
    (.of_set t hloc replacement) (.of_set u hloc replacement)
    (by rw [FileTree.get?_set u hloc, FileTree.get?_set t hloc, if_pos rfl, if_pos rfl])
    (by rw [hu]; decide +kernel) hrun
  exact ⟨t, u, _, u₂, e, rfl, hfail, by rw [hu]; decide +kernel, hread "[" (by decide +kernel),
    hrun, hu₂, fun loc => (hsame loc).1⟩

end ConfigMap
end LayeredConfig
