/-
Edits of what a directory deploys: pointing its fragment at a package, and setting a parameter of an
application.

Both make the directory if it is missing. What one edit does then is an `Edit.Step`, and what
several do one after the other are `Edit.Steps`, since the directory is there from the first one on
(`Edit.run_performAll_eq_ok_iff`).
-/
import LayeredConfig.Proofs.Document
import LayeredConfig.Proofs.FileTree.Open
import LayeredConfig.Stack

namespace LayeredConfig

/-- A value for a parameter of an application. -/
structure Setting where
  app : String
  param : String
  value : String
deriving DecidableEq, Repr

/-- The name of the application is a name in a directory. -/
def Setting.Plain (s : Setting) : Prop := '/' ∉ s.app.toList

instance (s : Setting) : Decidable s.Plain := inferInstanceAs (Decidable ('/' ∉ s.app.toList))

inductive Edit where
  | package (base : String)
  | setting (s : Setting)
deriving DecidableEq, Repr

inductive EditError where
  | package (cause : StackError)
  | setting (cause : InjectError)
deriving DecidableEq, Repr

variable {t t' start : FileTree} {dir : Path} {base : Location}
variable {e : Edit} {edits : List Edit} {s : Setting}

/-! ## What edits start from -/

/-- The fragment of a directory as an edit takes it. -/
def Fragment.CurrentIn (dir : Path) (t : FileTree) (f : Fragment) : Prop :=
  Document.Current parse blank (file dir) t f

/-- The config map of an application as an edit takes it. -/
def ConfigMap.CurrentIn (dir : Path) (app : String) (t : FileTree) (m : ConfigMap) : Prop :=
  Document.Current parse (blank app) (file dir app) t m

theorem Fragment.currentIn_iff {f : Fragment} : f.CurrentIn dir t ↔
    ∃ f?, (load dir).answer t = .ok f? ∧ f?.getD .blank = f := by
  simp only [answer_load_eq_ok_iff]
  rfl

/-! ## One edit -/

namespace Edit

def perform (dir : Path) : Edit → Files EditError Unit
  | package base => discard ((registerStack dir base).explain .package)
  | setting s => (ConfigMap.inject dir s.app s.param s.value).explain .setting

def performAll (dir : Path) (edits : List Edit) : Files EditError Unit :=
  edits.forM (perform dir)

def Plain : Edit → Prop
  | package _ => True
  | setting s => s.Plain

instance : (e : Edit) → Decidable e.Plain
  | package _ => .isTrue trivial
  | setting s => inferInstanceAs (Decidable s.Plain)

/-- The fragment after the edit. -/
def revise (f : Fragment) : Edit → Fragment
  | package base => (f.withHeader.addResource base).1
  | setting s => (f.addStrategicPatch (ConfigMap.fileFor s.app)).1

/-- Whether the edit writes the fragment. -/
def rewrites (f : Fragment) : Edit → Bool
  | package _ => true
  | setting s => (f.addStrategicPatch (ConfigMap.fileFor s.app)).2

theorem rewrites_package (f : Fragment) (base : String) :
    (package base).rewrites f = true := rfl

/-- The fragment of the directory is revised. -/
def Revises (dir : Path) (e : Edit) (t t' : FileTree) : Prop :=
  ∃ f, f.CurrentIn dir t ∧
    if e.rewrites f then
      ∃ text, (e.revise f).print = .ok text ∧ t.write (Fragment.file dir) text = .ok t'
    else t' = t

end Edit

/-- The value is stored in the config map of the application. -/
def Setting.Stored (dir : Path) (s : Setting) (t t' : FileTree) : Prop :=
  ∃ m : ConfigMap, m.CurrentIn dir s.app t ∧ ∃ text, (m.setText s.param s.value).print = .ok text ∧
    t.write (ConfigMap.file dir s.app) text = .ok t'

namespace Edit

/-- What the edit does in a directory that is there. -/
def Step (dir : Path) : Edit → FileTree → FileTree → Prop
  | package base, t, t' => (package base).Revises dir t t'
  | setting s, t, t' => ∃ mid, (setting s).Revises dir t mid ∧ s.Stored dir mid t'

/-- What the edits do one after the other. -/
def Steps (dir : Path) : List Edit → FileTree → FileTree → Prop
  | [], t, t' => t' = t
  | e :: edits, t, t' => ∃ mid, e.Step dir t mid ∧ Steps dir edits mid t'

end Edit

/-! ## Steps of the programs -/

theorem run_registerStack_eq_ok_iff {base : String} {path : Path} :
    (registerStack dir base).run t = .ok path t' ↔ path = Fragment.file dir ∧
      ∃ start, (Files.makeDirectory dir).run t = .ok () start ∧
        (Edit.package base).Revises dir start t' := by
  have heq : registerStack dir base =
      ((Files.makeDirectory dir).explain (.createDirectory dir) >>= fun _ => do
        let f ← (Fragment.load dir).explain .load
        (((f.getD {}).withHeader.addResource base).1.save dir).explain .save) :=
    Files.makeDirectory_bind dir _ _
  -- A missing fragment starts without a header here, but gets it before it is written.
  have hheader (f? : Option Fragment) : (f?.getD {}).withHeader = (f?.getD .blank).withHeader := by
    cases f? <;> rfl
  rw [heq, Files.run_bind_eq_ok_iff]
  constructor
  · rintro ⟨⟨⟩, start, hmake, hrest⟩
    obtain ⟨f?, mid, hload, hsave⟩ := Files.run_bind_eq_ok_iff.1 hrest
    obtain ⟨hload, rfl⟩ :=
      (Fragment.asks_load dir).run_eq_ok_iff.1 (Files.run_explain_eq_ok_iff.1 hload)
    obtain ⟨rfl, text, hprint, hwrite⟩ :=
      Fragment.run_save_eq_ok_iff.1 (Files.run_explain_eq_ok_iff.1 hsave)
    rw [hheader] at hprint
    exact ⟨rfl, _, Files.run_explain_eq_ok_iff.1 hmake, _,
      Fragment.currentIn_iff.2 ⟨f?, hload, rfl⟩, text, hprint, hwrite⟩
  · rintro ⟨rfl, start, hmake, f, hf, text, hprint, hwrite⟩
    obtain ⟨f?, hload, rfl⟩ := Fragment.currentIn_iff.1 hf
    refine ⟨(), start, Files.run_explain_eq_ok_iff.2 hmake, ?_⟩
    refine Files.run_bind_eq_ok_iff.2 ⟨f?, start, ?_, ?_⟩
    · exact Files.run_explain_eq_ok_iff.2 ((Fragment.asks_load dir).run_eq_ok_iff.2 ⟨hload, rfl⟩)
    · rw [hheader]
      exact Files.run_explain_eq_ok_iff.2
        (Fragment.run_save_eq_ok_iff.2 ⟨rfl, text, hprint, hwrite⟩)

namespace ConfigMap

/-- Registers the config map of an application in the fragment of a directory. -/
def register (dir : Path) (app : String) : Files InjectError Unit := do
  let f ← (Fragment.load dir).explain .load
  let (f, added) := (f.getD .blank).addStrategicPatch (fileFor app)
  if added then discard ((f.save dir).explain (.register app))

/-- Stores a value in the config map of an application. -/
def store (dir : Path) (s : Setting) : Files InjectError Unit := do
  let m ← (load dir s.app).explain .read
  let m := (m.getD (blank s.app)).setText s.param s.value
  (Document.save (file dir s.app) m.print).explain .write

theorem register_bind {α : Type} (dir : Path) (app : String) (rest : Files InjectError α) : (do
      let f ← (Fragment.load dir).explain .load
      let (f, added) := (f.getD .blank).addStrategicPatch (fileFor app)
      if added then discard ((f.save dir).explain (.register app))
      rest : Files InjectError α) = (register dir app >>= fun _ => rest) := by
  rw [register, bind_assoc]
  refine bind_congr fun f? => ?_
  cases h : ((f?.getD .blank).addStrategicPatch (fileFor app)).2 <;> simp [h]

theorem inject_eq (dir : Path) (s : Setting) : inject dir s.app s.param s.value =
    ((Files.makeDirectory dir).explain (.createDirectory dir) >>= fun _ =>
      register dir s.app >>= fun _ => store dir s) := by
  rw [← Files.makeDirectory_bind, ← register_bind]
  rfl

theorem run_register_eq_ok_iff :
    (register dir s.app).run t = .ok () t' ↔ (Edit.setting s).Revises dir t t' := by
  have hload {f? : Option Fragment} {mid : FileTree} :
      ((Fragment.load dir).explain InjectError.load).run t = .ok f? mid ↔
        (Fragment.load dir).answer t = .ok f? ∧ mid = t :=
    Files.run_explain_eq_ok_iff.trans (Fragment.asks_load dir).run_eq_ok_iff
  have hsave (f : Fragment) : ((if (Edit.setting s).rewrites f then
      discard ((((Edit.setting s).revise f).save dir).explain (InjectError.register s.app))
      else pure () : Files InjectError Unit).run t = .ok () t') ↔
        if (Edit.setting s).rewrites f then
          ∃ text, ((Edit.setting s).revise f).print = .ok text ∧
            t.write (Fragment.file dir) text = .ok t'
        else t' = t := by
    by_cases hadded : (Edit.setting s).rewrites f = true
    · rw [if_pos hadded, if_pos hadded, Files.run_discard_eq_ok_iff]
      simp [Files.run_explain_eq_ok_iff, Fragment.run_save_eq_ok_iff]
    · rw [if_neg hadded, if_neg hadded]
      exact ⟨fun h => (EStateM.Result.ok.inj h).2.symm, fun h => h ▸ rfl⟩
  rw [register, Files.run_bind_eq_ok_iff]
  constructor
  · rintro ⟨f?, mid, hrun, hrest⟩
    obtain ⟨hanswer, rfl⟩ := hload.1 hrun
    exact ⟨_, Fragment.currentIn_iff.2 ⟨f?, hanswer, rfl⟩, (hsave _).1 hrest⟩
  · rintro ⟨f, hf, hrevised⟩
    obtain ⟨f?, hanswer, rfl⟩ := Fragment.currentIn_iff.1 hf
    exact ⟨f?, t, hload.2 ⟨hanswer, rfl⟩, (hsave _).2 hrevised⟩

theorem run_store_eq_ok_iff : (store dir s).run t = .ok () t' ↔ s.Stored dir t t' := by
  rw [store, Files.run_bind_eq_ok_iff]
  constructor
  · rintro ⟨m?, mid, hload, hsave⟩
    obtain ⟨hload, rfl⟩ :=
      (Document.asks_load _ _).run_eq_ok_iff.1 (Files.run_explain_eq_ok_iff.1 hload)
    obtain ⟨text, hprint, hwrite⟩ :=
      Document.run_save_eq_ok_iff.1 (Files.run_explain_eq_ok_iff.1 hsave)
    exact ⟨_, ⟨m?, hload, rfl⟩, text, hprint, hwrite⟩
  · rintro ⟨_, ⟨m?, hload, rfl⟩, text, hprint, hwrite⟩
    refine ⟨m?, t, Files.run_explain_eq_ok_iff.2 ?_, Files.run_explain_eq_ok_iff.2 ?_⟩
    · exact (Document.asks_load _ _).run_eq_ok_iff.2 ⟨hload, rfl⟩
    · exact Document.run_save_eq_ok_iff.2 ⟨text, hprint, hwrite⟩

theorem run_inject_eq_ok_iff : (inject dir s.app s.param s.value).run t = .ok () t' ↔
    ∃ start, (Files.makeDirectory dir).run t = .ok () start ∧
      (Edit.setting s).Step dir start t' := by
  rw [inject_eq, Files.run_bind_eq_ok_iff]
  constructor
  · rintro ⟨⟨⟩, start, hmake, hrest⟩
    obtain ⟨⟨⟩, mid, hregister, hstore⟩ := Files.run_bind_eq_ok_iff.1 hrest
    exact ⟨start, Files.run_explain_eq_ok_iff.1 hmake, mid, run_register_eq_ok_iff.1 hregister,
      run_store_eq_ok_iff.1 hstore⟩
  · rintro ⟨start, hmake, mid, hrevises, hstored⟩
    refine ⟨(), start, Files.run_explain_eq_ok_iff.2 hmake, Files.run_bind_eq_ok_iff.2 ?_⟩
    exact ⟨(), mid, run_register_eq_ok_iff.2 hrevises, run_store_eq_ok_iff.2 hstored⟩

end ConfigMap

/-! ## Names in the directory -/

theorem Fragment.lasting_fileName : (Path.Part.name (Name.ofString Fragment.fileName)).Lasting := by
  decide

namespace ConfigMap

theorem lasting_fileFor {app : String} (h : '/' ∉ app.toList) :
    (Path.Part.name (Name.ofString (fileFor app))).Lasting := by
  refine Path.Part.lasting_ofString ?_ ?_
  · rw [fileFor, String.toList_append, List.mem_append, not_or]
    exact ⟨h, by decide⟩
  · have hsuffix : "-config.yaml".toList.length = 12 := rfl
    rw [fileFor, String.toList_append, List.length_append]
    omega

theorem fileFor_injective : Function.Injective fileFor := by
  intro app app' h
  have hlists := congrArg String.toList h
  rw [fileFor, fileFor, String.toList_append, String.toList_append] at hlists
  exact String.toList_injective (List.append_cancel_right hlists)

theorem fileFor_ne_fileName (app : String) : fileFor app ≠ Fragment.fileName := by
  intro h
  have hmem : '-' ∈ (fileFor app).toList := by simp [fileFor]
  rw [h] at hmem
  exact absurd hmem (by decide)

end ConfigMap

namespace Edit

/-! ## Where steps happen -/

/-- A place of a file that the edits are about. -/
def Touches (dir : Path) (edits : List Edit) (t : FileTree) (loc : Location) : Prop :=
  t.find (Fragment.file dir) = .ok loc ∨
    ∃ s, .setting s ∈ edits ∧ t.find (ConfigMap.file dir s.app) = .ok loc

/-- The fragment is written, or nothing happens. -/
theorem Revises.eq_or_exists_write (h : e.Revises dir t t') :
    t' = t ∨ ∃ text, t.write (Fragment.file dir) text = .ok t' := by
  obtain ⟨f, -, h⟩ := h
  split at h
  · obtain ⟨text, -, hwrite⟩ := h
    exact .inr ⟨text, hwrite⟩
  · exact .inl h

theorem Revises.changedAt (h : e.Revises dir t t') :
    t.ChangedAt (fun loc => t.find (Fragment.file dir) = .ok loc) t' := by
  obtain rfl | ⟨text, hwrite⟩ := h.eq_or_exists_write
  · exact .refl _ _
  · exact .of_write hwrite

theorem Step.changedAt (h : e.Step dir t t') : t.ChangedAt (Touches dir [e] t) t' := by
  cases e with
  | package base => exact (Revises.changedAt h).mono fun loc hloc => .inl hloc
  | setting s =>
    obtain ⟨mid, hrevises, m, -, text, -, hwrite⟩ := h
    have hmid := hrevises.changedAt
    refine (hmid.mono fun loc hloc => .inl hloc).trans
      ((FileTree.ChangedAt.of_write hwrite).mono fun loc hloc => .inr ⟨s, List.mem_cons_self, ?_⟩)
    exact hmid.directories.find_eq_ok_iff.1 hloc

theorem Steps.changedAt (h : Steps dir edits t t') : t.ChangedAt (Touches dir edits t) t' := by
  induction edits generalizing t with
  | nil => rw [show t' = t from h]; exact .refl _ t
  | cons e edits ih =>
    obtain ⟨mid, hstep, hsteps⟩ := h
    have hmid := hstep.changedAt
    refine (hmid.mono fun loc hloc => ?_).trans ((ih hsteps).mono fun loc hloc => ?_)
    · refine hloc.imp_right fun ⟨s, hs, hfind⟩ => ⟨s, ?_, hfind⟩
      rw [List.mem_singleton] at hs
      exact hs ▸ List.mem_cons_self
    · rcases hloc with hfind | ⟨s, hs, hfind⟩
      · exact .inl (hmid.directories.find_eq_ok_iff.1 hfind)
      · exact .inr ⟨s, List.mem_cons_of_mem e hs, hmid.directories.find_eq_ok_iff.1 hfind⟩

/-- An edit finds its files in the directory, so that one is there. -/
theorem Step.exists_openAt (he : e.Plain) (h : e.Step dir t t') :
    ∃ base, t.OpenAt dir base ∧ t'.OpenAt dir base := by
  suffices hbefore : ∃ base, t.OpenAt dir base by
    obtain ⟨base, hopen⟩ := hbefore
    exact ⟨base, hopen, hopen.of_sameDirectories h.changedAt.directories⟩
  cases e with
  | package b =>
    obtain ⟨f, -, h⟩ := h
    rw [if_pos (rewrites_package f b)] at h
    obtain ⟨text, -, hwrite⟩ := h
    obtain ⟨loc, haccepts, -⟩ := FileTree.write_eq_ok_iff.1 hwrite
    obtain ⟨base, hopen, -⟩ :=
      FileTree.exists_openAt_of_find Fragment.lasting_fileName haccepts.find
    exact ⟨base, hopen⟩
  | setting s =>
    obtain ⟨mid, hrevises, m, -, text, -, hwrite⟩ := h
    obtain ⟨loc, haccepts, -⟩ := FileTree.write_eq_ok_iff.1 hwrite
    obtain ⟨base, hopen, -⟩ := FileTree.exists_openAt_of_find (ConfigMap.lasting_fileFor he)
      (hrevises.changedAt.directories.find_eq_ok_iff.1 haccepts.find)
    exact ⟨base, hopen⟩

/-! ## Runs -/

theorem run_perform_eq_ok_iff : (perform dir e).run t = .ok () t' ↔
    ∃ start, (Files.makeDirectory dir).run t = .ok () start ∧ e.Step dir start t' := by
  cases e with
  | package base =>
    refine Files.run_discard_eq_ok_iff.trans ?_
    simp [Files.run_explain_eq_ok_iff, run_registerStack_eq_ok_iff, Step]
  | setting s => exact Files.run_explain_eq_ok_iff.trans ConfigMap.run_inject_eq_ok_iff

/-- The directory is made once. -/
theorem run_performAll_eq_ok_iff (hplain : ∀ e ∈ edits, e.Plain) (hne : edits ≠ []) :
    (performAll dir edits).run t = .ok () t' ↔
      ∃ start, (Files.makeDirectory dir).run t = .ok () start ∧ Steps dir edits start t' := by
  induction edits generalizing t with
  | nil => exact absurd rfl hne
  | cons e edits ih =>
    have hfirst : e.Plain := hplain e List.mem_cons_self
    have hrest : ∀ e ∈ edits, e.Plain := fun e' he' => hplain e' (List.mem_cons_of_mem e he')
    -- After the first edit the directory is there, so that making it again does nothing.
    have htail {mid : FileTree} {base : Location} (hopen : mid.OpenAt dir base) :
        (performAll dir edits).run mid = .ok () t' ↔ Steps dir edits mid t' := by
      by_cases hnil : edits = []
      · subst hnil
        exact ⟨fun h => (EStateM.Result.ok.inj h).2.symm, fun h => h ▸ rfl⟩
      · rw [ih hrest hnil, hopen.run_makeDirectory]
        simp
    have hcons : performAll dir (e :: edits) = (perform dir e >>= fun _ => performAll dir edits) :=
      rfl
    rw [hcons, Files.run_bind_eq_ok_iff]
    constructor
    · rintro ⟨⟨⟩, mid, hperform, hperforms⟩
      obtain ⟨start, hmake, hstep⟩ := run_perform_eq_ok_iff.1 hperform
      obtain ⟨base, -, hafter⟩ := hstep.exists_openAt hfirst
      exact ⟨start, hmake, mid, hstep, (htail hafter).1 hperforms⟩
    · rintro ⟨start, hmake, mid, hstep, hsteps⟩
      obtain ⟨base, -, hafter⟩ := hstep.exists_openAt hfirst
      refine ⟨(), mid, run_perform_eq_ok_iff.2 ⟨start, hmake, hstep⟩, ?_⟩
      exact (htail hafter).2 hsteps

end Edit
end LayeredConfig
