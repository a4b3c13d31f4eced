/-
Documents in files: when one is there, and what saving it does.

A document that has been saved is not always loaded again as it was, since that is a matter of its
text. A value for which it is reads back (`Fragment.ReadsBack`, `ConfigMap.ReadsBack`).
-/
import LayeredConfig.ConfigMap.Inject
import LayeredConfig.Proofs.FileTree.Change
import LayeredConfig.Proofs.Yaml.Decide

namespace LayeredConfig

variable {t t' : FileTree} {dir p : Path}

namespace Document

variable {α : Type} {read : String → Except Yaml.Error α} {written : Except Yaml.Error String}
variable {a : α}

theorem asks_load (read : String → Except Yaml.Error α) (p : Path) : (load read p).Asks := .ask _

theorem answer_load_eq_some_iff :
    (load read p).answer t = .ok (some a) ↔ ∃ s, t.read p = .ok s ∧ read s = .ok a := by
  rw [load, Files.answer_ask]
  cases t.read p with
  | ok s => cases hs : read s <;> simp [hs]
  | error e => cases e <;> simp

theorem answer_load_eq_none_iff :
    (load read p).answer t = .ok none ↔ t.read p = .error .notFound := by
  rw [load, Files.answer_ask]
  cases t.read p with
  | ok s => cases hs : read s <;> simp [hs]
  | error e => cases e <;> simp

theorem read_of_answer_load {a? : Option α} (h : (load read p).answer t = .ok a?) :
    t.read p = .error .notFound ∨ ∃ s, t.read p = .ok s := by
  cases a? with
  | none => exact .inl (answer_load_eq_none_iff.1 h)
  | some a =>
    obtain ⟨s, hread, -⟩ := answer_load_eq_some_iff.1 h
    exact .inr ⟨s, hread⟩

/-- What is loaded is a matter of what is read. -/
theorem answer_load_congr (read : String → Except Yaml.Error α) (h : t'.read p = t.read p) :
    (load read p).answer t' = (load read p).answer t := by
  rw [load, Files.answer_ask, Files.answer_ask, h]

theorem run_save_eq_ok_iff :
    (save p written).run t = .ok () t' ↔ ∃ s, written = .ok s ∧ t.write p s = .ok t' := by
  unfold save text
  cases written with
  | error cause =>
    refine iff_of_false (fun h => ?_) (by simp)
    exact absurd h nofun
  | ok s =>
    refine Files.run_explain_eq_ok_iff.trans (Files.run_write_eq_ok_iff.trans ?_)
    simp

theorem eq_of_run_save_eq_error {e : DocumentError} (h : (save p written).run t = .error e t') :
    t' = t := by
  unfold save text at h
  cases written with
  | error cause => exact (EStateM.Result.error.inj h).2.symm
  | ok s =>
    obtain ⟨_, hwrite, -⟩ := Files.run_explain_eq_error_iff.1 h
    exact (Files.run_write_eq_error_iff.1 hwrite).2

/-- The document at a path for one who takes a blank one if there is none. -/
def Current (read : String → Except Yaml.Error α) (blank : α) (p : Path) (t : FileTree) (a : α) :
    Prop :=
  ∃ a?, (load read p).answer t = .ok a? ∧ a?.getD blank = a

namespace Current

variable {blank b : α} {s : String}

theorem unique (ha : Current read blank p t a) (hb : Current read blank p t b) : a = b := by
  obtain ⟨a?, hload, rfl⟩ := ha
  obtain ⟨b?, hload', rfl⟩ := hb
  rw [Except.ok.inj (hload.symm.trans hload')]

theorem of_read_eq (ha : Current read blank p t a) (h : t'.read p = t.read p) :
    Current read blank p t' a := by
  obtain ⟨a?, hload, hget⟩ := ha
  exact ⟨a?, (answer_load_congr read h).trans hload, hget⟩

theorem of_read (h : t.read p = .ok s) (ha : read s = .ok a) : Current read blank p t a :=
  ⟨some a, answer_load_eq_some_iff.2 ⟨s, h, ha⟩, rfl⟩

theorem of_missing (h : t.read p = .error .notFound) : Current read blank p t blank :=
  ⟨none, answer_load_eq_none_iff.2 h, rfl⟩

end Current
end Document

/-! ## Fragments -/

namespace Fragment

variable {f : Fragment} {path : Path} {e : SaveError}

/-- Reading the text of the fragment gives the fragment. -/
def ReadsBack (f : Fragment) : Prop := ∀ s, f.print = .ok s → parse s = .ok f

instance : Decidable f.ReadsBack :=
  decidable_of_iff
    (f.toValue.isWritable false = true →
      (f.toValue.reread .whole >>= fun node? => ofNode (node?.getD .empty)) = .ok f)
    Yaml.Value.reads_iff.symm

theorem asks_load (dir : Path) : (load dir).Asks := (Document.asks_load parse _).explain _

theorem answer_load_eq_ok_iff {f? : Option Fragment} : (load dir).answer t = .ok f? ↔
    (Document.load parse (file dir)).answer t = .ok f? := Files.answer_explain_eq_ok_iff

theorem answer_load_eq_some_iff :
    (load dir).answer t = .ok (some f) ↔ ∃ s, t.read (file dir) = .ok s ∧ parse s = .ok f :=
  answer_load_eq_ok_iff.trans Document.answer_load_eq_some_iff

theorem answer_load_eq_none_iff :
    (load dir).answer t = .ok none ↔ t.read (file dir) = .error .notFound :=
  answer_load_eq_ok_iff.trans Document.answer_load_eq_none_iff

theorem answer_load_congr (h : t'.read (file dir) = t.read (file dir)) :
    (load dir).answer t' = (load dir).answer t := by
  rw [load, Files.answer_explain, Files.answer_explain, Document.answer_load_congr parse h]

theorem run_save_eq_ok_iff :
    (f.save dir).run t = .ok path t' ↔
      path = file dir ∧ ∃ s, f.print = .ok s ∧ t.write (file dir) s = .ok t' := by
  rw [save, Files.run_bind_eq_ok_iff]
  constructor
  · rintro ⟨⟨⟩, mid, hsave, hpath⟩
    obtain ⟨rfl, rfl⟩ := EStateM.Result.ok.inj hpath
    exact ⟨rfl, Document.run_save_eq_ok_iff.1 (Files.run_explain_eq_ok_iff.1 hsave)⟩
  · rintro ⟨rfl, h⟩
    refine ⟨(), t', Files.run_explain_eq_ok_iff.2 (Document.run_save_eq_ok_iff.2 h), rfl⟩

/-- A fragment that cannot be written leaves the tree as it was. -/
theorem eq_of_run_save_eq_error (h : (f.save dir).run t = .error e t') : t' = t := by
  rw [save] at h
  rcases Files.run_bind_eq_error_iff.1 h with hsave | ⟨_, _, -, hpure⟩
  · obtain ⟨cause, hsave, -⟩ := Files.run_explain_eq_error_iff.1 hsave
    exact Document.eq_of_run_save_eq_error hsave
  · exact absurd hpure nofun

theorem after_save (dir : Path) (f : Fragment) (t : FileTree) :
    t.ChangedAt (fun loc => t.find (file dir) = .ok loc) ((f.save dir).after t) := by
  cases h : (f.save dir).run t with
  | ok path u =>
    rw [Files.after_of_run_ok h]
    obtain ⟨-, s, -, hwrite⟩ := run_save_eq_ok_iff.1 h
    exact .of_write hwrite
  | error e u =>
    rw [Files.after_of_run_error h, eq_of_run_save_eq_error h]
    exact .refl _ t

end Fragment

/-! ## Config maps -/

namespace ConfigMap

variable {m : ConfigMap} {app : String}

/-- Reading the text of the config map gives the config map. -/
def ReadsBack (m : ConfigMap) : Prop := ∀ s, m.print = .ok s → parse s = .ok m

instance : Decidable m.ReadsBack :=
  decidable_of_iff
    (m.toValue.isWritable false = true →
      (m.toValue.reread shape >>= fun node? => ofNode (node?.getD .empty)) = .ok m)
    Yaml.Value.reads_iff.symm

/-- The file of the config map of an application. -/
def file (dir : Path) (app : String) : Path := dir / .ofString (fileFor app)

/-- The config map of an application in a directory, if it is there. -/
def load (dir : Path) (app : String) : Files DocumentError (Option ConfigMap) :=
  Document.load parse (file dir app)

end ConfigMap
end LayeredConfig
