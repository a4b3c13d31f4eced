/-
Making a directory where none is.

New directories are all that comes of it, each on the way to the one that is asked for
(`Files.after_makeDirectory`), and nothing at all if that one is there. What could be read before is
read as before (`Grown.read`). If no part of the path goes up, then nothing else can be read in the
new directory either (`Grown.read_eq`).
-/
import LayeredConfig.Proofs.FileTree.Change
import LayeredConfig.Proofs.FileTree.Lexical

namespace LayeredConfig
namespace FileTree

variable {t t' u : FileTree} {p dir : Path} {loc : Location} {s : String}

/-! ## New directories -/

/-- There may be new directories, at places in `P` where nothing was. -/
structure Grown (P : Location → Prop) (t t' : FileTree) : Prop where
  home : t'.home = t.home
  refusals : t'.refusals = t.refusals
  entry : ∀ loc, t'.get? loc = t.get? loc ∨
    (P loc ∧ t.get? loc = none ∧ t'.get? loc = some .directory)

namespace Grown

variable {P Q : Location → Prop}

theorem refl (P : Location → Prop) (t : FileTree) : t.Grown P t :=
  ⟨rfl, rfl, fun _ => .inl rfl⟩

theorem mono (h : t.Grown P t') (hPQ : ∀ loc, P loc → Q loc) : t.Grown Q t' :=
  ⟨h.home, h.refusals, fun loc => (h.entry loc).imp_right (And.imp_left (hPQ loc))⟩

theorem trans (h : t.Grown P t') (h' : t'.Grown P u) : t.Grown P u := by
  refine ⟨h'.home.trans h.home, h'.refusals.trans h.refusals, fun loc => ?_⟩
  rcases h'.entry loc with heq | ⟨hP, hnone, hnew⟩
  · rw [heq]
    exact h.entry loc
  · rcases h.entry loc with heq' | ⟨-, -, hdir⟩
    · exact .inr ⟨hP, heq'.symm.trans hnone, hnew⟩
    · rw [hdir] at hnone
      exact absurd hnone nofun

theorem directory (h : t.Grown P t') (hloc : t.get? loc = some .directory) :
    t'.get? loc = some .directory := by
  rcases h.entry loc with heq | ⟨-, hnone, -⟩
  · rw [heq, hloc]
  · rw [hloc] at hnone
    exact absurd hnone nofun

theorem keeps (h : t.Grown P t') : t.KeepsDirectories t' := ⟨h.home, fun _ => h.directory⟩

theorem find (h : t.Grown P t') (hfind : t.find p = .ok loc) : t'.find p = .ok loc :=
  h.keeps.find hfind

/-- What could be read is read as before. -/
theorem read (h : t.Grown P t') (hread : t.read p = .ok s) : t'.read p = .ok s := by
  obtain ⟨loc, hfind, htext, hname⟩ := read_eq_ok_iff.1 hread
  refine read_eq_ok_iff.2 ⟨loc, h.find hfind, ?_, hname⟩
  rcases h.entry loc with heq | ⟨-, hnone, -⟩
  · rw [heq, htext]
  · rw [htext] at hnone
    exact absurd hnone nofun

end Grown

/-! ## Trees without gaps -/

/-- Every entry is in a directory. -/
def Connected (t : FileTree) : Prop := ∀ e ∈ t.entries, t.get? e.1.dropLast = some .directory

instance (t : FileTree) : Decidable t.Connected :=
  inferInstanceAs (Decidable (∀ e ∈ t.entries, t.get? e.1.dropLast = some .directory))

theorem mem_entries_of_get? {e : Entry} (h : t.get? loc = some e) (hloc : loc ≠ []) :
    ∃ e', (loc, e') ∈ t.entries := by
  rw [get?, if_neg hloc] at h
  obtain ⟨l₁, l₂, heq, -⟩ := List.lookup_eq_some_iff.1 h
  exact ⟨e, by simp [heq]⟩

/-- There is nothing below a place where nothing is. -/
theorem Connected.get?_append_eq_none (h : t.Connected) (hloc : t.get? loc = none)
    (names : List Name) : t.get? (loc ++ names) = none := by
  induction names using List.reverseRecOn with
  | nil => rwa [List.append_nil]
  | append_singleton names n ih =>
    rw [← List.append_assoc]
    cases hget : t.get? (loc ++ names ++ [n]) with
    | none => rfl
    | some e =>
      obtain ⟨e', hmem⟩ := mem_entries_of_get? hget (by simp)
      have hdir := h _ hmem
      rw [List.dropLast_concat, ih] at hdir
      exact absurd hdir nofun

theorem exists_foldl_follow_eq {parts : List Path.Part}
    (h : ∀ part ∈ parts, part ≠ .up ∧ part ≠ .root) (loc : Location) :
    ∃ names, parts.foldl Path.Part.follow loc = loc ++ names := by
  induction parts generalizing loc with
  | nil => exact ⟨[], (List.append_nil loc).symm⟩
  | cons part parts ih =>
    obtain ⟨names, hnames⟩ := ih (fun q hq => h q (List.mem_cons_of_mem part hq)) (part.follow loc)
    obtain ⟨hup, hroot⟩ := h part List.mem_cons_self
    rw [List.foldl_cons, hnames]
    cases part with
    | root => exact absurd rfl hroot
    | up => exact absurd rfl hup
    | here => exact ⟨names, rfl⟩
    | name n => exact ⟨n :: names, by rw [Path.Part.follow, List.append_assoc]; rfl⟩

namespace Grown

variable {P : Location → Prop}

/-- A walk down that has become possible was stopped by a missing directory. -/
theorem steps_cases (h : t.Grown P u) (hc : t.Connected) {parts : List Path.Part}
    (hparts : ∀ part ∈ parts, part ≠ .up ∧ part ≠ .root) {start : Location}
    (hsteps : parts.foldlM u.step start = .ok loc) :
    parts.foldlM t.step start = .ok loc ∨
      (parts.foldlM t.step start = .error .notFound ∧ t.get? loc = none) := by
  induction parts generalizing start with
  | nil => exact .inl hsteps
  | cons part parts ih =>
    have hrest := fun q hq => hparts q (List.mem_cons_of_mem part hq)
    have hfollow := steps_eq_follow hsteps
    rw [List.foldlM_cons] at hsteps ⊢
    obtain ⟨next, hnext, hlast⟩ := bind_eq_ok_iff.1 hsteps
    have hroot := (hparts part List.mem_cons_self).2
    rcases h.entry start with heq | ⟨-, hnone, -⟩
    · have hstep : t.step start part = .ok next := by
        rw [← hnext]
        cases part <;> simp only [FileTree.step, heq]
      rw [hstep]
      exact ih hrest hlast
    · have hstep : t.step start part = .error .notFound := by
        cases part <;> simp [FileTree.step, hnone] at hroot ⊢
      rw [hstep]
      obtain ⟨names, hnames⟩ := exists_foldl_follow_eq hparts start
      refine .inr ⟨rfl, ?_⟩
      rw [hfollow, hnames]
      exact hc.get?_append_eq_none hnone names

theorem find_cases (h : t.Grown P u) (hc : t.Connected) (hup : .up ∉ p.parts)
    (hfind : u.find p = .ok loc) :
    t.find p = .ok loc ∨ (t.find p = .error .notFound ∧ t.get? loc = none) := by
  obtain ⟨⟨⟩, hcheck, hwalk⟩ := bind_eq_ok_iff.1 hfind
  have hfindt : t.find p = t.walk p.parts := by rw [FileTree.find, hcheck]; rfl
  rw [hfindt]
  rw [walk] at hwalk ⊢
  rw [h.home] at hwalk
  have htail := p.root_not_mem_tail
  cases hparts : p.parts with
  | nil =>
    rw [hparts] at hwalk
    exact .inl hwalk
  | cons part parts =>
    rw [hparts] at hwalk hup htail
    have hdown : ∀ q ∈ parts, q ≠ .up ∧ q ≠ .root := fun q hq =>
      ⟨fun heq => hup (heq ▸ List.mem_cons_of_mem part hq), fun heq => htail (heq ▸ hq)⟩
    by_cases hroot : part = .root
    · subst hroot
      have hwalk' : parts.foldlM u.step [] = .ok loc := hwalk
      exact h.steps_cases hc hdown hwalk'
    · refine h.steps_cases hc ?_ hwalk
      rintro q hq
      rcases List.mem_cons.1 hq with rfl | hq
      · exact ⟨fun heq => hup (heq ▸ List.mem_cons_self), hroot⟩
      · exact hdown q hq

/-- Along a path that only goes down there is nothing to read that was not there before. -/
theorem read_eq (h : t.Grown P u) (hc : t.Connected) (hup : .up ∉ p.parts)
    (hfind : u.find p = .ok loc) (hloc : u.get? loc ≠ some .directory) : u.read p = t.read p := by
  have hget : u.get? loc = t.get? loc :=
    (h.entry loc).resolve_right fun hnew => hloc hnew.2.2
  rcases h.find_cases hc hup hfind with hfind' | ⟨hmissing, hnone⟩
  · rw [FileTree.read, FileTree.read, hfind, hfind', ok_bind, ok_bind, hget]
  · rw [FileTree.read, FileTree.read, hfind, hmissing, ok_bind, hget, hnone]
    rfl

end Grown

/-! ## Creating -/

/-- Where the path leads if nothing is in the way. -/
def place (t : FileTree) (p : Path) : Location := p.location.foldl Path.Part.follow t.home

theorem place_eq_of_home (h : t'.home = t.home) (p : Path) : t'.place p = t.place p := by
  rw [place, place, h]

theorem createDirectory_eq_ok_iff :
    t.createDirectory p = .ok t' ↔ ∃ loc n, t.find p = .ok loc ∧
      p.parts.getLast? = some (.name n) ∧ t.get? loc = none ∧ t.refusal? loc = none ∧
      t' = t.set loc .directory := by
  rw [createDirectory, bind_eq_ok_iff]
  refine exists_congr fun loc => ?_
  rcases p.parts.getLast? with _ | part
  · simp
  · cases part with
    | name n =>
      cases t.get? loc <;> cases t.refusal? loc <;> simp [eq_comm, pure, Except.pure]
    | _ => simp

theorem Grown.of_createDirectory (h : t.createDirectory p = .ok t') :
    t.Grown (fun loc => loc = t.place p) t' := by
  obtain ⟨loc, n, hfind, -, hnone, -, rfl⟩ := createDirectory_eq_ok_iff.1 h
  have hloc : loc ≠ [] := by
    rintro rfl
    exact absurd hnone nofun
  refine ⟨rfl, rfl, fun other => ?_⟩
  rw [get?_set t hloc]
  by_cases hother : other = loc
  · subst hother
    exact .inr ⟨find_eq_follow hfind, hnone, if_pos rfl⟩
  · exact .inl (if_neg hother)

theorem Grown.of_ensureDirectory (h : t.ensureDirectory p = .ok t') :
    t.Grown (fun loc => loc = t.place p) t' := by
  rw [ensureDirectory] at h
  cases hcreate : t.createDirectory p with
  | ok u =>
    rw [hcreate] at h
    obtain rfl := Except.ok.inj h
    exact .of_createDirectory hcreate
  | error e =>
    simp only [hcreate] at h
    by_cases hthere : e = .alreadyExists ∧ t.isDirectory p = true
    · rw [if_pos hthere] at h
      obtain rfl := Except.ok.inj h
      exact .refl _ t
    · rw [if_neg hthere] at h
      exact absurd h nofun

/-- One of the directories is created, and only those inside it are left to do. -/
theorem grown_of_createOuter {pending outer inner : List Path}
    (h : t.createOuter pending outer = .ok (t', inner)) :
    t.Grown (fun loc => ∃ q ∈ outer, loc = t.place q) t' ∧
      ∀ q ∈ inner, q ∈ pending ∨ q ∈ outer := by
  induction outer generalizing pending with
  | nil =>
    obtain ⟨rfl, rfl⟩ := Prod.mk.inj (Except.ok.inj h)
    exact ⟨.refl _ t, fun q hq => .inl hq⟩
  | cons p outer ih =>
    rw [createOuter] at h
    cases hcreate : t.createDirectory p with
    | ok u =>
      rw [hcreate] at h
      obtain ⟨rfl, rfl⟩ := Prod.mk.inj (Except.ok.inj h)
      refine ⟨(Grown.of_createDirectory hcreate).mono fun loc hloc => ?_, fun q hq => .inl hq⟩
      exact ⟨p, List.mem_cons_self, hloc⟩
    | error e =>
      rw [hcreate] at h
      cases e with
      | notFound =>
        obtain ⟨hgrown, hinner⟩ := ih h
        refine ⟨hgrown.mono fun loc ⟨q, hq, hloc⟩ => ⟨q, List.mem_cons_of_mem p hq, hloc⟩, ?_⟩
        intro q hq
        rcases hinner q hq with hq | hq
        · rcases List.mem_cons.1 hq with rfl | hq
          · exact .inr List.mem_cons_self
          · exact .inl hq
        · exact .inr (List.mem_cons_of_mem p hq)
      | alreadyExists =>
        by_cases hthere : t.isDirectory p = true
        · simp only [hthere, if_true] at h
          obtain ⟨rfl, rfl⟩ := Prod.mk.inj (Except.ok.inj h)
          exact ⟨.refl _ t, fun q hq => .inl hq⟩
        · simp only [hthere] at h
          exact absurd h nofun
      | _ => exact absurd h nofun

/-- A place of a directory that has to be there for the path to lead to one. -/
def OnTheWay (t : FileTree) (dir : Path) (loc : Location) : Prop :=
  ∃ q ∈ dir.directories, loc = t.place q

end FileTree

namespace Files

open FileTree (Grown OnTheWay)

variable {t t' : FileTree} {dir : Path}

theorem after_change_of_ok {ε : Type} {f : FileTree → Except ε FileTree} (h : f t = .ok t') :
    (change f).after t = t' := by
  refine after_of_run_ok (a := ()) ?_
  show change f t = _
  rw [change, h]

theorem after_change_of_error {ε : Type} {f : FileTree → Except ε FileTree} {e : ε}
    (h : f t = .error e) : (change f).after t = t := by
  refine after_of_run_error (e := e) ?_
  show change f t = _
  rw [change, h]

theorem after_ensureDirectories {dirs : List Path} {P : Location → Prop} (t : FileTree)
    (hP : ∀ q ∈ dirs, P (t.place q)) :
    t.Grown P (Files.after (dirs.forM fun q => change fun t => t.ensureDirectory q) t) := by
  induction dirs generalizing t with
  | nil => exact .refl P t
  | cons q dirs ih =>
    have hfirst : t.Grown P ((change fun t => t.ensureDirectory q).after t) := by
      cases hensure : t.ensureDirectory q with
      | ok u =>
        rw [after_change_of_ok hensure]
        refine (Grown.of_ensureDirectory hensure).mono fun loc hloc => ?_
        rw [hloc]
        exact hP q List.mem_cons_self
      | error e =>
        rw [after_change_of_error hensure]
        exact .refl P t
    refine after_bind_of_trans .trans hfirst fun _ _ => ih _ fun q' hq' => ?_
    rw [FileTree.place_eq_of_home hfirst.home]
    exact hP q' (List.mem_cons_of_mem q hq')

/-- Creates the first directory that can be, and answers which are left. -/
def createFirst (dirs : List Path) : Files FileError (List Path) := fun t =>
  match t.createOuter [] dirs with
  | .ok (t, inner) => .ok inner t
  | .error e => .error e t

theorem createDirectories_eq (dir : Path) : createDirectories dir =
    (createFirst dir.directories >>= fun inner =>
      inner.forM fun q => change fun t => t.ensureDirectory q) := rfl

theorem after_createFirst (dirs : List Path) (t : FileTree) :
    t.Grown (fun loc => ∃ q ∈ dirs, loc = t.place q) ((createFirst dirs).after t) ∧
      ∀ inner, (createFirst dirs).answer t = .ok inner → ∀ q ∈ inner, q ∈ dirs := by
  cases h : t.createOuter [] dirs with
  | error e =>
    have hrun : (createFirst dirs).run t = .error e t := by
      show createFirst dirs t = _
      rw [createFirst, h]
    obtain ⟨hanswer, hafter⟩ := run_eq_error_iff.1 hrun
    rw [hafter, hanswer]
    exact ⟨.refl _ t, nofun⟩
  | ok r =>
    obtain ⟨u, inner⟩ := r
    have hrun : (createFirst dirs).run t = .ok inner u := by
      show createFirst dirs t = _
      rw [createFirst, h]
    obtain ⟨hanswer, hafter⟩ := run_eq_ok_iff.1 hrun
    obtain ⟨hgrown, hinner⟩ := FileTree.grown_of_createOuter h
    rw [hafter, hanswer]
    refine ⟨hgrown, fun _ heq q hq => ?_⟩
    obtain rfl := Except.ok.inj heq
    exact (hinner q hq).resolve_left List.not_mem_nil

theorem after_createDirectories (dir : Path) (t : FileTree) :
    t.Grown (t.OnTheWay dir) ((createDirectories dir).after t) := by
  obtain ⟨hfirst, hinner⟩ := after_createFirst dir.directories t
  rw [createDirectories_eq]
  refine after_bind_of_trans .trans hfirst fun inner hanswer =>
    after_ensureDirectories _ fun q hq => ?_
  rw [FileTree.place_eq_of_home hfirst.home]
  exact ⟨q, hinner inner hanswer q hq, rfl⟩

/-- Creates a directory unless it is there. -/
def makeDirectory (dir : Path) : Files FileError Unit := do
  if !(← isDirectory dir) then createDirectories dir

theorem run_isDirectory {ε : Type} (dir : Path) (t : FileTree) :
    (isDirectory dir : Files ε Bool).run t = .ok (t.isDirectory dir) t := rfl

theorem run_makeDirectory_of_isDirectory (h : t.isDirectory dir = true) :
    (makeDirectory dir).run t = .ok () t := by
  rw [makeDirectory, run_bind, run_isDirectory, h]
  rfl

theorem run_makeDirectory_of_not_isDirectory (h : t.isDirectory dir = false) :
    (makeDirectory dir).run t = (createDirectories dir).run t := by
  rw [makeDirectory, run_bind, run_isDirectory, h]
  rfl

/-- The directory is made before anything else is done. -/
theorem makeDirectory_bind {ε β : Type} (dir : Path) (explanation : FileError → ε)
    (rest : Files ε β) : (do
      if !(← isDirectory dir) then (createDirectories dir).explain explanation
      rest : Files ε β) = ((makeDirectory dir).explain explanation >>= fun _ => rest) := by
  funext t
  show EStateM.run _ t = EStateM.run _ t
  rw [run_bind, run_isDirectory]
  cases h : t.isDirectory dir with
  | true =>
    have hmake : ((makeDirectory dir).explain explanation).run t = .ok () t :=
      run_explain_eq_ok_iff.2 (run_makeDirectory_of_isDirectory h)
    rw [run_bind, hmake]
    rfl
  | false =>
    have hmake : ((makeDirectory dir).explain explanation).run t =
        ((createDirectories dir).explain explanation).run t := by
      have hrun : makeDirectory dir t = createDirectories dir t :=
        run_makeDirectory_of_not_isDirectory h
      show EStateM.adaptExcept explanation (makeDirectory dir) t =
        EStateM.adaptExcept explanation (createDirectories dir) t
      rw [EStateM.adaptExcept, EStateM.adaptExcept, hrun]
    show EStateM.run ((createDirectories dir).explain explanation >>= fun _ => rest) t = _
    rw [run_bind, run_bind, hmake]

theorem after_makeDirectory (dir : Path) (t : FileTree) :
    t.Grown (t.OnTheWay dir) ((makeDirectory dir).after t) := by
  cases h : t.isDirectory dir with
  | true =>
    rw [after_of_run_ok (run_makeDirectory_of_isDirectory h)]
    exact .refl _ t
  | false =>
    have hgrown := after_createDirectories dir t
    unfold after at hgrown ⊢
    rwa [run_makeDirectory_of_not_isDirectory h]

end Files
end LayeredConfig
