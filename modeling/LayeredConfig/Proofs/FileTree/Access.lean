/-
What a write does to the other files.

A walk only looks at what is a directory, so a path leads to the same location in all trees with
the same directories (`SameDirectories.find_eq_ok_iff`). A write puts a text where no directory is.
It is read back from the same path, and what is at any other location stays as it is.
-/
import LayeredConfig.FileTree.Access
import LayeredConfig.Proofs.Path.Spelling
import LayeredConfig.Proofs.Result

namespace LayeredConfig
namespace FileTree

variable {t t' : FileTree} {p : Path} {s : String} {loc : Location}

/-! ## Walks -/

theorem directory_of_step {part : Path.Part} {next : Location} (hp : part ≠ .root)
    (h : t.step loc part = .ok next) : t.get? loc = some .directory := by
  cases hget : t.get? loc with
  | none => cases part <;> simp [step, hget] at h hp
  | some e =>
    cases e with
    | directory => rfl
    | file c => cases part <;> simp [step, hget] at h hp

/-- Walks start at the same place, and what was a directory still is one. -/
structure KeepsDirectories (t t' : FileTree) : Prop where
  home : t'.home = t.home
  directory : ∀ loc, t.get? loc = some .directory → t'.get? loc = some .directory

namespace KeepsDirectories

theorem step (h : KeepsDirectories t t') {part : Path.Part} {next : Location}
    (hstep : t.step loc part = .ok next) : t'.step loc part = .ok next := by
  by_cases hp : part = .root
  · subst hp
    exact hstep
  · have hd := directory_of_step hp hstep
    have hd' := h.directory loc hd
    cases part <;> simpa [FileTree.step, hd, hd'] using hstep

theorem steps (h : KeepsDirectories t t') {parts : List Path.Part} {next : Location}
    (hsteps : parts.foldlM t.step loc = .ok next) : parts.foldlM t'.step loc = .ok next := by
  induction parts generalizing loc with
  | nil => exact hsteps
  | cons part parts ih =>
    rw [List.foldlM_cons] at hsteps ⊢
    obtain ⟨mid, hmid, hrest⟩ := bind_eq_ok_iff.1 hsteps
    rw [h.step hmid]
    exact ih hrest

theorem walk (h : KeepsDirectories t t') {parts : List Path.Part}
    (hwalk : t.walk parts = .ok loc) : t'.walk parts = .ok loc := by
  rw [FileTree.walk, h.home]
  exact h.steps hwalk

theorem find (h : KeepsDirectories t t') (hfind : t.find p = .ok loc) : t'.find p = .ok loc := by
  obtain ⟨⟨⟩, hcheck, hwalk⟩ := bind_eq_ok_iff.1 hfind
  exact bind_eq_ok_iff.2 ⟨(), hcheck, h.walk hwalk⟩

end KeepsDirectories

/-- Walks start at the same place and find the same directories on the way, and writing is refused
at the same places. -/
structure SameDirectories (t t' : FileTree) : Prop where
  home : t'.home = t.home
  refusals : t'.refusals = t.refusals
  directory : ∀ loc, t'.get? loc = some .directory ↔ t.get? loc = some .directory

namespace SameDirectories

theorem refl (t : FileTree) : SameDirectories t t := ⟨rfl, rfl, fun _ => .rfl⟩

theorem symm (h : SameDirectories t t') : SameDirectories t' t :=
  ⟨h.home.symm, h.refusals.symm, fun loc => (h.directory loc).symm⟩

theorem trans {t'' : FileTree} (h : SameDirectories t t') (h' : SameDirectories t' t'') :
    SameDirectories t t'' :=
  ⟨h'.home.trans h.home, h'.refusals.trans h.refusals,
    fun loc => (h'.directory loc).trans (h.directory loc)⟩

theorem refusal?_eq (h : SameDirectories t t') (loc : Location) :
    t'.refusal? loc = t.refusal? loc := by
  rw [refusal?, refusal?, h.refusals]

theorem keeps (h : SameDirectories t t') : KeepsDirectories t t' :=
  ⟨h.home, fun loc => (h.directory loc).2⟩

theorem walk_eq_ok_iff (h : SameDirectories t t') {parts : List Path.Part} :
    t'.walk parts = .ok loc ↔ t.walk parts = .ok loc := ⟨h.symm.keeps.walk, h.keeps.walk⟩

theorem find (h : SameDirectories t t') (hfind : t.find p = .ok loc) : t'.find p = .ok loc :=
  h.keeps.find hfind

theorem find_eq_ok_iff (h : SameDirectories t t') : t'.find p = .ok loc ↔ t.find p = .ok loc :=
  ⟨h.symm.find, h.find⟩

theorem isDirectory_eq (h : SameDirectories t t') (p : Path) :
    t'.isDirectory p = t.isDirectory p := by
  have hiff {t : FileTree} : t.isDirectory p = true ↔
      ∃ loc, t.find p = .ok loc ∧ t.get? loc = some .directory := by
    rw [isDirectory]
    cases t.find p <;> simp
  rw [Bool.eq_iff_iff, hiff, hiff]
  simp only [h.find_eq_ok_iff, h.directory]

end SameDirectories

theorem walk_of_find (h : t.find p = .ok loc) : t.walk p.parts = .ok loc := by
  obtain ⟨⟨⟩, -, hwalk⟩ := bind_eq_ok_iff.1 h
  exact hwalk

/-- The last name is looked for in the directory that the parts before it lead to. -/
theorem walk_concat_name {parts : List Path.Part} {n : Name}
    (h : t.walk (parts ++ [.name n]) = .ok loc) :
    ∃ base, t.walk parts = .ok base ∧ t.get? base = some .directory ∧ loc = base ++ [n] := by
  rw [walk, List.foldlM_append] at h
  obtain ⟨base, hbase, hlast⟩ := bind_eq_ok_iff.1 h
  rw [List.foldlM_cons] at hlast
  obtain ⟨next, hstep, hnext⟩ := bind_eq_ok_iff.1 hlast
  obtain rfl : next = loc := Except.ok.inj hnext
  have hd := directory_of_step (by simp) hstep
  refine ⟨base, hbase, hd, ?_⟩
  simp only [step, hd] at hstep
  by_cases hsize : n.size > nameLimit
  · rw [if_pos hsize] at hstep
    exact absurd hstep (by simp)
  · rw [if_neg hsize] at hstep
    exact (Except.ok.inj hstep).symm

/-- A name after a path is looked for in the directory that the path leads to. -/
theorem walk_join_name {n : Name} (hn : (Path.Part.name n).Lasting)
    (h : t.walk (p / ⟨n⟩).parts = .ok loc) :
    ∃ base, t.walk p.parts = .ok base ∧ t.get? base = some .directory ∧ loc = base ++ [n] := by
  rw [Path.parts_join_name p hn] at h
  exact walk_concat_name h

theorem find_join_name {n : Name} (hn : (Path.Part.name n).Lasting)
    (h : t.find (p / ⟨n⟩) = .ok loc) :
    ∃ base, t.walk p.parts = .ok base ∧ t.get? base = some .directory ∧ loc = base ++ [n] :=
  walk_join_name hn (walk_of_find h)

/-- The name is the last one of the location. -/
theorem find_join_name_inj {q : Path} {n m : Name} (hn : (Path.Part.name n).Lasting)
    (hm : (Path.Part.name m).Lasting) (h : t.find (p / ⟨n⟩) = .ok loc)
    (h' : t.find (q / ⟨m⟩) = .ok loc) : n = m := by
  obtain ⟨base, -, -, hloc⟩ := find_join_name hn h
  obtain ⟨base', -, -, hloc'⟩ := find_join_name hm h'
  have hlast := congrArg List.getLast? (hloc.symm.trans hloc')
  rw [List.getLast?_concat, List.getLast?_concat] at hlast
  exact Option.some.inj hlast

/-- The last characters of a path are at the end of the last name of the location. -/
theorem exists_getLast?_of_find {s : String} (hslash : Path.slash ∉ Name.ofString s)
    (hlength : 3 ≤ (Name.ofString s).length) {before : String}
    (h : t.find (p / .ofString (before ++ s)) = .ok loc) :
    ∃ front, loc.getLast? = some (front ++ Name.ofString s) := by
  obtain ⟨us, hunits⟩ := Path.exists_units_join p (.ofString (before ++ s))
  have hpath : p / .ofString (before ++ s) =
      ⟨(us ++ Name.ofString before) ++ Name.ofString s⟩ := by
    refine congrArg Path.mk (hunits.trans ?_)
    show us ++ Name.ofString (before ++ s) = _
    simp [Name.ofString]
  obtain ⟨parts, front, hparts⟩ :=
    Path.exists_parts_concat hslash hlength (us ++ Name.ofString before)
  have hwalk := walk_of_find h
  rw [hpath, hparts] at hwalk
  obtain ⟨base, -, -, rfl⟩ := walk_concat_name hwalk
  exact ⟨front, List.getLast?_concat⟩

/-- In a directory a name is found in all trees with the same directories, or in none. -/
theorem find_join_name_eq (hd : t.SameDirectories t') {n : Name} (hn : (Path.Part.name n).Lasting)
    {base : Location} (hwalk : t.walk p.parts = .ok base)
    (hbase : t.get? base = some .directory) : t'.find (p / ⟨n⟩) = t.find (p / ⟨n⟩) := by
  have hwalk' := hd.walk_eq_ok_iff.2 hwalk
  have hwalks : t'.walk (p / ⟨n⟩).parts = t.walk (p / ⟨n⟩).parts := by
    rw [walk] at hwalk hwalk'
    rw [walk, walk, Path.parts_join_name p hn, List.foldlM_append, List.foldlM_append, hwalk,
      hwalk', ok_bind, ok_bind, List.foldlM_cons, List.foldlM_cons]
    simp only [step, hbase, (hd.directory base).2 hbase]
    rfl
  rw [find, find, hwalks]

theorem namesDirectory_join_name (p : Path) {n : Name} (hn : (Path.Part.name n).Lasting) :
    namesDirectory (p / ⟨n⟩) = false := by
  have hlast : (Path.pieces (p / ⟨n⟩).units).getLast? = some n := by
    rcases Path.join_of_relative p (Path.isAbsolute_name hn) with ⟨-, hjoin⟩ | ⟨us, hjoin, -⟩
    · rw [hjoin, Path.pieces_name hn]
      rfl
    · rw [hjoin, Path.pieces_append, Path.pieces_name hn, List.getLast?_concat]
  obtain ⟨hne, -, hdot, hdotDot⟩ := hn
  rw [namesDirectory, hlast]
  simp [hne, hdot, hdotDot]

/-! ## Reading and writing -/

theorem read_eq_ok_iff :
    t.read p = .ok s ↔ ∃ loc, t.find p = .ok loc ∧ t.get? loc = some (.file (.text s)) ∧
      namesDirectory p = false := by
  rw [read, bind_eq_ok_iff]
  refine exists_congr fun loc => and_congr_right fun _ => ?_
  cases hget : t.get? loc with
  | none => simp
  | some e =>
    cases e with
    | directory => simp
    | file content => cases namesDirectory p <;> cases content <;> simp [pure, Except.pure]

/-- A text can be put at the location under the path. -/
structure Accepts (t : FileTree) (p : Path) (loc : Location) : Prop where
  find : t.find p = .ok loc
  spelling : namesDirectory p = false
  free : t.get? loc ≠ some .directory
  unrefused : t.refusal? loc = none

theorem write_eq_ok_iff :
    t.write p s = .ok t' ↔ ∃ loc, t.Accepts p loc ∧ t' = t.set loc (.file (.text s)) := by
  rw [write, bind_eq_ok_iff]
  refine exists_congr fun loc => ?_
  by_cases hd : namesDirectory p ∨ t.get? loc = some .directory
  · rw [if_pos hd, throw_eq_error, error_bind]
    refine iff_of_false (fun h => absurd h.2 nofun) ?_
    rintro ⟨h, -⟩
    rcases hd with hd | hd
    · exact absurd (h.spelling ▸ hd) nofun
    · exact h.free hd
  · rw [if_neg hd]
    obtain ⟨hname, hget⟩ := not_or.1 hd
    cases hrefusal : t.refusal? loc with
    | some e =>
      refine iff_of_false (fun h => absurd h.2 nofun) ?_
      rintro ⟨h, -⟩
      exact absurd (hrefusal.symm.trans h.unrefused) nofun
    | none =>
      constructor
      · rintro ⟨hfind, h⟩
        exact ⟨⟨hfind, by simpa using hname, hget, hrefusal⟩, (Except.ok.inj h).symm⟩
      · rintro ⟨h, rfl⟩
        exact ⟨h.find, rfl⟩

namespace Accepts

theorem ne_nil (h : t.Accepts p loc) : loc ≠ [] := by
  rintro rfl
  exact h.free rfl

/-- A file that can be read can be written unless that is refused. -/
theorem of_read (h : t.read p = .ok s) (hfind : t.find p = .ok loc)
    (hrefusal : t.refusal? loc = none) : t.Accepts p loc := by
  obtain ⟨loc', hfind', htext, hname⟩ := read_eq_ok_iff.1 h
  obtain rfl : loc = loc' := Except.ok.inj (hfind.symm.trans hfind')
  exact ⟨hfind, hname, by simp [htext], hrefusal⟩

theorem of_sameDirectories (h : t.Accepts p loc) (hd : t.SameDirectories t') : t'.Accepts p loc :=
  ⟨hd.find h.find, h.spelling, mt (hd.directory loc).1 h.free,
    (hd.refusal?_eq loc).trans h.unrefused⟩

end Accepts

/-- A file that is at the same location with the same text is read in both trees. -/
theorem SameDirectories.read (h : SameDirectories t t')
    (hget : ∀ loc, t.find p = .ok loc → t'.get? loc = t.get? loc) (hread : t.read p = .ok s) :
    t'.read p = .ok s := by
  obtain ⟨loc, hfind, htext, hname⟩ := read_eq_ok_iff.1 hread
  exact read_eq_ok_iff.2 ⟨loc, h.find hfind, (hget loc hfind).trans htext, hname⟩

section Write

variable (h : t.write p s = .ok t')
include h

theorem get?_of_write (other : Location) :
    t'.get? other =
      if t.find p = .ok other then some (.file (.text s)) else t.get? other := by
  obtain ⟨loc, haccepts, rfl⟩ := write_eq_ok_iff.1 h
  have hother : t.find p = .ok other ↔ other = loc := by
    rw [haccepts.find, Except.ok.injEq, eq_comm]
  rw [get?_set t haccepts.ne_nil]
  exact if_congr hother.symm rfl rfl

theorem get?_of_write_of_ne (hne : t.find p ≠ .ok loc) : t'.get? loc = t.get? loc := by
  rw [get?_of_write h, if_neg hne]

theorem SameDirectories.of_write : SameDirectories t t' := by
  obtain ⟨loc, haccepts, ht'⟩ := write_eq_ok_iff.1 h
  refine ⟨by rw [ht']; rfl, by rw [ht']; rfl, fun other => ?_⟩
  by_cases hother : t.find p = .ok other
  · obtain rfl : loc = other := Except.ok.inj (haccepts.find.symm.trans hother)
    rw [get?_of_write h, if_pos hother]
    exact ⟨fun e => absurd (Option.some.inj e) (by simp), fun e => absurd e haccepts.free⟩
  · rw [get?_of_write_of_ne h hother]

theorem read_of_write : t'.read p = .ok s := by
  obtain ⟨loc, haccepts, -⟩ := write_eq_ok_iff.1 h
  have hget : t'.get? loc = some (.file (.text s)) := by rw [get?_of_write h, if_pos haccepts.find]
  exact read_eq_ok_iff.2
    ⟨loc, (SameDirectories.of_write h).find haccepts.find, hget, haccepts.spelling⟩

end Write

end FileTree

/-! ## Running actions -/

namespace Files

variable {ε ε' α β : Type} {t t' : FileTree}

theorem run_bind (x : Files ε α) (f : α → Files ε β) (t : FileTree) :
    (x >>= f).run t = match x.run t with
      | .ok a mid => (f a).run mid
      | .error e mid => .error e mid := by
  show EStateM.bind x f t = _
  rw [EStateM.bind, EStateM.run]
  cases x t <;> rfl

theorem run_bind_eq_ok_iff {x : Files ε α} {f : α → Files ε β} {b : β} :
    (x >>= f).run t = .ok b t' ↔ ∃ a mid, x.run t = .ok a mid ∧ (f a).run mid = .ok b t' := by
  rw [run_bind]
  cases x.run t <;> simp

theorem run_explain_eq_ok_iff {f : ε → ε'} {x : Files ε α} {a : α} :
    (x.explain f).run t = .ok a t' ↔ x.run t = .ok a t' := by
  show EStateM.adaptExcept f x t = _ ↔ x t = _
  rw [EStateM.adaptExcept]
  cases x t <;> simp

theorem run_ask_eq_ok_iff {question : FileTree → Except ε α} {a : α} :
    (ask question).run t = .ok a t' ↔ question t = .ok a ∧ t' = t := by
  show ask question t = _ ↔ _
  rw [ask]
  cases question t <;> simp [eq_comm]

theorem run_write_eq_ok_iff {p : Path} {s : String} :
    (write p s).run t = .ok () t' ↔ t.write p s = .ok t' := by
  show change (fun t => t.write p s) t = _ ↔ _
  rw [change]
  cases t.write p s <;> simp

end Files
end LayeredConfig
