/-
Files by their names in a directory that is there.

A file that is found in the directory of a path shows that the path leads to one
(`exists_openAt_of_find`). Writing one file there does not change what is read from the others
(`read_of_write_name`), nor does making the directory if that has to be done first
(`Grown.read_eq_of_openAt`).
-/
import LayeredConfig.Proofs.FileTree.Made

namespace LayeredConfig

theorem Name.size_append (n m : Name) : Name.size (n ++ m) = Name.size n + Name.size m := by
  induction n with
  | nil => exact (Nat.zero_add _).symm
  | cons u n ih =>
    show u.size + Name.size (n ++ m) = u.size + Name.size n + Name.size m
    rw [ih, Nat.add_assoc]

namespace FileTree

variable {t t' : FileTree} {p dir : Path} {loc base : Location} {n m : Name} {s : String}

theorem checkPath_eq_ok_iff : checkPath p = .ok () ↔
    .char '\x00' ∉ p.units ∧ p.units ≠ [] ∧ Name.size p.units < pathLimit := by
  rw [checkPath]
  split
  · simp_all
  · split
    · simp_all
    · split <;> simp_all

/-- What is before a name in a path is as good as the path, or empty. -/
theorem checkPath_of_join_name (hn : (Path.Part.name n).Lasting)
    (h : checkPath (dir / ⟨n⟩) = .ok ()) : dir.units = [] ∨ checkPath dir = .ok () := by
  have hunits : ∃ us, (dir / ⟨n⟩ : Path).units = dir.units ++ us := by
    show ∃ us, (dir.join ⟨n⟩).units = dir.units ++ us
    rw [Path.join, if_neg (by simp [Path.isAbsolute_name hn])]
    split
    · exact ⟨n, rfl⟩
    · exact ⟨Path.slash :: n, rfl⟩
  obtain ⟨us, hus⟩ := hunits
  obtain ⟨hnul, -, hsize⟩ := checkPath_eq_ok_iff.1 h
  rw [hus] at hnul hsize
  rw [Name.size_append] at hsize
  by_cases hdir : dir.units = []
  · exact .inl hdir
  · refine .inr (checkPath_eq_ok_iff.2 ⟨fun hmem => hnul ?_, hdir, by omega⟩)
    exact List.mem_append_left us hmem

/-- The path leads to a directory, in which names can be looked up. -/
structure OpenAt (t : FileTree) (dir : Path) (base : Location) : Prop where
  spelled : dir.units = [] ∨ checkPath dir = .ok ()
  walk : t.walk dir.parts = .ok base
  directory : t.get? base = some .directory

theorem exists_openAt_of_find (hn : (Path.Part.name n).Lasting)
    (h : t.find (dir / ⟨n⟩) = .ok loc) : ∃ base, t.OpenAt dir base ∧ loc = base ++ [n] := by
  obtain ⟨base, hwalk, hbase, hloc⟩ := find_join_name hn h
  obtain ⟨⟨⟩, hcheck, -⟩ := bind_eq_ok_iff.1 h
  exact ⟨base, ⟨checkPath_of_join_name hn hcheck, hwalk, hbase⟩, hloc⟩

/-- Writing a file does not change what is read from a file of another name. -/
theorem read_of_write_name (hn : (Path.Part.name n).Lasting) (hm : (Path.Part.name m).Lasting)
    (hne : n ≠ m) (h : t.write (dir / ⟨n⟩) s = .ok t') :
    t'.read (dir / ⟨m⟩) = t.read (dir / ⟨m⟩) := by
  obtain ⟨loc, haccepts, -⟩ := write_eq_ok_iff.1 h
  obtain ⟨base, hwalk, hbase, -⟩ := find_join_name hn haccepts.find
  have hfindm := find_join_name_eq (SameDirectories.of_write h) hm hwalk hbase
  rw [read, read, hfindm]
  cases hother : t.find (dir / ⟨m⟩) with
  | error e => rfl
  | ok other =>
    have hget : t'.get? other = t.get? other :=
      get?_of_write_of_ne h fun heq => hne (find_join_name_inj hn hm heq hother)
    rw [ok_bind, ok_bind, hget]

namespace OpenAt

theorem of_sameDirectories (h : t.OpenAt dir base) (hd : t.SameDirectories t') :
    t'.OpenAt dir base :=
  ⟨h.spelled, hd.walk_eq_ok_iff.2 h.walk, (hd.directory base).2 h.directory⟩

/-- The directory need not be made. -/
theorem run_makeDirectory (h : t.OpenAt dir base) : (Files.makeDirectory dir).run t = .ok () t := by
  rcases h.spelled with hnil | hcheck
  · obtain rfl : dir = ⟨[]⟩ := congrArg Path.mk hnil
    exact Files.run_makeDirectory_of_not_isDirectory rfl
  · refine Files.run_makeDirectory_of_isDirectory ?_
    have hfind : t.find dir = .ok base := by rw [find, hcheck]; exact h.walk
    rw [isDirectory, hfind]
    exact decide_eq_true h.directory

theorem walk_join_name (h : t.OpenAt dir base) (hn : (Path.Part.name n).Lasting) :
    t.walk (dir / ⟨n⟩).parts =
      if Name.size n > nameLimit then .error .nameTooLong else .ok (base ++ [n]) := by
  have hdir := h.walk
  rw [FileTree.walk] at hdir
  rw [FileTree.walk, Path.parts_join_name dir hn, List.foldlM_append, hdir, ok_bind,
    List.foldlM_cons]
  simp only [step, h.directory]
  split <;> rfl

/-- Looking up a name cannot fail for want of a directory. -/
theorem find_ne_notFound (h : t.OpenAt dir base) (hn : (Path.Part.name n).Lasting) :
    t.find (dir / ⟨n⟩) ≠ .error .notFound := by
  have hunits : (dir / ⟨n⟩ : Path).units ≠ [] := by
    intro hnil
    have hparts := Path.parts_join_name dir hn
    rw [show dir / ⟨n⟩ = (⟨[]⟩ : Path) from congrArg Path.mk hnil] at hparts
    exact absurd hparts.symm (by simp [Path.parts, Path.pieces, Path.isAbsolute, Path.Part.ofPiece])
  intro hfind
  rw [find, checkPath, if_neg hunits, h.walk_join_name hn] at hfind
  by_cases hnul : NameUnit.char '\x00' ∈ (dir / ⟨n⟩ : Path).units
  · rw [if_pos hnul] at hfind
    cases hfind
  · rw [if_neg hnul] at hfind
    split at hfind
    · cases hfind
    · rw [ok_bind] at hfind
      split at hfind <;> cases hfind

theorem find_of_read_eq_notFound (h : t.OpenAt dir base) (hn : (Path.Part.name n).Lasting)
    (hread : t.read (dir / ⟨n⟩) = .error .notFound) :
    ∃ loc, t.find (dir / ⟨n⟩) = .ok loc ∧ t.get? loc = none := by
  have hname := namesDirectory_join_name dir hn
  rw [read, hname] at hread
  cases hfind : t.find (dir / ⟨n⟩) with
  | error e =>
    rw [hfind, error_bind] at hread
    obtain rfl := Except.error.inj hread
    exact absurd hfind (h.find_ne_notFound hn)
  | ok loc =>
    refine ⟨loc, rfl, ?_⟩
    rw [hfind, ok_bind] at hread
    cases hget : t.get? loc with
    | none => rfl
    | some e =>
      rw [hget] at hread
      rcases e with _ | _ | _ <;> cases hread

end OpenAt

/-- If the path only goes down, making the directory brings nothing to light. -/
theorem Grown.read_eq_of_openAt {P : Location → Prop} (h : t.Grown P t') (hc : t.Connected)
    (hup : .up ∉ dir.parts) (hopen : t'.OpenAt dir base) (hn : (Path.Part.name n).Lasting)
    (hread : t'.read (dir / ⟨n⟩) = .error .notFound ∨ ∃ s, t'.read (dir / ⟨n⟩) = .ok s) :
    t'.read (dir / ⟨n⟩) = t.read (dir / ⟨n⟩) := by
  have hup' : .up ∉ (dir / ⟨n⟩ : Path).parts := by
    rw [Path.parts_join_name dir hn, List.mem_append, not_or]
    exact ⟨hup, by simp⟩
  rcases hread with hmissing | ⟨s, hs⟩
  · obtain ⟨loc, hfind, hnone⟩ := hopen.find_of_read_eq_notFound hn hmissing
    exact h.read_eq hc hup' hfind (by simp [hnone])
  · obtain ⟨loc, hfind, htext, -⟩ := read_eq_ok_iff.1 hs
    exact h.read_eq hc hup' hfind (by simp [htext])

end FileTree
end LayeredConfig
