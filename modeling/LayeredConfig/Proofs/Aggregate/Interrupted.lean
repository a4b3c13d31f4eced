/-
What combining patches leaves behind when it fails.

The list of patches is put into the fragment in the last step, so a fragment that is held in memory
is what it was (`Fragment.run_aggregateInPlace`). All patch files are read before the first file is
written: what cannot be read is found while the tree is as it was (`PatchGroup.FirstUnreadable`). If
a file cannot be written, the groups before its group have been written as if there were no others,
and nothing else has changed (`Interrupted`).
-/
import LayeredConfig.Proofs.Aggregate.Change
import LayeredConfig.Proofs.Aggregate.Combined

namespace LayeredConfig

variable {dir : Path} {t t' : FileTree} {patches : List JsonPatch} {e : AggregateError}
variable {path : Path} {cause : FileError}

/-- Combines the patches of the fragment that is held, so that a run that fails may have changed
it. -/
def Fragment.aggregateInPlace (dir : Path) :
    EStateM AggregateError (Fragment × FileTree) Unit := do
  let (f, _) ← get
  let groups ← Files.beside (Files.ask fun t => PatchGroup.collect t dir f.jsonPatches)
  let jsonPatches ← Files.beside (PatchGroup.writeAll dir [] groups)
  modify fun (f, t) => ({ f with jsonPatches }, t)

/-- What is held is the answer, or what was held before if there is none. -/
theorem Fragment.run_aggregateInPlace (dir : Path) (f : Fragment) (t : FileTree) :
    (aggregateInPlace dir).run (f, t) =
      match (f.aggregate dir).run t with
      | .ok f' t' => .ok () (f', t')
      | .error e t' => .error e (f, t') := by
  rw [aggregateInPlace, aggregate, EStateM.run_bind, EStateM.run_get]
  simp only [EStateM.run_bind, Files.run_beside]
  cases (Files.ask fun t => PatchGroup.collect t dir f.jsonPatches).run t with
  | error e t' => rfl
  | ok groups t' =>
    simp only [Files.run_beside]
    cases (PatchGroup.writeAll dir [] groups).run t' <;> rfl

namespace PatchGroup

/-! ## Reading -/

theorem contribution_eq_error_iff {p : JsonPatch} :
    contribution t dir p = .error e ↔
      ∃ cause, t.read (dir / .ofString p.path) = .error cause ∧ cause ≠ .notFound ∧
        e = .notRead (dir / .ofString p.path) cause := by
  rw [contribution]
  cases hread : t.read (dir / .ofString p.path) with
  | ok s => simp
  | error cause => cases cause <;> simp [eq_comm]

theorem exists_contribution_iff {p : JsonPatch} :
    (∃ c, contribution t dir p = .ok c) ↔
      (∃ s, t.read (dir / .ofString p.path) = .ok s) ∨
        t.read (dir / .ofString p.path) = .error .notFound := by
  rw [contribution]
  cases hread : t.read (dir / .ofString p.path) with
  | ok s => simp
  | error cause => cases cause <;> simp

theorem exists_collect_iff :
    (∃ groups, collect t dir patches = .ok groups) ↔
      ∀ p ∈ patches, ∃ c, contribution t dir p = .ok c := by
  constructor
  · rintro ⟨groups, hgroups⟩ p hp
    obtain ⟨entries, rfl, hcontributed, -⟩ := grouped_of_collect hgroups
    obtain ⟨entry, hentry, rfl⟩ := List.mem_map.1 hp
    exact ⟨entry.2, hcontributed entry hentry⟩
  · intro h
    rcases hrun : collect t dir patches with e | groups
    · obtain ⟨before, p, after, mid, rfl, -, hstep⟩ := foldlM_eq_error_iff.1 hrun
      obtain ⟨c, hc⟩ := h p (by simp)
      rw [hc] at hstep
      exact absurd hstep nofun
    · exact ⟨groups, rfl⟩

/-- The file of a patch is there but cannot be read as a text. The files of the patches before it
are read, or are not there. -/
def FirstUnreadable (t : FileTree) (dir : Path) (patches : List JsonPatch) (path : Path)
    (cause : FileError) : Prop :=
  ∃ before p after, patches = before ++ p :: after ∧
    (∀ q ∈ before, (∃ s, t.read (dir / .ofString q.path) = .ok s) ∨
      t.read (dir / .ofString q.path) = .error .notFound) ∧
    path = dir / .ofString p.path ∧ t.read path = .error cause ∧ cause ≠ .notFound

theorem collect_eq_error_iff :
    collect t dir patches = .error e ↔
      ∃ path cause, FirstUnreadable t dir patches path cause ∧ e = .notRead path cause := by
  rw [collect, foldlM_eq_error_iff]
  constructor
  · rintro ⟨before, p, after, mid, hpatches, hbefore, hstep⟩
    rcases bind_eq_error_iff.1 hstep with hp | ⟨c, -, hadd⟩
    · obtain ⟨cause, hread, hcause, rfl⟩ := contribution_eq_error_iff.1 hp
      refine ⟨_, cause, ⟨before, p, after, hpatches, fun q hq => ?_, rfl, hread, hcause⟩, rfl⟩
      exact exists_contribution_iff.1 (exists_collect_iff.1 ⟨mid, hbefore⟩ q hq)
    · exact absurd hadd (by simp [pure, Except.pure])
  · rintro ⟨path, cause, ⟨before, p, after, hpatches, hbefore, rfl, hread, hcause⟩, rfl⟩
    obtain ⟨mid, hmid⟩ := exists_collect_iff.2 fun q hq =>
      exists_contribution_iff.2 (hbefore q hq)
    refine ⟨before, p, after, mid, hpatches, hmid, ?_⟩
    rw [contribution_eq_error_iff.2 ⟨cause, hread, hcause, rfl⟩]
    rfl

/-! ## Writing -/

variable {taken : List String} {groups : List PatchGroup}

/-- Writing fails at the first group that cannot be written, with the groups before it written. -/
theorem exists_done_of_run_writeAll (h : (writeAll dir taken groups).run t = .error e t') :
    ∃ done g rest patches cause, groups = done ++ g :: rest ∧
      (writeAll dir taken done).run t = .ok patches t' ∧
      t'.write (freshFile dir ((patches.map (·.path)).reverse ++ taken) g) g.contents =
        .error cause ∧
      e = .notWritten (freshFile dir ((patches.map (·.path)).reverse ++ taken) g) cause := by
  induction groups generalizing taken t with
  | nil => exact absurd h (by simp [writeAll, EStateM.run, pure, EStateM.pure])
  | cons g groups ih =>
    rcases run_writeAll_cons_eq_error_iff.1 h with ⟨cause, hwrite, rfl, rfl⟩ | ⟨mid, hwrite, hrest⟩
    · exact ⟨[], g, groups, [], cause, rfl, rfl, hwrite, rfl⟩
    · obtain ⟨done, failed, rest, patches, cause, rfl, hdone, hfailed, rfl⟩ := ih hrest
      refine ⟨g :: done, failed, rest,
        { target := g.target, path := freshName taken g.stem } :: patches, cause, rfl,
        run_writeAll_cons_eq_ok_iff.2 ⟨mid, patches, hwrite, hdone, rfl⟩, ?_, ?_⟩
      · simpa using hfailed
      · simp

/-- The file of a target has one of the candidates for the name. -/
def NamedFor (target : PatchTarget) (path : String) : Prop :=
  ∃ n, path = candidate (stem ⟨target, ""⟩) n

theorem namedFor_freshName (taken : List String) (g : PatchGroup) :
    NamedFor g.target (freshName taken g.stem) := by
  obtain ⟨n, -, hname, -⟩ := exists_freshName_eq taken g.stem
  exact ⟨n, hname⟩

theorem namedFor_of_run_writeAll (h : (writeAll dir taken groups).run t = .ok patches t') :
    ∀ p ∈ patches, NamedFor p.target p.path := by
  induction groups generalizing taken t patches with
  | nil =>
    obtain ⟨rfl, rfl⟩ := EStateM.Result.ok.inj h
    exact fun p hp => absurd hp List.not_mem_nil
  | cons g groups ih =>
    obtain ⟨mid, others, -, hothers, rfl⟩ := run_writeAll_cons_eq_ok_iff.1 h
    exact List.forall_mem_cons.2 ⟨namedFor_freshName taken g, ih hothers⟩

end PatchGroup

/-- Combining the patches `before` of the tree `t` has stopped in `t'`, because the file `path` of
the target `failed` could not be written. The patches `done` are the combined ones up to there. -/
structure Interrupted (dir : Path) (t t' : FileTree) (before done : List JsonPatch)
    (failed : PatchTarget) (path : Path) (cause : FileError) : Prop where
  /-- The targets are the first in the order in which they were met. -/
  keys : done.map (·.target.key) ++ [failed.key] <+: (before.map (·.target.key)).eraseDups
  target : ∀ target ∈ done.map (·.target) ++ [failed],
    (before.find? (·.target.key = target.key)).map (·.target) = some target
  files : (done.map (·.path)).Nodup
  named : ∀ q ∈ done, PatchGroup.NamedFor q.target q.path
  /-- Each file that was written holds all that the patches of its group contribute. -/
  contents : ∀ q ∈ done, ∃ parts,
    List.Forall₂ (PatchGroup.Contributes t dir)
      (before.filter (·.target.key = q.target.key)) parts ∧
    t'.read (dir / .ofString q.path) = .ok (String.join parts)
  /-- The next file has a name that none of them has, and would have held all of its group. -/
  refused : ∃ name parts, path = dir / .ofString name ∧ PatchGroup.NamedFor failed name ∧
    name ∉ done.map (·.path) ∧
    List.Forall₂ (PatchGroup.Contributes t dir) (before.filter (·.target.key = failed.key)) parts ∧
    t'.write path (String.join parts) = .error cause
  home : t'.home = t.home
  refusals : t'.refusals = t.refusals
  unchanged : ∀ loc, (∀ q ∈ done, t.find (dir / .ofString q.path) ≠ .ok loc) →
    t'.get? loc = t.get? loc

namespace PatchGroup

theorem slash_not_mem_stem_of_collect {groups : List PatchGroup}
    (hcollect : collect t dir patches = .ok groups)
    (hslash : ∀ p ∈ patches, '/' ∉ p.target.name.toList ∧ '/' ∉ p.target.kind.toList) :
    ∀ g ∈ groups, '/' ∉ g.stem.toList := by
  intro g hg
  obtain ⟨p, hp, htarget⟩ := exists_target_of_mem_collect hcollect hg
  obtain ⟨hname, hkind⟩ := hslash p hp
  exact slash_not_mem_stem (htarget ▸ hname) (htarget ▸ hkind)

/-- Groups that could not all be written. -/
theorem exists_interrupted {groups : List PatchGroup}
    (hcollect : collect t dir patches = .ok groups)
    (hslash : ∀ g ∈ groups, '/' ∉ g.stem.toList)
    (hwrite : (writeAll dir [] groups).run t = .error (.notWritten path cause) t') :
    ∃ done failed, Interrupted dir t t' patches done failed path cause := by
  obtain ⟨entries, rfl, hcontributed, hgrouped⟩ := grouped_of_collect hcollect
  obtain ⟨first, g, rest, done, cause', rfl, hdone, hfailed, he⟩ :=
    exists_done_of_run_writeAll hwrite
  obtain ⟨rfl, rfl⟩ := AggregateError.notWritten.inj he
  have hwritten := written_of_writeAll
    (fun g hg => hslash g (List.mem_append_left _ hg)) hdone
  have hg : g ∈ first ++ g :: rest := by simp
  -- Each file that was written is that of one of the first groups.
  have hfirst {q : JsonPatch} (hq : q ∈ done) : ∃ g' ∈ first ++ g :: rest,
      q.target = g'.target ∧ t'.read (dir / .ofString q.path) = .ok g'.contents := by
    obtain ⟨g', hg', hq'⟩ := exists_of_mem_forall₂ hwritten.contents hq
    exact ⟨g', List.mem_append_left _ hg', hq'⟩
  refine ⟨done, g.target, ?_, fun target htarget => ?_, hwritten.distinct,
    namedFor_of_run_writeAll hdone, fun q hq => ?_, ?_, hwritten.directories.home,
    hwritten.directories.refusals, hwritten.unchanged⟩
  · rw [hwritten.keys, List.map_map]
    refine ⟨rest.map (·.target.key), Eq.trans ?_ hgrouped.keys⟩
    simp
  · rcases List.mem_append.1 htarget with hmem | hmem
    · obtain ⟨q, hq, rfl⟩ := List.mem_map.1 hmem
      obtain ⟨g', hg', htarget', -⟩ := hfirst hq
      rw [htarget']
      exact hgrouped.target_eq hg'
    · rw [List.mem_singleton.1 hmem]
      exact hgrouped.target_eq hg
  · obtain ⟨g', hg', htarget', hread⟩ := hfirst hq
    obtain ⟨parts, hparts, hcontents⟩ := hgrouped.exists_parts hcontributed hg'
    rw [htarget']
    exact ⟨parts, hparts, hread.trans (congrArg Except.ok hcontents)⟩
  · obtain ⟨parts, hparts, hcontents⟩ := hgrouped.exists_parts hcontributed hg
    refine ⟨_, parts, rfl, namedFor_freshName _ g, ?_, hparts, hcontents ▸ hfailed⟩
    have hfree := freshName_not_mem ((done.map (·.path)).reverse ++ []) g.stem
    simpa using hfree

end PatchGroup

namespace Fragment

variable {f f' : Fragment}

open PatchGroup (FirstUnreadable)

theorem run_aggregateInPlace_eq_error_iff {held : Fragment × FileTree} :
    (aggregateInPlace dir).run (f, t) = .error e held ↔
      (f.aggregate dir).run t = .error e held.2 ∧ held.1 = f := by
  rw [run_aggregateInPlace]
  obtain ⟨f', t'⟩ := held
  cases (f.aggregate dir).run t with
  | ok _ _ => simp
  | error _ _ => simp [eq_comm, and_comm, and_assoc]

theorem run_aggregate_eq_notRead_iff :
    (f.aggregate dir).run t = .error (.notRead path cause) t' ↔
      FirstUnreadable t dir f.jsonPatches path cause ∧ t' = t := by
  rw [run_aggregate_eq_error_iff, PatchGroup.collect_eq_error_iff]
  constructor
  · rintro (⟨⟨_, _, hfirst, he⟩, rfl⟩ | ⟨groups, -, hwrite⟩)
    · obtain ⟨rfl, rfl⟩ := AggregateError.notRead.inj he
      exact ⟨hfirst, rfl⟩
    · obtain ⟨_, _, he⟩ := PatchGroup.notWritten_of_run_writeAll hwrite
      exact absurd he nofun
  · rintro ⟨hfirst, rfl⟩
    exact .inl ⟨⟨path, cause, hfirst, rfl⟩, rfl⟩

theorem exists_groups_of_run_aggregate_eq_notWritten
    (h : (f.aggregate dir).run t = .error (.notWritten path cause) t') :
    ∃ groups, PatchGroup.collect t dir f.jsonPatches = .ok groups ∧
      (PatchGroup.writeAll dir [] groups).run t = .error (.notWritten path cause) t' := by
  rcases run_aggregate_eq_error_iff.1 h with ⟨hcollect, -⟩ | hwrite
  · obtain ⟨_, _, -, he⟩ := PatchGroup.collect_eq_error_iff.1 hcollect
    exact absurd he nofun
  · exact hwrite

/-- If combining fails, the fragment that is held is as it was. It fails for a file that cannot be
read if and only if there is one, and then no file has changed. If it fails for a file that cannot
be written, only the files of the groups before have changed, and they are complete. -/
theorem aggregate_fails (dir : Path) (f : Fragment) (t : FileTree) :
    (∀ e f' t', (aggregateInPlace dir).run (f, t) = .error e (f', t') → f' = f) ∧
    (∀ path cause f' t',
      (aggregateInPlace dir).run (f, t) = .error (.notRead path cause) (f', t') ↔
        FirstUnreadable t dir f.jsonPatches path cause ∧ f' = f ∧ t' = t) ∧
    ((∀ p ∈ f.jsonPatches, '/' ∉ p.target.name.toList ∧ '/' ∉ p.target.kind.toList) →
      ∀ path cause f' t',
        (aggregateInPlace dir).run (f, t) = .error (.notWritten path cause) (f', t') →
          ∃ done failed, Interrupted dir t t' f.jsonPatches done failed path cause) := by
  refine ⟨fun e f' t' h => ?_, fun path cause f' t' => ?_, fun hslash path cause f' t' h => ?_⟩
  · exact (run_aggregateInPlace_eq_error_iff.1 h).2
  · rw [run_aggregateInPlace_eq_error_iff, run_aggregate_eq_notRead_iff, and_assoc,
      and_comm (a := t' = t)]
  · obtain ⟨hrun, -⟩ := run_aggregateInPlace_eq_error_iff.1 h
    obtain ⟨groups, hcollect, hwrite⟩ := exists_groups_of_run_aggregate_eq_notWritten hrun
    have hstems := PatchGroup.slash_not_mem_stem_of_collect hcollect hslash
    exact PatchGroup.exists_interrupted hcollect hstems hwrite

/-- A directory is in the way, once of a file that is written and once of one that is read. -/
theorem aggregate_fails_of_directory :
    ∃ (f g : Fragment) (t t' : FileTree) (done : List JsonPatch) (failed : PatchTarget),
      f = { jsonPatches :=
        [{ target := { name := "a", kind := "K" }, path := "a.yaml" },
          { target := { name := "b", kind := "K" }, path := "none.yaml" },
          { target := { name := "a", kind := "K" }, path := "a.yaml" },
          { target := { name := "c", kind := "K" }, path := "a.yaml" }] } ∧
      g = { jsonPatches :=
        [{ target := { name := "a", kind := "K" }, path := "a.yaml" },
          { target := { name := "b", kind := "K" }, path := "b-K.yaml" },
          { target := { name := "c", kind := "K" }, path := "none.yaml" }] } ∧
      t = ⟨[([.ofString "app"], .directory),
        ([.ofString "app", .ofString "a.yaml"], .file (.text "- x")),
        ([.ofString "app", .ofString "b-K.yaml"], .directory)], [], []⟩ ∧
      (aggregateInPlace (.ofString "app")).run (f, t) =
        .error (.notWritten (.ofString "app/b-K.yaml") .isADirectory) (f, t') ∧
      Interrupted (.ofString "app") t t' f.jsonPatches done failed (.ofString "app/b-K.yaml")
        .isADirectory ∧
      t'.read (.ofString "app/a-K.yaml") = .ok "- x\n- x\n" ∧
      t'.read (.ofString "app/c-K.yaml") = .error .notFound ∧
      (aggregateInPlace (.ofString "app")).run (g, t) =
        .error (.notRead (.ofString "app/b-K.yaml") .isADirectory) (g, t) := by
  have hrun : (aggregateInPlace (.ofString "app")).run
      ({ jsonPatches :=
        [{ target := { name := "a", kind := "K" }, path := "a.yaml" },
          { target := { name := "b", kind := "K" }, path := "none.yaml" },
          { target := { name := "a", kind := "K" }, path := "a.yaml" },
          { target := { name := "c", kind := "K" }, path := "a.yaml" }] },
        ⟨[([.ofString "app"], .directory),
          ([.ofString "app", .ofString "a.yaml"], .file (.text "- x")),
          ([.ofString "app", .ofString "b-K.yaml"], .directory)], [], []⟩) =
      .error (.notWritten (.ofString "app/b-K.yaml") .isADirectory)
        (_, ⟨[([.ofString "app"], .directory),
          ([.ofString "app", .ofString "a.yaml"], .file (.text "- x")),
          ([.ofString "app", .ofString "b-K.yaml"], .directory),
          ([.ofString "app", .ofString "a-K.yaml"], .file (.text "- x\n- x\n"))], [], []⟩) :=
    run_aggregateInPlace_eq_error_iff.2 ⟨by cbv, rfl⟩
  obtain ⟨done, failed, hinterrupted⟩ := (aggregate_fails _ _ _).2.2 (by decide) _ _ _ _ hrun
  refine ⟨_, _, _, _, done, failed, rfl, rfl, rfl, hrun, hinterrupted, rfl, rfl,
    ((aggregate_fails _ _ _).2.1 _ _ _ _).2 ⟨?_, rfl, rfl⟩⟩
  -- The first file is read, the second is the directory.
  exact ⟨[{ target := { name := "a", kind := "K" }, path := "a.yaml" }], _, _, rfl,
    List.forall_mem_singleton.2 (.inl ⟨"- x", rfl⟩), by decide, rfl, by decide⟩

end Fragment
end LayeredConfig
