/-
What combining patches changes, also when it fails, and what it makes of the same patches in two
trees.

Only places of candidates are written (`Fragment.after_aggregate`). Which ones does not depend on
what the patch files hold, so the same patches are combined in a tree with the same directories in
the same steps. If what the patches contribute is related, then so are all texts that are written
(`Fragment.run_aggregate_alike`).
-/
import LayeredConfig.Proofs.Aggregate.FreshName
import LayeredConfig.Proofs.Aggregate.Group
import LayeredConfig.Proofs.FileTree.Change

namespace LayeredConfig

variable {dir : Path} {t t' u : FileTree} {taken : List String}

namespace PatchGroup

variable {g : PatchGroup} {groups groups' : List PatchGroup} {patches : List JsonPatch}
variable {e : AggregateError}

/-! ## Runs -/

/-- The file of a group, if some names are taken. -/
def freshFile (dir : Path) (taken : List String) (g : PatchGroup) : Path :=
  dir / .ofString (freshName taken g.stem)

theorem run_writeAll_cons_eq_ok_iff :
    (writeAll dir taken (g :: groups)).run t = .ok patches t' ↔
      ∃ mid others, t.write (freshFile dir taken g) g.contents = .ok mid ∧
        (writeAll dir (freshName taken g.stem :: taken) groups).run mid = .ok others t' ∧
        patches = { target := g.target, path := freshName taken g.stem } :: others := by
  constructor
  · intro h
    obtain ⟨⟨⟩, mid, hwrite, h⟩ := Files.run_bind_eq_ok_iff.1 h
    obtain ⟨others, last, hrest, h⟩ := Files.run_bind_eq_ok_iff.1 h
    obtain ⟨rfl, rfl⟩ := EStateM.Result.ok.inj h
    have hmid := Files.run_write_eq_ok_iff.1 (Files.run_explain_eq_ok_iff.1 hwrite)
    exact ⟨mid, others, hmid, hrest, rfl⟩
  · rintro ⟨mid, others, hwrite, hrest, rfl⟩
    refine Files.run_bind_eq_ok_iff.2 ⟨(), mid, ?_, ?_⟩
    · exact Files.run_explain_eq_ok_iff.2 (Files.run_write_eq_ok_iff.2 hwrite)
    · exact Files.run_bind_eq_ok_iff.2 ⟨others, t', hrest, rfl⟩

theorem run_writeAll_cons_eq_error_iff :
    (writeAll dir taken (g :: groups)).run t = .error e t' ↔
      (∃ cause, t.write (freshFile dir taken g) g.contents = .error cause ∧
        e = .notWritten (freshFile dir taken g) cause ∧ t' = t) ∨
      ∃ mid, t.write (freshFile dir taken g) g.contents = .ok mid ∧
        (writeAll dir (freshName taken g.stem :: taken) groups).run mid = .error e t' := by
  constructor
  · intro h
    rcases Files.run_bind_eq_error_iff.1 h with hwrite | ⟨⟨⟩, mid, hwrite, h⟩
    · obtain ⟨cause, hwrite, he⟩ := Files.run_explain_eq_error_iff.1 hwrite
      obtain ⟨hcause, ht'⟩ := Files.run_write_eq_error_iff.1 hwrite
      exact .inl ⟨cause, hcause, he, ht'⟩
    · have hmid := Files.run_write_eq_ok_iff.1 (Files.run_explain_eq_ok_iff.1 hwrite)
      rcases Files.run_bind_eq_error_iff.1 h with hrest | ⟨others, last, -, hpure⟩
      · exact .inr ⟨mid, hmid, hrest⟩
      · exact absurd hpure (by simp [EStateM.run, pure, EStateM.pure])
  · rintro (⟨cause, hcause, rfl, rfl⟩ | ⟨mid, hwrite, hrest⟩)
    · refine Files.run_bind_eq_error_iff.2 (.inl (Files.run_explain_eq_error_iff.2 ⟨cause, ?_, rfl⟩))
      exact Files.run_write_eq_error_iff.2 ⟨hcause, rfl⟩
    · refine Files.run_bind_eq_error_iff.2 (.inr ⟨(), mid, ?_, ?_⟩)
      · exact Files.run_explain_eq_ok_iff.2 (Files.run_write_eq_ok_iff.2 hwrite)
      · exact Files.run_bind_eq_error_iff.2 (.inl hrest)

theorem notWritten_of_run_writeAll (h : (writeAll dir taken groups).run t = .error e t') :
    ∃ path cause, e = .notWritten path cause := by
  induction groups generalizing taken t with
  | nil => exact absurd h (by simp [writeAll, EStateM.run, pure, EStateM.pure])
  | cons g groups ih =>
    rcases run_writeAll_cons_eq_error_iff.1 h with ⟨cause, -, he, -⟩ | ⟨mid, -, hrest⟩
    · exact ⟨_, cause, he⟩
    · exact ih hrest

/-- Every group is that of a patch. -/
theorem exists_target_of_mem_collect (h : collect t dir patches = .ok groups) (hg : g ∈ groups) :
    ∃ p ∈ patches, p.target = g.target := by
  obtain ⟨entries, rfl, -, hgrouped⟩ := grouped_of_collect h
  obtain ⟨entry, hentry, htarget⟩ := Option.map_eq_some_iff.1 (hgrouped.target g hg)
  exact ⟨entry.1, List.mem_map_of_mem (List.mem_of_find?_eq_some hentry), htarget⟩

/-! ## Where files are written -/

theorem after_writeAll (dir : Path) (taken : List String) (groups : List PatchGroup)
    (t : FileTree) :
    t.ChangedAt (fun loc => ∃ g ∈ groups, ∃ n,
      t.find (dir / .ofString (candidate g.stem n)) = .ok loc)
      ((writeAll dir taken groups).after t) := by
  induction groups generalizing taken t with
  | nil => exact .refl _ t
  | cons g groups ih =>
    have hfirst := FileTree.ChangedAt.after_write (freshFile dir taken g) g.contents t
    rw [writeAll]
    refine Files.after_bind_of_trans .trans ?_ fun _ _ =>
      Files.after_bind_of_trans .trans ?_ fun _ _ => .refl _ _
    · rw [Files.after_explain]
      refine hfirst.mono fun loc hloc => ?_
      obtain ⟨n, -, hname, -⟩ := exists_freshName_eq taken g.stem
      rw [freshFile, hname] at hloc
      exact ⟨g, List.mem_cons_self, n, hloc⟩
    · rw [Files.after_explain]
      refine (ih _ _).mono ?_
      rintro loc ⟨other, hother, n, hfind⟩
      exact ⟨other, List.mem_cons_of_mem g hother, n, hfirst.directories.find_eq_ok_iff.1 hfind⟩

/-! ### Files that are not written over -/

theorem sameDirectories_of_run_writeAll (h : (writeAll dir taken groups).run t = .ok patches t') :
    t.SameDirectories t' :=
  Files.after_of_run_ok h ▸ (after_writeAll dir taken groups t).directories

theorem get?_of_run_writeAll {loc : Location}
    (h : (writeAll dir taken groups).run t = .ok patches t')
    (hloc : ∀ p ∈ patches, t.find (dir / .ofString p.path) ≠ .ok loc) :
    t'.get? loc = t.get? loc := by
  induction groups generalizing taken t patches with
  | nil =>
    obtain ⟨-, rfl⟩ := EStateM.Result.ok.inj h
    rfl
  | cons g groups ih =>
    obtain ⟨mid, others, hwrite, hothers, rfl⟩ := run_writeAll_cons_eq_ok_iff.1 h
    rw [List.forall_mem_cons] at hloc
    have hdirs := FileTree.SameDirectories.of_write hwrite
    rw [ih hothers fun p hp hfind => hloc.2 p hp (hdirs.find_eq_ok_iff.1 hfind)]
    exact FileTree.get?_of_write_of_ne hwrite hloc.1

/-- A file holds its group at the end if no later one is at the same place. -/
theorem read_of_run_writeAll {q : JsonPatch} {before after : List JsonPatch}
    (h : (writeAll dir taken groups).run t = .ok (before ++ q :: after) t')
    (hplace : ∀ p ∈ after, ∀ loc, t.find (dir / .ofString q.path) = .ok loc →
      t.find (dir / .ofString p.path) ≠ .ok loc) :
    ∃ g ∈ groups, q.target = g.target ∧ t'.read (dir / .ofString q.path) = .ok g.contents := by
  induction before generalizing taken groups t with
  | nil =>
    cases groups with
    | nil => exact absurd (EStateM.Result.ok.inj h).1 nofun
    | cons g groups =>
      obtain ⟨mid, others, hwrite, hothers, heq⟩ := run_writeAll_cons_eq_ok_iff.1 h
      obtain ⟨rfl, rfl⟩ := List.cons.inj heq
      have hdirs := FileTree.SameDirectories.of_write hwrite
      have hdirs' := sameDirectories_of_run_writeAll hothers
      refine ⟨g, List.mem_cons_self, rfl, hdirs'.read (fun loc hfind => ?_)
        (FileTree.read_of_write hwrite)⟩
      refine get?_of_run_writeAll hothers fun p hp hother => ?_
      exact hplace p hp loc (hdirs.find_eq_ok_iff.1 hfind) (hdirs.find_eq_ok_iff.1 hother)
  | cons p before ih =>
    cases groups with
    | nil => exact absurd (EStateM.Result.ok.inj h).1 nofun
    | cons g groups =>
      obtain ⟨mid, others, hwrite, hothers, heq⟩ := run_writeAll_cons_eq_ok_iff.1 h
      obtain ⟨-, rfl⟩ := List.cons.inj heq
      have hdirs := FileTree.SameDirectories.of_write hwrite
      obtain ⟨g', hg', hg⟩ := ih hothers fun p hp loc hfind hother =>
        hplace p hp loc (hdirs.find_eq_ok_iff.1 hfind) (hdirs.find_eq_ok_iff.1 hother)
      exact ⟨g', List.mem_cons_of_mem g hg', hg⟩

/-! ## The same patches in two trees -/

/-- A relation between texts that ending and joining them keeps. -/
structure Congruence (r : String → String → Prop) : Prop where
  refl : ∀ s, r s s
  append : ∀ {a a' b b'}, r a a' → r b b' → r (a ++ b) (a' ++ b')

theorem Congruence.eq : Congruence Eq := ⟨fun _ => rfl, fun ha hb => ha ▸ hb ▸ rfl⟩

theorem Congruence.true : Congruence fun _ _ => True := ⟨fun _ => trivial, fun _ _ => trivial⟩

/-- Two groups of one target, with related contents. -/
structure Matches (r : String → String → Prop) (g g' : PatchGroup) : Prop where
  target : g'.target = g.target
  contents : r g.contents g'.contents

/-- What the patches contribute in `t` is related to what they contribute in `u`. -/
def Contributing (r : String → String → Prop) (t u : FileTree) (dir : Path)
    (patches : List JsonPatch) : Prop :=
  ∀ p ∈ patches, ∀ c, contribution t dir p = .ok c → ∃ c', contribution u dir p = .ok c' ∧ r c c'

theorem contributing_of_read {r : String → String → Prop} (hr : Congruence r)
    (h : ∀ p ∈ patches, u.read (dir / .ofString p.path) = t.read (dir / .ofString p.path)) :
    Contributing r t u dir patches := by
  intro p hp c hc
  refine ⟨c, ?_, hr.refl c⟩
  rwa [contribution, h p hp]

theorem contributing_of_sameKind (h : t.SameKind u) (dir : Path) (patches : List JsonPatch) :
    Contributing (fun _ _ => True) t u dir patches := by
  intro p hp c hc
  rcases h.read_cases (dir / .ofString p.path) with heq | ⟨s, s', -, hs'⟩
  · refine ⟨c, ?_, trivial⟩
    rwa [contribution, heq]
  · refine ⟨closed s', ?_, trivial⟩
    rw [contribution, hs']

variable {r : String → String → Prop}

theorem matches_add (hr : Congruence r) (target : PatchTarget) {c c' : String} (hc : r c c')
    (h : List.Forall₂ (Matches r) groups groups') :
    List.Forall₂ (Matches r) (add target c groups) (add target c' groups') := by
  induction h with
  | nil => exact .cons ⟨rfl, hc⟩ .nil
  | cons hg hrest ih =>
    rename_i g g' rest rest'
    have hof : g'.isOf target = g.isOf target := by rw [isOf, isOf, hg.target]
    rw [add, add, hof]
    by_cases hg' : g.isOf target = true
    · rw [if_pos hg', if_pos hg']
      exact .cons ⟨hg.target, hr.append hg.contents hc⟩ hrest
    · rw [if_neg hg', if_neg hg']
      exact .cons hg ih

/-- Adding the same patches to matching groups. -/
theorem exists_foldlM_matches (hr : Congruence r) (hc : Contributing r t u dir patches)
    {start start' : List PatchGroup} (hstart : List.Forall₂ (Matches r) start start')
    (h : patches.foldlM (fun groups p => do
      return add p.target (← contribution t dir p) groups) start = .ok groups) :
    ∃ groups', patches.foldlM (fun groups p => do
      return add p.target (← contribution u dir p) groups) start' = .ok groups' ∧
      List.Forall₂ (Matches r) groups groups' := by
  induction patches generalizing start start' with
  | nil =>
    obtain rfl : start = groups := Except.ok.inj h
    exact ⟨start', rfl, hstart⟩
  | cons p rest ih =>
    rw [List.foldlM_cons] at h
    obtain ⟨mid, hmid, hrest⟩ := bind_eq_ok_iff.1 h
    obtain ⟨c, hpc, hadd⟩ := bind_eq_ok_iff.1 hmid
    obtain rfl : add p.target c start = mid := Except.ok.inj hadd
    obtain ⟨c', hpc', hcc'⟩ := hc p List.mem_cons_self c hpc
    rw [List.foldlM_cons, hpc']
    exact ih (fun q hq => hc q (List.mem_cons_of_mem p hq))
      (matches_add hr p.target hcc' hstart) hrest

theorem exists_collect_matches (hr : Congruence r) (hc : Contributing r t u dir patches)
    (h : collect t dir patches = .ok groups) :
    ∃ groups', collect u dir patches = .ok groups' ∧
      List.Forall₂ (Matches r) groups groups' :=
  exists_foldlM_matches hr hc .nil h

/-- The groups are written in the same steps, so what is written into one tree is related to what is
written into the other. -/
theorem run_writeAll_alike (hd : t.SameDirectories u)
    (hg : List.Forall₂ (Matches r) groups groups')
    (h : (writeAll dir taken groups).run t = .ok patches t') :
    ∃ u', (writeAll dir taken groups').run u = .ok patches u' ∧ FileTree.Alike r t t' u u' ∧
      ∀ p ∈ patches, ∃ s s', t'.read (dir / .ofString p.path) = .ok s ∧
        u'.read (dir / .ofString p.path) = .ok s' ∧ r s s' := by
  induction hg generalizing taken t u patches with
  | nil =>
    obtain ⟨rfl, rfl⟩ := EStateM.Result.ok.inj h
    exact ⟨u, rfl, .refl r hd, by simp⟩
  | cons hg hrest ih =>
    rename_i g g' rest rest'
    obtain ⟨mid, others, hwrite, hothers, rfl⟩ := run_writeAll_cons_eq_ok_iff.1 h
    obtain ⟨mid', hwrite'⟩ := FileTree.write_of_sameDirectories hwrite hd g'.contents
    have hfirst : FileTree.Alike r t mid u mid' := .of_write hwrite hwrite' hd hg.contents
    obtain ⟨u', hothers', halike, hread⟩ := ih hfirst.directories hothers
    have hstem : g'.stem = g.stem := by rw [stem, stem, hg.target]
    refine ⟨u', run_writeAll_cons_eq_ok_iff.2 ⟨mid', others, ?_, ?_, ?_⟩, hfirst.trans halike, ?_⟩
    · rwa [freshFile, hstem]
    · rwa [hstem]
    · rw [hstem, hg.target]
    · rintro p hp
      rcases List.mem_cons.1 hp with rfl | hp
      · exact halike.read hfirst.directories (FileTree.read_of_write hwrite)
          (FileTree.read_of_write hwrite') hg.contents
      · exact hread p hp

end PatchGroup

namespace Fragment

open PatchGroup (Congruence Contributing)

variable {f f' : Fragment} {e : AggregateError} {loc : Location}

theorem run_aggregate_eq_ok_iff :
    (f.aggregate dir).run t = .ok f' t' ↔
      ∃ groups patches, PatchGroup.collect t dir f.jsonPatches = .ok groups ∧
        (PatchGroup.writeAll dir [] groups).run t = .ok patches t' ∧
        f' = { f with jsonPatches := patches } := by
  constructor
  · intro h
    obtain ⟨groups, mid, hask, h⟩ := Files.run_bind_eq_ok_iff.1 h
    obtain ⟨patches, last, hwrite, h⟩ := Files.run_bind_eq_ok_iff.1 h
    obtain ⟨rfl, rfl⟩ := EStateM.Result.ok.inj h
    obtain ⟨hcollect, rfl⟩ := Files.run_ask_eq_ok_iff.1 hask
    exact ⟨groups, patches, hcollect, hwrite, rfl⟩
  · rintro ⟨groups, patches, hcollect, hwrite, rfl⟩
    refine Files.run_bind_eq_ok_iff.2 ⟨groups, t, Files.run_ask_eq_ok_iff.2 ⟨hcollect, rfl⟩, ?_⟩
    exact Files.run_bind_eq_ok_iff.2 ⟨patches, t', hwrite, rfl⟩

theorem eq_of_run_aggregate (h : (f.aggregate dir).run t = .ok f' t') :
    f' = { f with jsonPatches := f'.jsonPatches } := by
  obtain ⟨groups, patches, -, -, rfl⟩ := run_aggregate_eq_ok_iff.1 h
  rfl

theorem run_aggregate_eq_error_iff :
    (f.aggregate dir).run t = .error e t' ↔
      (PatchGroup.collect t dir f.jsonPatches = .error e ∧ t' = t) ∨
      ∃ groups, PatchGroup.collect t dir f.jsonPatches = .ok groups ∧
        (PatchGroup.writeAll dir [] groups).run t = .error e t' := by
  constructor
  · intro h
    rcases Files.run_bind_eq_error_iff.1 h with hask | ⟨groups, mid, hask, hrest⟩
    · exact .inl (Files.run_ask_eq_error_iff.1 hask)
    · obtain ⟨hcollect, rfl⟩ := Files.run_ask_eq_ok_iff.1 hask
      rcases Files.run_bind_eq_error_iff.1 hrest with hwrite | ⟨patches, last, -, hpure⟩
      · exact .inr ⟨groups, hcollect, hwrite⟩
      · exact absurd hpure (by simp [EStateM.run, pure, EStateM.pure])
  · rintro (hcollect | ⟨groups, hcollect, hwrite⟩)
    · exact Files.run_bind_eq_error_iff.2 (.inl (Files.run_ask_eq_error_iff.2 hcollect))
    · refine Files.run_bind_eq_error_iff.2 (.inr ⟨groups, t, ?_, ?_⟩)
      · exact Files.run_ask_eq_ok_iff.2 ⟨hcollect, rfl⟩
      · exact Files.run_bind_eq_error_iff.2 (.inl hwrite)

/-- A place where the combined file of one of the fragment's targets may be. -/
def CombinedPlace (t : FileTree) (dir : Path) (f : Fragment) (loc : Location) : Prop :=
  ∃ p ∈ f.jsonPatches, ∃ n,
    t.find (dir / .ofString (PatchGroup.candidate (PatchGroup.stem ⟨p.target, ""⟩) n)) = .ok loc

theorem after_aggregate (dir : Path) (f : Fragment) (t : FileTree) :
    t.ChangedAt (CombinedPlace t dir f) ((f.aggregate dir).after t) := by
  refine Files.after_bind_of_trans .trans ?_ fun groups hcollect =>
    Files.after_bind_of_trans .trans ?_ fun _ _ => .refl _ _
  · rw [Files.after_ask]
    exact .refl _ t
  · rw [Files.answer_ask] at hcollect
    rw [Files.after_ask]
    refine (PatchGroup.after_writeAll dir [] groups t).mono ?_
    rintro loc ⟨g, hg, n, hfind⟩
    obtain ⟨p, hp, htarget⟩ := PatchGroup.exists_target_of_mem_collect hcollect hg
    refine ⟨p, hp, n, ?_⟩
    rwa [PatchGroup.stem, htarget]

theorem changedAt_of_run_aggregate (h : (f.aggregate dir).run t = .ok f' t') :
    t.ChangedAt (CombinedPlace t dir f) t' :=
  Files.after_of_run_ok h ▸ after_aggregate dir f t

/-- The same patches are combined to the same patches, in files with related texts. -/
theorem run_aggregate_alike {r : String → String → Prop} (hr : Congruence r)
    (hd : t.SameDirectories u) (hc : Contributing r t u dir f.jsonPatches)
    (h : (f.aggregate dir).run t = .ok f' t') :
    ∃ u', (f.aggregate dir).run u = .ok f' u' ∧ FileTree.Alike r t t' u u' ∧
      ∀ p ∈ f'.jsonPatches, ∃ s s', t'.read (dir / .ofString p.path) = .ok s ∧
        u'.read (dir / .ofString p.path) = .ok s' ∧ r s s' := by
  obtain ⟨groups, patches, hcollect, hwrite, rfl⟩ := run_aggregate_eq_ok_iff.1 h
  obtain ⟨groups', hcollect', hmatches⟩ := PatchGroup.exists_collect_matches hr hc hcollect
  obtain ⟨u', hwrite', halike, hread⟩ := PatchGroup.run_writeAll_alike hd hmatches hwrite
  exact ⟨u', run_aggregate_eq_ok_iff.2 ⟨groups', patches, hcollect', hwrite', rfl⟩, halike, hread⟩

end Fragment
end LayeredConfig
