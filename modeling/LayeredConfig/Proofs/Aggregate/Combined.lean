/-
What combining patches does to them and to their files.

Writing the groups puts each of them into a file of its own in one directory. No later write touches
the file of an earlier one, because their names differ (`Written.cons`). So every combined file can
be read in the end, and holds what the files of its patches held before the first write, whether or
not it has taken the place of one of them (`Fragment.aggregate_combines`).
-/
import Mathlib
import LayeredConfig.Proofs.Aggregate.FreshName
import LayeredConfig.Proofs.Aggregate.Group
import LayeredConfig.Proofs.FileTree.Access

namespace LayeredConfig
namespace PatchGroup

variable {dir : Path} {t t' : FileTree} {taken : List String}

/-! ## Writing the groups -/

/-- The patches name new files, in which the contents of the groups are; the rest of the tree is as
it was. -/
structure Written (dir : Path) (t t' : FileTree) (taken : List String)
    (groups : List PatchGroup) (patches : List JsonPatch) : Prop where
  directories : t.SameDirectories t'
  names : ∀ p ∈ patches, (Path.Part.name (Name.ofString p.path)).Lasting
  fresh : ∀ p ∈ patches, p.path ∉ taken
  distinct : (patches.map (·.path)).Nodup
  contents : List.Forall₂ (fun g p => p.target = g.target ∧
    t'.read (dir / .ofString p.path) = .ok g.contents) groups patches
  unchanged : ∀ loc, (∀ p ∈ patches, t.find (dir / .ofString p.path) ≠ .ok loc) →
    t'.get? loc = t.get? loc

theorem Written.nil (dir : Path) (t : FileTree) (taken : List String) :
    Written dir t t taken [] [] :=
  ⟨.refl t, by simp, by simp, .nil, .nil, fun _ _ => rfl⟩

/-- One group is written before the others. -/
theorem Written.cons {mid : FileTree} {name : String} {g : PatchGroup} {groups : List PatchGroup}
    {patches : List JsonPatch} (hname : (Path.Part.name (Name.ofString name)).Lasting)
    (hfresh : name ∉ taken) (hwrite : t.write (dir / .ofString name) g.contents = .ok mid)
    (h : Written dir mid t' (name :: taken) groups patches) :
    Written dir t t' taken (g :: groups) ({ target := g.target, path := name } :: patches) := by
  have hdirs : t.SameDirectories mid := .of_write hwrite
  have hne : ∀ p ∈ patches, p.path ≠ name := fun p hp heq =>
    h.fresh p hp (heq ▸ List.mem_cons_self)
  refine ⟨hdirs.trans h.directories, ?_, ?_, ?_, ?_, fun loc hloc => ?_⟩
  · rintro p hp
    rcases List.mem_cons.1 hp with rfl | hp
    · exact hname
    · exact h.names p hp
  · rintro p hp
    rcases List.mem_cons.1 hp with rfl | hp
    · exact hfresh
    · exact fun hmem => h.fresh p hp (List.mem_cons_of_mem name hmem)
  · refine List.nodup_cons.2 ⟨fun hmem => ?_, h.distinct⟩
    obtain ⟨p, hp, heq⟩ := List.mem_map.1 hmem
    exact hne p hp heq
  · refine .cons ⟨rfl, h.directories.read (fun loc hfind => ?_) (FileTree.read_of_write hwrite)⟩
      h.contents
    -- The other files are elsewhere, since only their names are different.
    refine h.unchanged loc fun p hp hother => hne p hp ?_
    exact Name.ofString_injective (FileTree.find_join_name_inj (h.names p hp) hname hother hfind)
  · have hrest : ∀ p ∈ patches, mid.find (dir / .ofString p.path) ≠ .ok loc := by
      intro p hp hfind
      exact hloc p (List.mem_cons_of_mem _ hp) (hdirs.find_eq_ok_iff.1 hfind)
    rw [h.unchanged loc hrest]
    exact FileTree.get?_of_write_of_ne hwrite (hloc ⟨g.target, name, {}⟩ List.mem_cons_self)

theorem written_of_writeAll {groups : List PatchGroup} {patches : List JsonPatch}
    (hslash : ∀ g ∈ groups, '/' ∉ g.stem.toList)
    (h : (writeAll dir taken groups).run t = .ok patches t') :
    Written dir t t' taken groups patches := by
  induction groups generalizing taken t patches with
  | nil =>
    obtain ⟨rfl, rfl⟩ := EStateM.Result.ok.inj h
    exact .nil dir t taken
  | cons g rest ih =>
    obtain ⟨⟨⟩, mid, hwrite, h⟩ := Files.run_bind_eq_ok_iff.1 h
    obtain ⟨others, last, hrest, h⟩ := Files.run_bind_eq_ok_iff.1 h
    obtain ⟨rfl, rfl⟩ := EStateM.Result.ok.inj h
    have hname := lasting_freshName (hslash g List.mem_cons_self) taken
    have hmid := Files.run_write_eq_ok_iff.1 (Files.run_explain_eq_ok_iff.1 hwrite)
    exact .cons hname (freshName_not_mem taken g.stem) hmid
      (ih (fun g hg => hslash g (List.mem_cons_of_mem _ hg)) hrest)

end PatchGroup

/-! ## Combining -/

/-- The patches `after` in the tree `t'` are those `before` in `t`, combined. -/
structure Combined (dir : Path) (t t' : FileTree) (before after : List JsonPatch) : Prop where
  /-- There is one patch for each name and kind, in the order in which these were met first. -/
  keys : after.map (·.target.key) = (before.map (·.target.key)).eraseDups
  /-- It has the target of the first patch of its group. -/
  target : ∀ q ∈ after,
    (before.find? (·.target.key = q.target.key)).map (·.target) = some q.target
  files : (after.map (·.path)).Nodup
  /-- Its file holds what the patches of its group contribute, one after the other. -/
  contents : ∀ q ∈ after, ∃ parts,
    List.Forall₂ (PatchGroup.Contributes t dir)
      (before.filter (·.target.key = q.target.key)) parts ∧
    t'.read (dir / .ofString q.path) = .ok (String.join parts)
  home : t'.home = t.home
  refusals : t'.refusals = t.refusals
  unchanged : ∀ loc, (∀ q ∈ after, t.find (dir / .ofString q.path) ≠ .ok loc) →
    t'.get? loc = t.get? loc

namespace PatchGroup

variable {dir : Path} {t t' : FileTree} {taken : List String}

/-- A group holds what its patches contribute. -/
theorem Grouped.exists_parts {entries : List (JsonPatch × String)} {groups : List PatchGroup}
    (hgrouped : Grouped entries groups)
    (hcontributed : ∀ e ∈ entries, contribution t dir e.1 = .ok e.2) {g : PatchGroup}
    (hg : g ∈ groups) : ∃ parts,
      List.Forall₂ (Contributes t dir)
        ((entries.map (·.1)).filter (·.target.key = g.target.key)) parts ∧
      g.contents = String.join parts := by
  refine ⟨_, ?_, hgrouped.contents g hg⟩
  rw [List.filter_map, List.forall₂_map_left_iff, List.forall₂_map_right_iff]
  refine List.forall₂_same.2 fun e he => ?_
  exact contributes_of_contribution (hcontributed e (List.mem_filter.1 he).1)

theorem Grouped.target_eq {entries : List (JsonPatch × String)} {groups : List PatchGroup}
    (hgrouped : Grouped entries groups) {g : PatchGroup} (hg : g ∈ groups) :
    ((entries.map (·.1)).find? (·.target.key = g.target.key)).map (·.target) =
      some g.target := by
  rw [List.find?_map, Option.map_map]
  exact hgrouped.target g hg

theorem Written.targets {groups : List PatchGroup} {after : List JsonPatch}
    (hwritten : Written dir t t' taken groups after) :
    after.map (·.target) = groups.map (·.target) := by
  rw [← List.forall₂_eq_eq_eq, List.forall₂_map_left_iff, List.forall₂_map_right_iff]
  exact hwritten.contents.flip.imp fun _ _ hp => hp.1

theorem Written.keys {groups : List PatchGroup} {after : List JsonPatch}
    (hwritten : Written dir t t' taken groups after) :
    after.map (·.target.key) = groups.map (·.target.key) := by
  have hkeys := congrArg (List.map PatchTarget.key) hwritten.targets
  rwa [List.map_map, List.map_map] at hkeys

theorem Grouped.combined {entries : List (JsonPatch × String)} {groups : List PatchGroup}
    {after : List JsonPatch} (hgrouped : Grouped entries groups)
    (hcontributed : ∀ e ∈ entries, contribution t dir e.1 = .ok e.2)
    (hwritten : Written dir t t' [] groups after) :
    Combined dir t t' (entries.map (·.1)) after := by
  refine ⟨?_, fun q hq => ?_, hwritten.distinct, fun q hq => ?_, hwritten.directories.home,
    hwritten.directories.refusals, hwritten.unchanged⟩
  · rw [List.map_map]
    exact hwritten.keys.trans hgrouped.keys
  · obtain ⟨g, hg, htarget, -⟩ := exists_of_mem_forall₂ hwritten.contents hq
    rw [htarget]
    exact hgrouped.target_eq hg
  · obtain ⟨g, hg, htarget, hread⟩ := exists_of_mem_forall₂ hwritten.contents hq
    obtain ⟨parts, hparts, hcontents⟩ := hgrouped.exists_parts hcontributed hg
    rw [htarget]
    exact ⟨parts, hparts, hread.trans (congrArg Except.ok hcontents)⟩

end PatchGroup

namespace Fragment

/-- Combining gives one patch for each target, whose file holds what the files of its patches held
before. -/
theorem aggregate_combines {dir : Path} {f f' : Fragment} {t t' : FileTree}
    (hslash : ∀ p ∈ f.jsonPatches, '/' ∉ p.target.name.toList ∧ '/' ∉ p.target.kind.toList)
    (h : (f.aggregate dir).run t = .ok f' t') :
    f' = { f with jsonPatches := f'.jsonPatches } ∧
      Combined dir t t' f.jsonPatches f'.jsonPatches := by
  obtain ⟨groups, mid, hask, h⟩ := Files.run_bind_eq_ok_iff.1 h
  obtain ⟨after, last, hwrite, h⟩ := Files.run_bind_eq_ok_iff.1 h
  obtain ⟨rfl, rfl⟩ := EStateM.Result.ok.inj h
  obtain ⟨hcollect, rfl⟩ := Files.run_ask_eq_ok_iff.1 hask
  obtain ⟨entries, hpatches, hcontributed, hgrouped⟩ := PatchGroup.grouped_of_collect hcollect
  have hstems : ∀ g ∈ groups, '/' ∉ g.stem.toList := by
    intro g hg
    obtain ⟨e, he, htarget⟩ := Option.map_eq_some_iff.1 (hgrouped.target g hg)
    have hmem : e.1 ∈ f.jsonPatches := hpatches ▸ List.mem_map_of_mem (List.mem_of_find?_eq_some he)
    obtain ⟨hname, hkind⟩ := hslash e.1 hmem
    exact PatchGroup.slash_not_mem_stem (htarget ▸ hname) (htarget ▸ hkind)
  refine ⟨rfl, ?_⟩
  rw [← hpatches]
  exact hgrouped.combined hcontributed (PatchGroup.written_of_writeAll hstems hwrite)

/-- Two targets ask for one file name, and a patch file already has it. -/
theorem aggregate_combines_of_contested_name :
    ∃ f t f' t',
      f = ({ jsonPatches :=
        [{ target := { name := "a", kind := "b-c" }, path := "ops.yaml" },
          { target := { name := "a-b", kind := "c" }, path := "a-b-c.yaml" },
          { target := { name := "a", kind := "b-c" }, path := "none.yaml" },
          { target := { name := "a", kind := "b-c" }, path := "a-b-c.yaml" }] } : Fragment) ∧
      t = (⟨[([.ofString "app"], .directory),
        ([.ofString "app", .ofString "ops.yaml"], .file (.text "- x\n")),
        ([.ofString "app", .ofString "a-b-c.yaml"], .file (.text "- y"))], [], []⟩ : FileTree) ∧
      (∀ p ∈ f.jsonPatches, '/' ∉ p.target.name.toList ∧ '/' ∉ p.target.kind.toList) ∧
      (f.aggregate (.ofString "app")).run t = .ok f' t' ∧
      f'.jsonPatches.map (·.path) = ["a-b-c.yaml", "a-b-c-2.yaml"] ∧
      t'.read (.ofString "app" / .ofString "a-b-c.yaml") = .ok "- x\n- y\n" ∧
      t'.read (.ofString "app" / .ofString "a-b-c-2.yaml") = .ok "- y\n" ∧
      Combined (.ofString "app") t t' f.jsonPatches f'.jsonPatches := by
  refine ⟨_, _, { jsonPatches :=
      [{ target := { name := "a", kind := "b-c" }, path := "a-b-c.yaml" },
        { target := { name := "a-b", kind := "c" }, path := "a-b-c-2.yaml" }] },
    ⟨[([.ofString "app"], .directory),
      ([.ofString "app", .ofString "ops.yaml"], .file (.text "- x\n")),
      ([.ofString "app", .ofString "a-b-c.yaml"], .file (.text "- x\n- y\n")),
      ([.ofString "app", .ofString "a-b-c-2.yaml"], .file (.text "- y\n"))], [], []⟩,
    rfl, rfl, ?hslash, ?hrun, rfl, rfl, rfl, (aggregate_combines ?hslash ?hrun).2⟩
  case hslash => decide
  case hrun => cbv

end Fragment
end LayeredConfig
