/-
Patches in groups.

`Grouped` says of some groups that they are those of the patches read so far: one for each name and
kind, in the order in which these were met, with the target of the first patch and the contents of
all of them. Adding one more patch keeps it so (`Grouped.add`), and so do the groups that are
collected in the end (`grouped_of_collect`).
-/
import Mathlib.Data.List.Nodup
import LayeredConfig.Aggregate
import LayeredConfig.Proofs.Result

namespace LayeredConfig

/-- What tells the targets of two groups apart. -/
def PatchTarget.key (t : PatchTarget) : String × String := (t.name, t.kind)

namespace PatchGroup

variable {t : FileTree} {dir : Path} {groups : List PatchGroup}

/-! ## Adding to the groups -/

theorem isOf_iff {g : PatchGroup} {target : PatchTarget} :
    g.isOf target = true ↔ g.target.key = target.key := by
  simp [isOf, PatchTarget.key]

theorem keys_add (target : PatchTarget) (c : String) (groups : List PatchGroup) :
    (add target c groups).map (·.target.key) =
      if target.key ∈ groups.map (·.target.key) then groups.map (·.target.key)
      else groups.map (·.target.key) ++ [target.key] := by
  induction groups with
  | nil => rfl
  | cons g rest ih =>
    rw [add]
    by_cases hg : g.target.key = target.key
    · rw [if_pos (isOf_iff.2 hg), List.map_cons, List.map_cons, if_pos (by simp [hg])]
    · have hmem : target.key ∈ (g :: rest).map (·.target.key) ↔
          target.key ∈ rest.map (·.target.key) := by
        rw [List.map_cons, List.mem_cons, or_iff_right (Ne.symm hg)]
      rw [if_neg (mt isOf_iff.1 hg), List.map_cons, ih, if_congr hmem rfl rfl, List.map_cons]
      by_cases hrest : target.key ∈ rest.map (·.target.key)
      · rw [if_pos hrest, if_pos hrest]
      · rw [if_neg hrest, if_neg hrest, List.cons_append]

theorem mem_of_mem_add {target : PatchTarget} {c : String} {g : PatchGroup}
    (hnd : (groups.map (·.target.key)).Nodup) (h : g ∈ add target c groups) :
    (g ∈ groups ∧ g.target.key ≠ target.key) ∨
      (∃ old ∈ groups, old.target.key = target.key ∧
        g = { old with contents := old.contents ++ c }) ∨
      (target.key ∉ groups.map (·.target.key) ∧ g = ⟨target, c⟩) := by
  induction groups with
  | nil => exact .inr (.inr ⟨List.not_mem_nil, List.mem_singleton.1 h⟩)
  | cons first rest ih =>
    obtain ⟨hfirst, hrest⟩ := List.nodup_cons.1 hnd
    rw [add] at h
    by_cases hkey : first.target.key = target.key
    · rw [if_pos (isOf_iff.2 hkey)] at h
      rcases List.mem_cons.1 h with rfl | h
      · exact .inr (.inl ⟨first, List.mem_cons_self, hkey, rfl⟩)
      · refine .inl ⟨List.mem_cons_of_mem first h, fun e => hfirst ?_⟩
        exact List.mem_map.2 ⟨g, h, e.trans hkey.symm⟩
    · rw [if_neg (mt isOf_iff.1 hkey)] at h
      rcases List.mem_cons.1 h with rfl | h
      · exact .inl ⟨List.mem_cons_self, hkey⟩
      · rcases ih hrest h with ⟨hg, hne⟩ | ⟨old, hold, heq, hg⟩ | ⟨hnew, hg⟩
        · exact .inl ⟨List.mem_cons_of_mem first hg, hne⟩
        · exact .inr (.inl ⟨old, List.mem_cons_of_mem first hold, heq, hg⟩)
        · refine .inr (.inr ⟨?_, hg⟩)
          rw [List.map_cons, List.mem_cons]
          exact not_or.2 ⟨Ne.symm hkey, hnew⟩

/-! ## The groups of the patches read so far -/

/-- The groups of some patches, each of which is given with what it contributes. -/
structure Grouped (entries : List (JsonPatch × String)) (groups : List PatchGroup) : Prop where
  keys : groups.map (·.target.key) = (entries.map (·.1.target.key)).eraseDups
  distinct : (groups.map (·.target.key)).Nodup
  target : ∀ g ∈ groups,
    (entries.find? (·.1.target.key = g.target.key)).map (·.1.target) = some g.target
  contents : ∀ g ∈ groups,
    g.contents = String.join ((entries.filter (·.1.target.key = g.target.key)).map (·.2))

namespace Grouped

variable {entries : List (JsonPatch × String)}

theorem nil : Grouped [] [] := ⟨rfl, .nil, by simp, by simp⟩

theorem mem_keys_iff (h : Grouped entries groups) {key : String × String} :
    key ∈ groups.map (·.target.key) ↔ ∃ e ∈ entries, e.1.target.key = key := by
  rw [h.keys, List.mem_eraseDups, List.mem_map]

theorem keys_concat (h : Grouped entries groups) (p : JsonPatch) (c : String) :
    (PatchGroup.add p.target c groups).map (·.target.key) =
      ((entries ++ [(p, c)]).map (·.1.target.key)).eraseDups := by
  have hmem : p.target.key ∈ groups.map (·.target.key) ↔
      p.target.key ∈ entries.map (·.1.target.key) := by
    rw [h.keys, List.mem_eraseDups]
  rw [keys_add, List.map_append, List.eraseDups_append, ← h.keys, if_congr hmem rfl rfl]
  by_cases hp : p.target.key ∈ entries.map (·.1.target.key)
  · have hold : [p.target.key].removeAll (entries.map (·.1.target.key)) = [] := by
      simpa [List.removeAll] using hp
    rw [if_pos hp, List.map_singleton, hold, List.eraseDups_nil, List.append_nil]
  · have hnew : [p.target.key].removeAll (entries.map (·.1.target.key)) = [p.target.key] := by
      simpa [List.removeAll] using hp
    rw [if_neg hp, List.map_singleton, hnew]
    rfl

/-- The step of collecting: one more patch is added to the groups of those before it. -/
theorem add (h : Grouped entries groups) (p : JsonPatch) (c : String) :
    Grouped (entries ++ [(p, c)]) (PatchGroup.add p.target c groups) := by
  have hfind {key : String × String} {target : PatchTarget}
      (hold : (entries.find? (·.1.target.key = key)).map (·.1.target) = some target) :
      ((entries ++ [(p, c)]).find? (·.1.target.key = key)).map (·.1.target) = some target := by
    obtain ⟨e, he, htarget⟩ := Option.map_eq_some_iff.1 hold
    rw [List.find?_append, he]
    exact congrArg some htarget
  have hfresh (hnew : p.target.key ∉ groups.map (·.target.key)) :
      ∀ e ∈ entries, ¬ decide (e.1.target.key = p.target.key) = true := by
    intro e he hkey
    exact hnew (h.mem_keys_iff.2 ⟨e, he, of_decide_eq_true hkey⟩)
  refine ⟨h.keys_concat p c, ?_, fun g hg => ?_, fun g hg => ?_⟩
  · rw [keys_add]
    by_cases hp : p.target.key ∈ groups.map (·.target.key)
    · rw [if_pos hp]
      exact h.distinct
    · rw [if_neg hp, ← List.concat_eq_append]
      exact List.Nodup.concat hp h.distinct
  · rcases mem_of_mem_add h.distinct hg with ⟨hmem, -⟩ | ⟨old, hold, -, rfl⟩ | ⟨hnew, rfl⟩
    · exact hfind (h.target g hmem)
    · exact hfind (h.target old hold)
    · rw [List.find?_append, List.find?_eq_none.2 (hfresh hnew)]
      simp
  · rw [List.filter_append, List.map_append, String.join_append]
    rcases mem_of_mem_add h.distinct hg with ⟨hmem, hne⟩ | ⟨old, hold, heq, rfl⟩ | ⟨hnew, rfl⟩
    · rw [h.contents g hmem]
      simp [Ne.symm hne]
    · show old.contents ++ c = _
      rw [h.contents old hold]
      simp [heq]
    · rw [List.filter_eq_nil_iff.2 (hfresh hnew)]
      simp

/-- The run of collecting. -/
theorem collect (h : Grouped entries groups) {patches : List JsonPatch}
    {groups' : List PatchGroup}
    (hrun : patches.foldlM (fun groups p => do
      return PatchGroup.add p.target (← contribution t dir p) groups) groups = .ok groups') :
    ∃ more : List (JsonPatch × String), more.map (·.1) = patches ∧
      (∀ e ∈ more, contribution t dir e.1 = .ok e.2) ∧ Grouped (entries ++ more) groups' := by
  induction patches generalizing entries groups with
  | nil =>
    obtain rfl : groups = groups' := Except.ok.inj hrun
    exact ⟨[], rfl, by simp, by rwa [List.append_nil]⟩
  | cons p rest ih =>
    rw [List.foldlM_cons] at hrun
    obtain ⟨mid, hmid, hrest⟩ := bind_eq_ok_iff.1 hrun
    obtain ⟨c, hc, hadd⟩ := bind_eq_ok_iff.1 hmid
    obtain rfl : PatchGroup.add p.target c groups = mid := Except.ok.inj hadd
    obtain ⟨more, hmore, hall, hgrouped⟩ := ih (h.add p c) hrest
    refine ⟨(p, c) :: more, by rw [List.map_cons, hmore], ?_, ?_⟩
    · rintro e he
      rcases List.mem_cons.1 he with rfl | he
      · exact hc
      · exact hall e he
    · rwa [List.append_assoc, List.singleton_append] at hgrouped

end Grouped

theorem grouped_of_collect {patches : List JsonPatch} (h : collect t dir patches = .ok groups) :
    ∃ entries : List (JsonPatch × String), entries.map (·.1) = patches ∧
      (∀ e ∈ entries, contribution t dir e.1 = .ok e.2) ∧ Grouped entries groups :=
  Grouped.nil.collect h

/-! ## What a patch contributes -/

/-- What a patch brings into the combined file: the text of its own file, which is ended by a line
feed unless it is empty, or nothing if there is no such file. -/
def Contributes (t : FileTree) (dir : Path) (p : JsonPatch) (c : String) : Prop :=
  (∃ s, t.read (dir / .ofString p.path) = .ok s ∧
    c.toList = if s.toList = [] ∨ s.toList.getLast? = some '\n' then s.toList
      else s.toList ++ ['\n']) ∨
  (t.read (dir / .ofString p.path) = .error .notFound ∧ c = "")

theorem endsWith_lineFeed_iff (s : String) :
    s.endsWith "\n" = true ↔ s.toList.getLast? = some '\n' := by
  rw [String.endsWith_eq_endsWith_toSlice, String.Slice.endsWith_string_iff, String.copy_toSlice,
    List.getLast?_eq_some_iff]
  exact exists_congr fun l => eq_comm

theorem toList_closed (s : String) :
    (closed s).toList = if s.toList = [] ∨ s.toList.getLast? = some '\n' then s.toList
      else s.toList ++ ['\n'] := by
  have hclosed : s = "" ∨ s.endsWith "\n" = true ↔
      s.toList = [] ∨ s.toList.getLast? = some '\n' := by
    rw [endsWith_lineFeed_iff, String.toList_eq_nil_iff]
  rw [closed, if_congr hclosed rfl rfl, apply_ite String.toList, String.toList_append]
  rfl

theorem contributes_of_contribution {p : JsonPatch} {c : String}
    (h : contribution t dir p = .ok c) : Contributes t dir p c := by
  rw [contribution] at h
  cases hread : t.read (dir / .ofString p.path) with
  | ok s =>
    rw [hread] at h
    obtain rfl := Except.ok.inj h
    exact .inl ⟨s, hread, toList_closed s⟩
  | error e =>
    rw [hread] at h
    cases e with
    | notFound => exact .inr ⟨hread, (Except.ok.inj h).symm⟩
    | _ => exact absurd h (by simp)

end PatchGroup
end LayeredConfig
