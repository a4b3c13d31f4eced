/-
The search for a free name, one attempt after the other.

A search adds a name to the set of those that are taken. If it was in the set before, the next one
is tried, which has a number that is one higher; the search itself has no bound. `Search.Finds` is a
search that ends, with the number of its attempts. The names that are tried are the candidates in
their order (`next_stage`), so a search ends at the first of them that is free, and since the
candidates differ from each other this takes at most one attempt more than names are taken. The
numbers that are tried are no higher than that either, which bounds the counter.

`freshName` is the name that the search finds (`finds_iff_freshName`). What it adds to the set keeps
the later searches off that name, so several searches in a row find different names
(`nodup_freshNames`).
-/
import Mathlib
import LayeredConfig.Proofs.Aggregate.Change

namespace LayeredConfig
namespace PatchGroup

/-! ## Searching -/

/-- A search under way: the names that are taken, the name to be tried next, and the number in the
one after it. A name with the number `n` is tried only if `n` is at most one more than names are
taken (`exists_freshName_eq_numberedName`), and the number here is then `n + 1`. So it does not
overflow as a signed number of 32 bits while fewer than `2 ^ 31 - 2` names are taken. -/
structure Search where
  taken : Finset String
  name : String
  number : Nat

namespace Search

def start (taken : Finset String) (stem : String) : Search := ⟨taken, stem ++ ".yaml", 2⟩

/-- The search after an attempt that has met a name which is taken. -/
def next (stem : String) (s : Search) : Search :=
  { s with name := stem ++ "-" ++ toString s.number ++ ".yaml", number := s.number + 1 }

/-- The search ends with attempt `k`, which adds `name` to the set and leaves the set `after`. -/
inductive Finds (stem : String) : Search → (k : Nat) → (name : String) → (after : Finset String) →
    Prop
  | free {s : Search} (hfree : s.name ∉ s.taken) :
    Finds stem s 1 s.name (insert s.name s.taken)
  | again {s : Search} {k : Nat} {name : String} {after : Finset String}
    (htaken : s.name ∈ s.taken) (hrest : Finds stem (s.next stem) k name after) :
    Finds stem s (k + 1) name after

/-- The search when candidate `n` is to be tried. -/
def stage (taken : Finset String) (stem : String) (n : Nat) : Search :=
  ⟨taken, candidate stem n, n + 2⟩

variable {taken after : Finset String} {stem name : String} {n k : Nat}

theorem next_stage (taken : Finset String) (stem : String) (n : Nat) :
    (stage taken stem n).next stem = stage taken stem (n + 1) := rfl

theorem not_finds_zero {s : Search} : ¬ Finds stem s 0 name after := nofun

/-- A search goes on while the candidates are taken, and ends at the first that is free. -/
theorem finds_stage_iff :
    Finds stem (stage taken stem n) (k + 1) name after ↔
      (∀ i < k, candidate stem (n + i) ∈ taken) ∧ candidate stem (n + k) ∉ taken ∧
        name = candidate stem (n + k) ∧ after = insert name taken := by
  -- A run starts with its first attempt, so the others are a run from the next stage.
  induction k generalizing n with
  | zero =>
    constructor
    · intro h
      cases h with
      | free hfree => exact ⟨by simp, hfree, rfl, rfl⟩
      | again _ hrest => exact absurd hrest not_finds_zero
    · rintro ⟨-, hfree, rfl, rfl⟩
      exact .free hfree
  | succ k ih =>
    have hshift (i : Nat) : n + 1 + i = n + (i + 1) := by omega
    have hrest : Finds stem (stage taken stem (n + 1)) (k + 1) name after ↔
        (∀ i < k, candidate stem (n + (i + 1)) ∈ taken) ∧
          candidate stem (n + (k + 1)) ∉ taken ∧ name = candidate stem (n + (k + 1)) ∧
          after = insert name taken := by
      simpa only [hshift] using ih (n := n + 1)
    constructor
    · intro h
      cases h with
      | again htaken hlater =>
        rw [next_stage] at hlater
        obtain ⟨hbefore, hfound⟩ := hrest.1 hlater
        refine ⟨fun i hi => ?_, hfound⟩
        cases i with
        | zero => exact htaken
        | succ i => exact hbefore i (by omega)
    · intro ⟨hbefore, hfound⟩
      exact .again (hbefore 0 (by omega))
        (hrest.2 ⟨fun i hi => hbefore (i + 1) (by omega), hfound⟩)

theorem finds_start_iff :
    Finds stem (start taken stem) (k + 1) name after ↔
      (∀ i < k, candidate stem i ∈ taken) ∧ candidate stem k ∉ taken ∧
        name = candidate stem k ∧ after = insert name taken := by
  have hstart : start taken stem = stage taken stem 0 := rfl
  rw [hstart, finds_stage_iff]
  simp only [Nat.zero_add]

end Search

variable {dir : Path} {t t' : FileTree} {taken : List String} {g : PatchGroup}
variable {groups : List PatchGroup} {patches : List JsonPatch}

/-! ## What is found -/

/-- A name that is taken more than once counts once. -/
theorem exists_freshName_eq_le_card (taken : List String) (stem : String) :
    ∃ n ≤ taken.toFinset.card, freshName taken stem = candidate stem n ∧
      candidate stem n ∉ taken ∧ ∀ m < n, candidate stem m ∈ taken := by
  obtain ⟨n, -, hname, hfree, hbefore⟩ := exists_freshName_eq taken stem
  obtain ⟨m, hm, hother⟩ := exists_candidate_not_mem taken.dedup stem
  rw [List.mem_dedup] at hother
  have hle : n ≤ m := by
    by_contra hlt
    exact hother (hbefore m (by omega))
  exact ⟨n, hle.trans hm, hname, hfree, hbefore⟩

theorem finds_iff_freshName (taken : List String) (stem : String) :
    ∃ attempts ≤ taken.toFinset.card + 1, ∀ k name after,
      Search.Finds stem (.start taken.toFinset stem) k name after ↔
        k = attempts ∧ name = freshName taken stem ∧ after = insert name taken.toFinset := by
  obtain ⟨n, hn, hname, hfree, hbefore⟩ := exists_freshName_eq_le_card taken stem
  refine ⟨n + 1, by omega, fun k name after => ?_⟩
  cases k with
  | zero =>
    refine ⟨fun h => absurd h Search.not_finds_zero, ?_⟩
    rintro ⟨hk, -⟩
    exact absurd hk (by omega)
  | succ k =>
    rw [Search.finds_start_iff]
    simp only [List.mem_toFinset]
    constructor
    · rintro ⟨htaken, hfound, rfl, rfl⟩
      -- Both are the first candidate that is free.
      obtain rfl : k = n := by
        rcases Nat.lt_trichotomy k n with hlt | heq | hgt
        · exact absurd (hbefore k hlt) hfound
        · exact heq
        · exact absurd (htaken n hgt) hfree
      exact ⟨rfl, hname.symm, rfl⟩
    · rintro ⟨hk, rfl, rfl⟩
      obtain rfl : k = n := by omega
      exact ⟨hbefore, hfree, hname, rfl⟩

/-- The name of the combined file of a target, if no other target has asked for it. -/
def plainName (t : PatchTarget) : String := t.name ++ "-" ++ t.kind ++ ".yaml"

def numberedName (t : PatchTarget) (n : Nat) : String :=
  t.name ++ "-" ++ t.kind ++ "-" ++ toString n ++ ".yaml"

theorem candidate_stem_zero (g : PatchGroup) : candidate g.stem 0 = plainName g.target := rfl

theorem candidate_stem_succ (g : PatchGroup) (n : Nat) :
    candidate g.stem (n + 1) = numberedName g.target (n + 2) := rfl

theorem freshName_eq_plainName_iff :
    freshName taken g.stem = plainName g.target ↔ plainName g.target ∉ taken := by
  obtain ⟨n, -, hname, hfree, hbefore⟩ := exists_freshName_eq taken g.stem
  rw [← candidate_stem_zero]
  constructor
  · intro h
    rw [← h, hname]
    exact hfree
  · intro hplain
    rcases Nat.eq_zero_or_pos n with rfl | hpos
    · exact hname
    · exact absurd (hbefore 0 hpos) hplain

theorem exists_freshName_eq_numberedName (htaken : plainName g.target ∈ taken) :
    ∃ n, 2 ≤ n ∧ n ≤ taken.toFinset.card + 1 ∧
      freshName taken g.stem = numberedName g.target n ∧ numberedName g.target n ∉ taken ∧
      ∀ m, 2 ≤ m → m < n → numberedName g.target m ∈ taken := by
  obtain ⟨n, hn, hname, hfree, hbefore⟩ := exists_freshName_eq_le_card taken g.stem
  cases n with
  | zero => exact absurd htaken hfree
  | succ n =>
    rw [candidate_stem_succ] at hname hfree
    refine ⟨n + 2, by omega, by omega, hname, hfree, fun m hm hlt => ?_⟩
    obtain ⟨i, rfl⟩ := Nat.exists_eq_add_of_le' hm
    rw [← candidate_stem_succ]
    exact hbefore (i + 1) (by omega)

/-! ## Searches in a row -/

/-- The names of the combined files of some groups, if some names are taken before. -/
def freshNames (taken : List String) : List PatchGroup → List String
  | [] => []
  | g :: groups => freshName taken g.stem :: freshNames (freshName taken g.stem :: taken) groups

theorem not_mem_of_mem_freshNames {name : String} (h : name ∈ freshNames taken groups) :
    name ∉ taken := by
  induction groups generalizing taken with
  | nil => exact absurd h List.not_mem_nil
  | cons g groups ih =>
    rcases List.mem_cons.1 h with rfl | h
    · exact freshName_not_mem taken g.stem
    · intro hmem
      exact ih h (List.mem_cons_of_mem _ hmem)

theorem nodup_freshNames (taken : List String) (groups : List PatchGroup) :
    (freshNames taken groups).Nodup := by
  induction groups generalizing taken with
  | nil => exact .nil
  | cons g groups ih =>
    refine List.nodup_cons.2 ⟨fun hmem => ?_, ih _⟩
    exact not_mem_of_mem_freshNames hmem List.mem_cons_self

theorem paths_of_run_writeAll (h : (writeAll dir taken groups).run t = .ok patches t') :
    patches.map (·.path) = freshNames taken groups := by
  induction groups generalizing taken t patches with
  | nil =>
    obtain ⟨rfl, rfl⟩ := EStateM.Result.ok.inj h
    rfl
  | cons g groups ih =>
    obtain ⟨mid, others, -, hothers, rfl⟩ := run_writeAll_cons_eq_ok_iff.1 h
    rw [List.map_cons, ih hothers]
    rfl

/-- Every search ends in time, in one way only, with a name that is free and the set of names with
that name added; the name is the plain one or the one with the least number. Searches in a row find
names that all differ, and these are the names of the combined files. -/
theorem search_finds_free :
    (∀ (taken : List String) (g : PatchGroup),
      (∃ attempts ≤ taken.toFinset.card + 1, ∀ k name after,
        Search.Finds g.stem (.start taken.toFinset g.stem) k name after ↔
          k = attempts ∧ name = freshName taken g.stem ∧ after = insert name taken.toFinset) ∧
      freshName taken g.stem ∉ taken ∧
      (freshName taken g.stem = plainName g.target ↔ plainName g.target ∉ taken) ∧
      (plainName g.target ∈ taken →
        ∃ n, 2 ≤ n ∧ n ≤ taken.toFinset.card + 1 ∧
          freshName taken g.stem = numberedName g.target n ∧ numberedName g.target n ∉ taken ∧
          ∀ m, 2 ≤ m → m < n → numberedName g.target m ∈ taken)) ∧
    ∀ (taken : List String) (groups : List PatchGroup),
      (freshNames taken groups).Nodup ∧
      (∀ name ∈ freshNames taken groups, name ∉ taken) ∧
      ∀ dir t patches t', (writeAll dir taken groups).run t = .ok patches t' →
        patches.map (·.path) = freshNames taken groups := by
  constructor
  · intro taken g
    exact ⟨finds_iff_freshName taken g.stem, freshName_not_mem taken g.stem,
      freshName_eq_plainName_iff, exists_freshName_eq_numberedName⟩
  · intro taken groups
    exact ⟨nodup_freshNames taken groups, fun name h => not_mem_of_mem_freshNames h,
      fun dir t patches t' h => paths_of_run_writeAll h⟩

/-- The plain name of the last target is what the one before it has got with a number. -/
theorem search_finds_free_of_contested_suffix :
    ∃ groups last taken t patches t',
      groups = [(⟨{ name := "a", kind := "b-c" }, "x"⟩ : PatchGroup),
        ⟨{ name := "a-b", kind := "c" }, "y"⟩, last] ∧
      last = (⟨{ name := "a", kind := "b-c-2" }, "z"⟩ : PatchGroup) ∧
      taken = ["a-b-c-2.yaml", "a-b-c.yaml"] ∧
      t = (⟨[([.ofString "app"], .directory)], [], []⟩ : FileTree) ∧
      plainName last.target ∈ taken ∧
      (∃ n, 2 ≤ n ∧ n ≤ taken.toFinset.card + 1 ∧
        freshName taken last.stem = numberedName last.target n ∧
        numberedName last.target n ∉ taken ∧
        ∀ m, 2 ≤ m → m < n → numberedName last.target m ∈ taken) ∧
      (writeAll (.ofString "app") [] groups).run t = .ok patches t' ∧
      patches.map (·.path) = ["a-b-c.yaml", "a-b-c-2.yaml", "a-b-c-2-2.yaml"] ∧
      patches.map (·.path) = freshNames [] groups := by
  refine ⟨_, _, _, _,
    [{ target := { name := "a", kind := "b-c" }, path := "a-b-c.yaml" },
      { target := { name := "a-b", kind := "c" }, path := "a-b-c-2.yaml" },
      { target := { name := "a", kind := "b-c-2" }, path := "a-b-c-2-2.yaml" }],
    ⟨[([.ofString "app"], .directory),
      ([.ofString "app", .ofString "a-b-c.yaml"], .file (.text "x")),
      ([.ofString "app", .ofString "a-b-c-2.yaml"], .file (.text "y")),
      ([.ofString "app", .ofString "a-b-c-2-2.yaml"], .file (.text "z"))], [], []⟩,
    rfl, rfl, rfl, rfl, ?htaken, (search_finds_free.1 _ _).2.2.2 ?htaken, ?hrun, rfl,
    (search_finds_free.2 _ _).2.2 _ _ _ _ ?hrun⟩
  case htaken => decide
  case hrun => cbv

end PatchGroup
end LayeredConfig
