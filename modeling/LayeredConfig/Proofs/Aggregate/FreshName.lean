/-
Names of combined files.

The candidates for one stem differ from each other, so among one more of them than there are taken
names one is free, and the first that is free is chosen (`exists_freshName_eq`). A candidate for a
stem without a slash is the name of a file.
-/
import Mathlib.Data.List.Nodup
import Mathlib.Data.List.Perm.Subperm
import LayeredConfig.Aggregate
import LayeredConfig.Proofs.Path.Spelling

namespace LayeredConfig
namespace PatchGroup

/-! ## Candidates -/

theorem candidate_zero (stem : String) : candidate stem 0 = stem ++ ".yaml" := rfl

theorem candidate_succ (stem : String) (n : Nat) :
    candidate stem (n + 1) = stem ++ ("-" ++ ((n + 2).repr ++ ".yaml")) := by
  rw [← String.append_assoc, ← String.append_assoc]
  rfl

theorem exists_candidate_eq (stem : String) (n : Nat) :
    ∃ front, candidate stem n = front ++ ".yaml" := by
  cases n with
  | zero => exact ⟨stem, candidate_zero stem⟩
  | succ n =>
    refine ⟨stem ++ ("-" ++ (n + 2).repr), ?_⟩
    rw [candidate_succ, String.append_assoc, String.append_assoc]

theorem candidate_injective (stem : String) : Function.Injective (candidate stem) := by
  -- After the stem the plain name goes on with a dot, and every other with a hyphen.
  have hplain (n : Nat) : candidate stem 0 ≠ candidate stem (n + 1) := by
    intro h
    rw [candidate_zero, candidate_succ, String.append_right_inj] at h
    have hlist := congrArg String.toList h
    rw [String.toList_append] at hlist
    exact absurd (List.cons.inj hlist).1 (by decide)
  intro m n h
  cases m with
  | zero =>
    cases n with
    | zero => rfl
    | succ n => exact absurd h (hplain n)
  | succ m =>
    cases n with
    | zero => exact absurd h.symm (hplain m)
    | succ n =>
      rw [candidate_succ, candidate_succ, String.append_right_inj, String.append_right_inj,
        String.append_left_inj] at h
      have hread := congrArg (fun s => Nat.ofDigitChars 10 s.toList 0) h
      simp only [Nat.toList_repr, Nat.ofDigitChars_ten_toDigits] at hread
      omega

theorem slash_not_mem_candidate {stem : String} (h : '/' ∉ stem.toList) (n : Nat) :
    '/' ∉ (candidate stem n).toList := by
  cases n with
  | zero =>
    rw [candidate_zero, String.toList_append, List.mem_append]
    exact not_or.2 ⟨h, by decide⟩
  | succ n =>
    have hdigits : '/' ∉ (n + 2).repr.toList := by
      rw [Nat.toList_repr]
      intro hmem
      have hdigit := Nat.isDigit_of_mem_toDigits (by decide) (by decide) hmem
      exact absurd hdigit (by decide)
    rw [candidate_succ]
    simp only [String.toList_append, List.mem_append, not_or]
    exact ⟨h, by decide, hdigits, by decide⟩

theorem slash_not_mem_stem {g : PatchGroup} (hname : '/' ∉ g.target.name.toList)
    (hkind : '/' ∉ g.target.kind.toList) : '/' ∉ g.stem.toList := by
  rw [stem]
  simp only [String.toList_append, List.mem_append, not_or]
  exact ⟨⟨hname, by decide⟩, hkind⟩

theorem hyphen_mem_candidate (g : PatchGroup) (n : Nat) :
    '-' ∈ (candidate g.stem n).toList := by
  have hstem : '-' ∈ g.stem.toList := by simp [stem]
  cases n with
  | zero => simp [candidate_zero, hstem]
  | succ n => simp [candidate_succ]

theorem five_le_length_candidate (stem : String) (n : Nat) :
    5 ≤ (candidate stem n).toList.length := by
  have hyaml : ".yaml".toList.length = 5 := rfl
  cases n with
  | zero =>
    rw [candidate_zero, String.toList_append, List.length_append]
    omega
  | succ n =>
    rw [candidate_succ]
    simp only [String.toList_append, List.length_append]
    omega

/-- A candidate is a part of paths as it stands. -/
theorem lasting_candidate {stem : String} (h : '/' ∉ stem.toList) (n : Nat) :
    (Path.Part.name (Name.ofString (candidate stem n))).Lasting :=
  Path.Part.lasting_ofString (slash_not_mem_candidate h n)
    (Nat.le_trans (by decide) (five_le_length_candidate stem n))

/-! ## The first that is free -/

theorem exists_candidate_not_mem (taken : List String) (stem : String) :
    ∃ n ≤ taken.length, candidate stem n ∉ taken := by
  by_contra hall
  push Not at hall
  have hnd : ((List.range (taken.length + 1)).map (candidate stem)).Nodup :=
    List.nodup_range.map (candidate_injective stem)
  have hsub : (List.range (taken.length + 1)).map (candidate stem) ⊆ taken := by
    intro name hname
    obtain ⟨n, hn, rfl⟩ := List.mem_map.1 hname
    exact hall n (Nat.lt_succ_iff.1 (List.mem_range.1 hn))
  have hlength := (List.subperm_of_subset hnd hsub).length_le
  rw [List.length_map, List.length_range] at hlength
  omega

theorem exists_freshName_eq (taken : List String) (stem : String) :
    ∃ n ≤ taken.length, freshName taken stem = candidate stem n ∧ candidate stem n ∉ taken ∧
      ∀ m < n, candidate stem m ∈ taken := by
  obtain ⟨k, hk, hfree⟩ := exists_candidate_not_mem taken stem
  have hsome : ((List.range (taken.length + 1)).find?
      ((· ∉ taken) ∘ candidate stem)).isSome := by
    rw [List.find?_isSome]
    exact ⟨k, List.mem_range.2 (by omega), by simpa using hfree⟩
  obtain ⟨n, hn⟩ := Option.isSome_iff_exists.1 hsome
  obtain ⟨hnot, hrange, hbefore⟩ := List.find?_range_eq_some.1 hn
  refine ⟨n, Nat.lt_succ_iff.1 (List.mem_range.1 hrange), ?_, by simpa using hnot, ?_⟩
  · rw [freshName, List.find?_map, hn]
    rfl
  · intro m hm
    simpa using hbefore m hm

theorem freshName_not_mem (taken : List String) (stem : String) :
    freshName taken stem ∉ taken := by
  obtain ⟨n, -, hname, hfree, -⟩ := exists_freshName_eq taken stem
  rwa [hname]

theorem lasting_freshName {stem : String} (h : '/' ∉ stem.toList) (taken : List String) :
    (Path.Part.name (Name.ofString (freshName taken stem))).Lasting := by
  obtain ⟨n, -, hname, -, -⟩ := exists_freshName_eq taken stem
  rw [hname]
  exact lasting_candidate h n

end PatchGroup
end LayeredConfig
