/-
What a combined file says.

The texts of the files are put one after the other, and nothing looks at what they say. So the
combined file says what they say together only if they are written in a way that allows it
(`Fragment.aggregate_joins`), and otherwise it may say anything (`Fragment.aggregate_misjoins`).
-/
import Mathlib
import LayeredConfig.Proofs.Aggregate.Interrupted
import LayeredConfig.Proofs.Yaml.Decide
import LayeredConfig.Proofs.Yaml.Listed

namespace LayeredConfig

open Yaml (Joinable Value)

variable {dir : Path} {t t' : FileTree} {patches : List JsonPatch}

namespace PatchGroup

/-- The texts of those files of some patches that exist. -/
def inputs (t : FileTree) (dir : Path) (patches : List JsonPatch) : List String :=
  patches.filterMap fun p => (t.read (dir / .ofString p.path)).toOption

theorem inputs_cons (t : FileTree) (dir : Path) (p : JsonPatch) (patches : List JsonPatch) :
    inputs t dir (p :: patches) = match t.read (dir / .ofString p.path) with
      | .ok s => s :: inputs t dir patches
      | .error _ => inputs t dir patches := by
  rw [inputs, List.filterMap_cons]
  cases t.read (dir / .ofString p.path) <;> rfl

theorem getLast?_closed {s : String} (h : closed s ≠ "") :
    (closed s).toList.getLast? = some '\n' := by
  rw [toList_closed]
  split
  case isTrue hs =>
    refine hs.resolve_left fun hnil => h ?_
    obtain rfl := String.toList_eq_nil_iff.1 hnil
    rfl
  case isFalse => rw [List.getLast?_append]; rfl

theorem join_of_contributes {parts : List String}
    (h : List.Forall₂ (Contributes t dir) patches parts) :
    String.join parts = String.join ((inputs t dir patches).map closed) := by
  induction h with
  | nil => rfl
  | cons hc _ ih =>
    rw [String.join_cons, ih, inputs_cons]
    rcases hc with ⟨s, hread, hc⟩ | ⟨hread, rfl⟩
    · rw [hread, List.map_cons, String.join_cons]
      exact congrArg (· ++ _) (String.toList_injective (hc.trans (toList_closed s).symm))
    · rw [hread, String.empty_append]

end PatchGroup

namespace Fragment

open PatchGroup (closed)

variable {f f' : Fragment}

/-- The texts that the combined file of a target is made of. -/
def inputs (t : FileTree) (dir : Path) (f : Fragment) (target : PatchTarget) : List String :=
  PatchGroup.inputs t dir (f.jsonPatches.filter (·.target.key = target.key))

theorem combined_of_run
    (hslash : ∀ p ∈ f.jsonPatches, '/' ∉ p.target.name.toList ∧ '/' ∉ p.target.kind.toList)
    (h : (f.aggregate dir).run t = .ok f' t') :
    Combined dir t t' f.jsonPatches f'.jsonPatches := by
  obtain ⟨groups, after, hcollect, hwrite, rfl⟩ := run_aggregate_eq_ok_iff.1 h
  have hstems := PatchGroup.slash_not_mem_stem_of_collect hcollect hslash
  obtain ⟨entries, hpatches, hcontributed, hgrouped⟩ := PatchGroup.grouped_of_collect hcollect
  rw [← hpatches]
  exact hgrouped.combined hcontributed (PatchGroup.written_of_writeAll hstems hwrite)

/-- A combined file holds what the files of its patches hold, unless a later one is written over
it. -/
theorem read_of_run {q : JsonPatch} {before after : List JsonPatch}
    (h : (f.aggregate dir).run t = .ok f' t') (hq : f'.jsonPatches = before ++ q :: after)
    (hplace : (∀ p ∈ f.jsonPatches, '/' ∉ p.target.name.toList ∧ '/' ∉ p.target.kind.toList) ∨
      ∀ p ∈ after, t.find (dir / .ofString p.path) ≠ t.find (dir / .ofString q.path)) :
    t'.read (dir / .ofString q.path) =
      .ok (String.join ((f.inputs t dir q.target).map closed)) := by
  obtain ⟨parts, hparts, hread⟩ : ∃ parts,
      List.Forall₂ (PatchGroup.Contributes t dir)
        (f.jsonPatches.filter (·.target.key = q.target.key)) parts ∧
      t'.read (dir / .ofString q.path) = .ok (String.join parts) := by
    rcases hplace with hslash | hplace
    · exact (combined_of_run hslash h).contents q (hq ▸ by simp)
    · obtain ⟨groups, patches, hcollect, hwrite, rfl⟩ := run_aggregate_eq_ok_iff.1 h
      obtain rfl : patches = before ++ q :: after := hq
      obtain ⟨entries, hpatches, hcontributed, hgrouped⟩ := PatchGroup.grouped_of_collect hcollect
      obtain ⟨g, hg, htarget, hread⟩ := PatchGroup.read_of_run_writeAll hwrite
        fun p hp loc hfind hother => hplace p hp (hother.trans hfind.symm)
      obtain ⟨parts, hparts, hcontents⟩ := hgrouped.exists_parts hcontributed hg
      rw [htarget, ← hpatches]
      exact ⟨parts, hparts, hread.trans (congrArg Except.ok hcontents)⟩
  rw [hread, PatchGroup.join_of_contributes hparts]
  rfl

/-- A combined file that no later one is written over says what the files of its patches say, one
after the other. -/
theorem aggregate_joins {q : JsonPatch} {before after : List JsonPatch} {v : List (List Value)}
    (h : (f.aggregate dir).run t = .ok f' t') (hq : f'.jsonPatches = before ++ q :: after)
    (hplace : (∀ p ∈ f.jsonPatches, '/' ∉ p.target.name.toList ∧ '/' ∉ p.target.kind.toList) ∨
      ∀ p ∈ after, t.find (dir / .ofString p.path) ≠ t.find (dir / .ofString q.path))
    (hvalues : List.Forall₂ (fun s vs => Value.parse s = .ok (.seq vs))
      ((f.inputs t dir q.target).map closed) v)
    (hjoin : Joinable ((f.inputs t dir q.target).map closed)) :
    ∃ s, t'.read (dir / .ofString q.path) = .ok s ∧ Value.parse s = .ok (.seq v.flatten) := by
  refine ⟨_, read_of_run h hq hplace, Yaml.parse_join hjoin hvalues fun s hs => ?_⟩
  obtain ⟨vs, -, hvs⟩ := exists_of_mem_forall₂ hvalues.flip hs
  obtain ⟨input, -, rfl⟩ := List.mem_map.1 hs
  refine PatchGroup.getLast?_closed fun hempty => ?_
  have hnull : Value.parse (closed input) = .ok .null := by
    rw [hempty]
    rfl
  exact absurd (hnull.symm.trans hvs) nofun

/-- Two patches of one target. -/
def twoPatches : Fragment :=
  { jsonPatches :=
    [{ target := { name := "w", kind := "K" }, path := "a" },
      { target := { name := "w", kind := "K" }, path := "b" }] }

/-- The files of two patches. -/
def twoFiles (a b : String) : FileTree :=
  ⟨[([.ofString "a"], .file (.text a)), ([.ofString "b"], .file (.text b))], [], []⟩

theorem tokenize_marked : Yaml.tokenize "---\n- x\n" = .ok [.documentStart, .blockSequenceStart,
    .blockEntry, .scalar .plain "x", .blockEnd, .streamEnd] := by decide +kernel

theorem tokenize_commented : Yaml.tokenize "# y\n- [y]\n" = .ok [.blockSequenceStart, .blockEntry,
    .flowSequenceStart, .scalar .plain "y", .flowSequenceEnd, .blockEnd, .streamEnd] := by
  decide +kernel

theorem extendable_marked : Yaml.Extendable [.documentStart] 0 "---\n- x\n" := by
  have hchars : Yaml.unifyBreaks "---\n- x\n".toList =
      ['-', '-', '-', '\n', '-', ' ', 'x', '\n'] := by decide +kernel
  refine Yaml.extendable_of_tokens ?_ tokenize_marked (by decide)
  rw [Yaml.ListFirst, hchars]
  exact ⟨_, _, .marked ⟨rfl, rfl, rfl⟩, ⟨rfl, rfl, rfl, rfl, rfl, rfl⟩⟩

theorem appendable_commented : Yaml.Appendable 0 "# y\n- [y]\n" := by
  have hchars : "# y\n- [y]\n".toList =
      ['#', ' ', 'y', '\n', '-', ' ', '[', 'y', ']', '\n'] := by decide +kernel
  refine ⟨Yaml.extendable_of_tokens ?_ tokenize_commented (by decide), ?_, ?_⟩
  · rw [Yaml.ListFirst, hchars]
    exact ⟨_, _, .bare, ⟨rfl, rfl, rfl, rfl, rfl, rfl⟩⟩
  · exact hchars ▸ ⟨0, '#', _, rfl, .inr rfl⟩
  · exact hchars ▸ Nat.le_refl 0

/-- The first list has a mark in front, and the second one does not end its line. -/
theorem aggregate_joins_of_marked_list :
    ∃ f' t', (∀ p ∈ twoPatches.jsonPatches,
        '/' ∉ p.target.name.toList ∧ '/' ∉ p.target.kind.toList) ∧
      (twoPatches.aggregate (.ofString ".")).run (twoFiles "---\n- x\n" "# y\n- [y]") =
        .ok f' t' ∧
      ∃ q ∈ f'.jsonPatches, ∃ s, t'.read (.ofString "." / .ofString q.path) = .ok s ∧
        Value.parse s = .ok (.seq [.string "x", .seq [.string "y"]]) := by
  have hclosed : (twoPatches.inputs (twoFiles "---\n- x\n" "# y\n- [y]") (.ofString ".")
      { name := "w", kind := "K" }).map closed = ["---\n- x\n", "# y\n- [y]\n"] := by
    decide +kernel
  have hmarked : Yaml.Holds "---\n- x\n" [.scalar {} .plain "x"] := ⟨_, tokenize_marked, rfl⟩
  have hcommented : Yaml.Holds "# y\n- [y]\n" [.seq {} [.scalar {} .plain "y"]] :=
    ⟨_, tokenize_commented, rfl⟩
  refine ⟨{ jsonPatches := [{ target := { name := "w", kind := "K" }, path := "w-K.yaml" }] },
    ⟨[([.ofString "a"], .file (.text "---\n- x\n")), ([.ofString "b"], .file (.text "# y\n- [y]")),
      ([.ofString "w-K.yaml"], .file (.text "---\n- x\n# y\n- [y]\n"))], [], []⟩,
    ?hslash, ?hrun, _, List.mem_cons_self,
    aggregate_joins (v := [[.string "x"], [.seq [.string "y"]]]) ?hrun (List.nil_append _).symm
      (.inl ?hslash) ?hvalues ?hjoin⟩
  case hslash => decide
  case hrun => exact Files.run_eq_ok_iff.2 (by decide +kernel)
  case hvalues =>
    rw [hclosed]
    exact .cons (hmarked.parse_eq_ok_iff.2 ⟨_, _, rfl, rfl, rfl⟩)
      (.cons (hcommented.parse_eq_ok_iff.2 ⟨_, _, rfl, rfl, rfl⟩) .nil)
  case hjoin =>
    rw [hclosed]
    exact .below extendable_marked (List.forall_mem_singleton.2 appendable_commented)
      (.cons hmarked (.cons hcommented .nil)) (Yaml.linkable_of_unaliased (by decide))

/-! ## Lists that do not go together -/

/-- Two lists in files of one group are combined, and the result is not the list of both. -/
def Misjoined (a b : String) : Prop :=
  ∃ f' t' s xs ys, (twoPatches.aggregate (.ofString ".")).run (twoFiles a b) = .ok f' t' ∧
    f'.jsonPatches.map (·.path) = ["w-K.yaml"] ∧
    Value.parse a = .ok (.seq xs) ∧ Value.parse b = .ok (.seq ys) ∧
    t'.read (.ofString "." / .ofString "w-K.yaml") = .ok s ∧ Value.parse s ≠ .ok (.seq (xs ++ ys))

theorem misjoined_of_parse {a b s : String} {x y : List Value}
    (h : (twoPatches.aggregate (.ofString ".")).answer (twoFiles a b) =
        .ok { jsonPatches := [{ target := { name := "w", kind := "K" }, path := "w-K.yaml" }] } ∧
      ((twoPatches.aggregate (.ofString ".")).after (twoFiles a b)).read
        (.ofString "." / .ofString "w-K.yaml") = .ok s ∧
      Value.parse a = .ok (.seq x) ∧ Value.parse b = .ok (.seq y) ∧
      Value.parse s ≠ .ok (.seq (x ++ y))) : Misjoined a b :=
  ⟨_, _, s, x, y, Files.run_eq_ok_iff.2 ⟨h.1, rfl⟩, rfl, h.2.2.1, h.2.2.2.1, h.2.1, h.2.2.2.2⟩

/-- Two patches of targets whose combined files are one, because a name has a slash in it. -/
def slashedPatches : Fragment :=
  { jsonPatches :=
    [{ target := { name := "w", kind := "K" }, path := "a" },
      { target := { name := "./w", kind := "K" }, path := "b" }] }

/-- Lists in brackets, in different columns, behind a mark, behind an empty line, behind a comment
that stands further right, without an end of their line, and with aliases; and a combined file that
is written over another. -/
theorem aggregate_misjoins :
    Misjoined "[x]\n" "[y]\n" ∧ Misjoined "- x\n" "  - y\n" ∧ Misjoined "- x\n" "---\n- y\n" ∧
      Misjoined "- |+\n  x\n" "\n- y\n" ∧ Misjoined "- |\n x\n" " # y\n- y\n" ∧
      Misjoined "- |\n  x" "- y\n" ∧ Misjoined "- &k 1\n- &k 2\n- *k\n" "- &l 3\n" ∧
      ∃ f' t', (slashedPatches.aggregate (.ofString ".")).run (twoFiles "- x\n" "- y\n") =
          .ok f' t' ∧
        f'.jsonPatches.map (·.path) = ["w-K.yaml", "./w-K.yaml"] ∧
        t'.read (.ofString "." / .ofString "w-K.yaml") = .ok "- y\n" ∧
        Value.parse "- x\n" = .ok (.seq [.string "x"]) ∧
        Value.parse "- y\n" = .ok (.seq [.string "y"]) := by
  refine ⟨?bracketed, ?indented, ?marked, ?spaced, ?commented, ?unended, ?aliased, ?slashed⟩
  case bracketed =>
    exact misjoined_of_parse (s := "[x]\n[y]\n") (x := [.string "x"]) (y := [.string "y"])
      (by decide +kernel)
  case indented =>
    exact misjoined_of_parse (s := "- x\n  - y\n") (x := [.string "x"]) (y := [.string "y"])
      (by decide +kernel)
  case marked =>
    exact misjoined_of_parse (s := "- x\n---\n- y\n") (x := [.string "x"]) (y := [.string "y"])
      (by decide +kernel)
  case spaced =>
    exact misjoined_of_parse (s := "- |+\n  x\n\n- y\n") (x := [.string "x\n"])
      (y := [.string "y"]) (by decide +kernel)
  case commented =>
    exact misjoined_of_parse (s := "- |\n x\n # y\n- y\n") (x := [.string "x\n"])
      (y := [.string "y"]) (by decide +kernel)
  case unended =>
    exact misjoined_of_parse (s := "- |\n  x\n- y\n") (x := [.string "x"]) (y := [.string "y"])
      (by decide +kernel)
  case aliased =>
    exact misjoined_of_parse (s := "- &k 1\n- &k 2\n- *k\n- &l 3\n")
      (x := [.int 1, .int 2, .int 2]) (y := [.int 3]) (by decide +kernel)
  case slashed =>
    suffices h : _ ∧ _ ∧ _ ∧ _ from
      ⟨{ jsonPatches :=
          [{ target := { name := "w", kind := "K" }, path := "w-K.yaml" },
            { target := { name := "./w", kind := "K" }, path := "./w-K.yaml" }] },
        _, Files.run_eq_ok_iff.2 ⟨h.1, rfl⟩, rfl, h.2⟩
    decide +kernel

end Fragment
end LayeredConfig
