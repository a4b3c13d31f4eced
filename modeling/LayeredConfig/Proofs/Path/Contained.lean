/-
Which rebased paths stay below the root.

A location below a root that ends in a name, or is the root of the file system, can only go down
from there. A root that is nowhere or only some steps up is different: every relative location
starts with it, also those that go further up, and a value that leaves such a root is not refused.
`Anchored` tells the two apart, and `contained_iff_inside` says of a single value what it decides.
-/
import LayeredConfig.Proofs.Path.Rebase

namespace LayeredConfig
namespace Path

/-- A relative path that never goes up. -/
def Contained (p : Path) : Prop := p.isAbsolute = false ∧ .up ∉ p.parts

/-- A root with something in its location that no step up can take away. -/
def Anchored (root : Path) : Prop := ∃ part ∈ root.location, part ≠ .up

/-- The path leads to the root or goes down from there. -/
def Inside (root p : Path) : Prop :=
  ∃ rest, (∀ part ∈ rest, ∃ n, part = .name n) ∧ p.location = root.location ++ rest

/-! ## What is left of a location -/

theorem eq_up_of_not_anchored {root : Path} (h : ¬ root.Anchored) :
    ∀ part ∈ root.location, part = .up := by
  intro part hpart
  by_contra hne
  exact h ⟨part, hpart, hne⟩

theorem contained_of_relativeText? {rest : List Part} {r : String} (h : IsLocation rest)
    (ht : relativeText? rest = some r) :
    (ofString r).Contained ↔ ∀ part ∈ rest, ∃ n, part = .name n := by
  have hsolid : (ofString r).solid = rest := solid_of_relativeText? h ht
  have hup : .up ∈ (ofString r).parts ↔ .up ∈ rest := by
    rw [mem_parts_iff (by simp), hsolid]
  have hroot : (ofString r).isAbsolute = true ↔ .root ∈ rest := by
    rw [← root_mem_solid, hsolid]
  constructor
  · intro ⟨habs, hno⟩ part hpart
    cases part with
    | root =>
      rw [hroot.2 hpart] at habs
      exact absurd habs (by simp)
    | here => exact absurd rfl (Part.ne_here_of_lasting (h.lasting .here hpart))
    | up => exact absurd (hup.2 hpart) hno
    | name n => exact ⟨n, rfl⟩
  · intro hnames
    constructor
    · rw [Bool.eq_false_iff]
      intro habs
      obtain ⟨n, hn⟩ := hnames .root (hroot.1 habs)
      exact absurd hn (by simp)
    · intro hmem
      obtain ⟨n, hn⟩ := hnames .up (hup.1 hmem)
      exact absurd hn (by simp)

/-- A piece that does not go up, and names after it. -/
theorem contained_of_units {p : Path} {y : Name} {after : List Part}
    (hp : p.units = y ++ (after.map Part.spelling).flatMap (slash :: ·)) (hne : y ≠ [])
    (hup : y ≠ dotDot) (hslash : slash ∉ y)
    (hafter : ∀ part ∈ after, part.Lasting ∧ ∃ n, part = .name n) : p.Contained := by
  have habs : p.isAbsolute = false := by
    obtain ⟨u, us, rfl⟩ := List.exists_cons_of_ne_nil hne
    have hu : u ≠ slash := fun e => hslash (e ▸ List.mem_cons_self)
    simp [isAbsolute, hp, hu]
  have hy : .up ∉ solidPieces y := by
    intro hmem
    obtain ⟨n, hn, hpart⟩ := List.mem_filterMap.1 (List.mem_filter.1 hmem).1
    have hpieces : pieces y = [y] := by
      have hbetween := pieces_between (List.cons_ne_nil y []) (by simpa using hslash)
      rwa [List.intercalate_singleton] at hbetween
    rw [hpieces, List.mem_singleton] at hn
    rw [hn] at hpart
    exact hup (Part.spelling_of_ofPiece hpart).symm
  refine ⟨habs, fun hmem => ?_⟩
  rw [mem_parts_iff (by simp), solid_eq, habs, if_neg (by simp), List.nil_append, hp] at hmem
  cases after with
  | nil =>
    simp only [List.map_nil, List.flatMap_nil, List.append_nil] at hmem
    exact hy hmem
  | cons part after =>
    have htail : ((part :: after).map Part.spelling).flatMap (slash :: ·) =
        slash :: [slash].intercalate ((part :: after).map Part.spelling) := by
      rw [List.map_cons, ← List.nil_append (part.spelling :: _), intercalate_append_cons]
      rfl
    have hlasting : ∀ q ∈ part :: after, q.Lasting ∧ q ≠ .root := by
      intro q hq
      obtain ⟨hlast, n, rfl⟩ := hafter q hq
      exact ⟨hlast, by simp⟩
    rw [htail, solidPieces_append, solidPieces_between hlasting] at hmem
    rcases List.mem_append.1 hmem with hmem | hmem
    · exact hy hmem
    · obtain ⟨-, n, hn⟩ := hafter .up hmem
      exact absurd hn (by simp)

/-! ## One value -/

/-- A rebased value is a contained path exactly if it leads inside. -/
theorem contained_iff_inside {root dir : Path} {value r : String}
    (h : root.rebase dir value = .ok r) :
    (ofString r).Contained ↔ Inside root (dir / ofString value) := by
  obtain ⟨rest, hrest, ht⟩ := rebase_eq_ok_iff.1 h
  have hloc : IsLocation (root.location ++ rest) := hrest ▸ isLocation_location _
  rw [contained_of_relativeText? hloc.append ht]
  constructor
  · intro hnames
    exact ⟨rest, hnames, hrest.symm⟩
  · intro ⟨rest', hnames, hrest'⟩
    rw [List.append_cancel_left (hrest.trans hrest')]
    exact hnames

theorem inside_of_isPrefix {root p : Path} (ha : root.Anchored)
    (h : root.location <+: p.location) : Inside root p := by
  obtain ⟨part, hpart, hne⟩ := ha
  obtain ⟨rest, hrest⟩ := h
  have hloc : IsLocation (root.location ++ rest) := hrest ▸ isLocation_location p
  refine ⟨rest, fun b hb => ?_, hrest.symm⟩
  exact hloc.exists_name hpart hne hb

theorem isPrefix_of_inside {root p : Path} (h : Inside root p) : root.location <+: p.location := by
  obtain ⟨rest, -, hrest⟩ := h
  exact ⟨rest, hrest.symm⟩

theorem contained_of_anchored {root dir : Path} {value r : String} (ha : root.Anchored)
    (h : root.rebase dir value = .ok r) : (ofString r).Contained := by
  obtain ⟨rest, hrest, -⟩ := rebase_eq_ok_iff.1 h
  exact (contained_iff_inside h).2 (inside_of_isPrefix ha ⟨rest, hrest⟩)

/-- From a root that is not anchored, going up is not refused. -/
theorem rebase_dotDot {root : Path} (h : ¬ root.Anchored) : root.rebase root ".." = .ok ".." := by
  have hups : ∀ part ∈ root.location.reverse, part = .up := by
    intro part hpart
    exact eq_up_of_not_anchored h part (List.mem_reverse.1 hpart)
  have hstep : step root.location.reverse .up = .up :: root.location.reverse := by
    cases hr : root.location.reverse with
    | nil => rfl
    | cons top tail =>
      rw [hr] at hups
      rw [hups top List.mem_cons_self]
      rfl
  refine rebase_eq_ok_iff.2 ⟨[.up], ?_, rfl⟩
  have hsolid : (ofString "..").solid = [.up] := rfl
  rw [location_join rfl, hsolid, List.foldl_cons, List.foldl_nil, hstep, List.reverse_cons,
    List.reverse_reverse]

theorem not_contained_dotDot : ¬ (ofString "..").Contained := by
  intro h
  exact h.2 (by decide)

/-- Whether the root is anchored decides whether all that is rebased is contained, and whether all
that is outside is refused. -/
theorem anchored_iff_contained {root : Path} :
    root.Anchored ↔ ∀ dir value r, root.rebase dir value = .ok r → (ofString r).Contained := by
  constructor
  · intro ha dir value r h
    exact contained_of_anchored ha h
  · intro h
    by_contra hn
    exact not_contained_dotDot (h root ".." ".." (rebase_dotDot hn))

theorem anchored_iff_refuses {root : Path} :
    root.Anchored ↔ ∀ dir value,
      root.rebase dir value =
          .error (.outsideRoot (dir / ofString value).normalize root.normalize) ↔
        ¬ Inside root (dir / ofString value) := by
  constructor
  · intro ha dir value
    rw [rebase_eq_outsideRoot_iff]
    constructor
    · intro ⟨_, _, hout⟩ hinside
      exact hout (isPrefix_of_inside hinside)
    · intro hout
      exact ⟨rfl, rfl, fun hp => hout (inside_of_isPrefix ha hp)⟩
  · intro h
    by_contra hn
    have hok := rebase_dotDot hn
    have hout : ¬ Inside root (root / ofString "..") := by
      rw [← contained_iff_inside hok]
      exact not_contained_dotDot
    rw [(h root "..").2 hout] at hok
    exact absurd hok (by simp)

end Path
end LayeredConfig
