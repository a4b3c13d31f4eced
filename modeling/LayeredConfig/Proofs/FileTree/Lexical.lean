/-
Where a path leads is known without walking it.

There are no links, so a walk that gets to its end gets where the location of the path says
(`FileTree.find_eq_follow`). A path below another one therefore leads below where the other leads,
whatever directories it passes on its way.
-/
import LayeredConfig.Proofs.FileTree.Access
import LayeredConfig.Proofs.Path.Contained

namespace LayeredConfig

namespace Path

/-! ## Below a path -/

/-- The path goes down from the root, by at least one name. -/
def Below (root p : Path) : Prop :=
  ∃ names : List Name, names ≠ [] ∧ p.location = root.location ++ names.map .name

theorem inside_refl (p : Path) : p.Inside p := ⟨[], by simp, by simp⟩

theorem location_join_name (p : Path) {n : Name} (hn : (Part.name n).Lasting) :
    (p / ⟨n⟩).location = p.location ++ [.name n] := by
  have hsolid : solid ⟨n⟩ = [.name n] := by rw [solid, parts_name hn]; rfl
  rw [location_join (isAbsolute_name hn), hsolid]
  show (Part.name n :: p.location.reverse).reverse = _
  rw [List.reverse_cons, List.reverse_reverse]

theorem Inside.join_name {root p : Path} (h : root.Inside p) {n : Name}
    (hn : (Part.name n).Lasting) : root.Inside (p / ⟨n⟩) := by
  obtain ⟨rest, hrest, hloc⟩ := h
  refine ⟨rest ++ [.name n], fun part hpart => ?_, ?_⟩
  · rcases List.mem_append.1 hpart with hpart | hpart
    · exact hrest part hpart
    · exact ⟨n, List.mem_singleton.1 hpart⟩
  · rw [location_join_name p hn, hloc, List.append_assoc]

theorem exists_names {parts : List Part} (h : ∀ part ∈ parts, ∃ n, part = .name n) :
    ∃ names : List Name, parts = names.map .name := by
  induction parts with
  | nil => exact ⟨[], rfl⟩
  | cons part parts ih =>
    obtain ⟨n, rfl⟩ := h part List.mem_cons_self
    obtain ⟨names, rfl⟩ := ih fun q hq => h q (List.mem_cons_of_mem _ hq)
    exact ⟨n :: names, rfl⟩

theorem Below.of_inside {root p : Path} (h : root.Inside p) {n : Name}
    (hn : (Part.name n).Lasting) : root.Below (p / ⟨n⟩) := by
  obtain ⟨rest, hrest, hloc⟩ := h
  obtain ⟨names, rfl⟩ := exists_names hrest
  refine ⟨names ++ [n], by simp, ?_⟩
  rw [location_join_name p hn, hloc, List.append_assoc, List.map_append]
  rfl

/-! ## Following the parts -/

/-- Where a part leads, if nothing is in the way. -/
def Part.follow (loc : Location) : Part → Location
  | .root => []
  | .here => loc
  | .up => loc.dropLast
  | .name n => loc ++ [n]

theorem foldl_follow_names (loc : Location) (names : List Name) :
    (names.map Part.name).foldl Part.follow loc = loc ++ names := by
  induction names generalizing loc with
  | nil => exact (List.append_nil loc).symm
  | cons n names ih =>
    show (names.map Part.name).foldl Part.follow (loc ++ [n]) = _
    rw [ih, List.append_assoc, List.singleton_append]

/-- A step of a walk that has got to `walked` leads on from there. -/
theorem foldl_follow_step (home : Location) (walked : List Part) (part : Part) :
    (step walked part).reverse.foldl Part.follow home =
      Part.follow (walked.reverse.foldl Part.follow home) part := by
  have hcons (part : Part) : (part :: walked).reverse.foldl Part.follow home =
      Part.follow (walked.reverse.foldl Part.follow home) part := by
    rw [List.reverse_cons, List.foldl_append]
    rfl
  cases part with
  | here => rfl
  | root => exact hcons .root
  | name n => exact hcons (.name n)
  | up =>
    cases walked with
    | nil => exact hcons .up
    | cons last rest =>
      cases last with
      | here => exact hcons .up
      | up => exact hcons .up
      | root =>
        show (Part.root :: rest).reverse.foldl Part.follow home = _
        rw [List.reverse_cons, List.foldl_append]
        rfl
      | name n =>
        show rest.reverse.foldl Part.follow home = _
        rw [List.reverse_cons, List.foldl_append]
        exact List.dropLast_concat.symm

theorem foldl_follow_location (home : Location) (p : Path) :
    p.location.foldl Part.follow home = p.parts.foldl Part.follow home := by
  have hwalk (parts walked : List Part) : (parts.foldl step walked).reverse.foldl Part.follow home =
      parts.foldl Part.follow (walked.reverse.foldl Part.follow home) := by
    induction parts generalizing walked with
    | nil => rfl
    | cons part parts ih => rw [List.foldl_cons, List.foldl_cons, ih, foldl_follow_step]
  exact hwalk p.parts []

end Path

namespace FileTree

variable {t : FileTree} {p q : Path} {loc : Location}

theorem follow_of_step {part : Path.Part} {next : Location} (h : t.step loc part = .ok next) :
    next = Path.Part.follow loc part := by
  cases part with
  | root => exact (Except.ok.inj h).symm
  | here =>
    simp only [step, directory_of_step (by simp) h] at h
    exact (Except.ok.inj h).symm
  | up =>
    simp only [step, directory_of_step (by simp) h] at h
    exact (Except.ok.inj h).symm
  | name n =>
    simp only [step, directory_of_step (by simp) h] at h
    by_cases hn : n.size > nameLimit
    · rw [if_pos hn] at h
      exact absurd h (by simp)
    · rw [if_neg hn] at h
      exact (Except.ok.inj h).symm

theorem steps_eq_follow {parts : List Path.Part} {start : Location}
    (h : parts.foldlM t.step start = .ok loc) : loc = parts.foldl Path.Part.follow start := by
  induction parts generalizing start with
  | nil => exact (Except.ok.inj h).symm
  | cons part parts ih =>
    rw [List.foldlM_cons] at h
    obtain ⟨next, hnext, hrest⟩ := bind_eq_ok_iff.1 h
    rw [List.foldl_cons, ← follow_of_step hnext]
    exact ih hrest

theorem find_eq_follow (h : t.find p = .ok loc) :
    loc = p.location.foldl Path.Part.follow t.home := by
  rw [Path.foldl_follow_location]
  exact steps_eq_follow (walk_of_find h)

/-- A path below another leads below where the other leads. -/
theorem exists_find_eq_of_below (hpq : p.Below q) (h : t.find q = .ok loc) :
    ∃ names, names ≠ [] ∧ loc = p.location.foldl Path.Part.follow t.home ++ names := by
  obtain ⟨names, hne, hloc⟩ := hpq
  refine ⟨names, hne, ?_⟩
  rw [find_eq_follow h, hloc, List.foldl_append, Path.foldl_follow_names]

end FileTree
end LayeredConfig
