/-
The normal form of a path.

Some parts of a path can be left out because together they lead nowhere: a `.`, a name with a step
back up right after it, and a step up from the root (`LeavesOut`). Leaving out one after the other
does not change where a walk along the parts ends (`walk_of_leavesOut`), and the walk itself is one
way to do so (`walk_leavesOut`). So whatever is left out first, what remains in the end is the
location of the path (`eq_location_iff`).

From there the rest is about the shape of a location, which is the root or some steps up, and names
after it. A location is the location of the path that it spells, so a join may take the normal form
of its left side instead of the path itself (`normalize_join`).
-/
import Mathlib.Data.Set.List
import Mathlib.Logic.Relation
import LayeredConfig.Proofs.Path.Location

namespace LayeredConfig
namespace Path

open Relation (ReflTransGen)

/-! ## Leaving out what leads nowhere -/

/-- The second list is the first one without parts that together lead nowhere. -/
inductive LeavesOut : List Part → List Part → Prop
  | here (before after : List Part) : LeavesOut (before ++ .here :: after) (before ++ after)
  | back (before : List Part) (n : Name) (after : List Part) :
    LeavesOut (before ++ .name n :: .up :: after) (before ++ after)
  | atRoot (before after : List Part) :
    LeavesOut (before ++ .root :: .up :: after) (before ++ .root :: after)

theorem walk_of_leavesOut {ps qs : List Part} (h : LeavesOut ps qs) (walked : List Part) :
    ps.foldl step walked = qs.foldl step walked := by
  cases h with
  | here before after =>
    rw [List.foldl_append, List.foldl_append]
    rfl
  | back before n after =>
    rw [List.foldl_append, List.foldl_append]
    rfl
  | atRoot before after =>
    rw [List.foldl_append, List.foldl_append]
    rfl

theorem walk_of_leavesOut_all {ps qs : List Part} (h : ReflTransGen LeavesOut ps qs)
    (walked : List Part) : ps.foldl step walked = qs.foldl step walked := by
  induction h with
  | refl => rfl
  | tail _ hlast ih => exact ih.trans (walk_of_leavesOut hlast walked)

/-- One step of a walk puts the next part after those before it, or leaves something out. -/
theorem step_leavesOut (walked : List Part) (part : Part) (after : List Part) :
    (step walked part).reverse ++ after = walked.reverse ++ part :: after ∨
      LeavesOut (walked.reverse ++ part :: after) ((step walked part).reverse ++ after) := by
  have hput : (part :: walked).reverse ++ after = walked.reverse ++ part :: after := by simp
  cases part with
  | root => exact .inl hput
  | here => exact .inr (.here walked.reverse after)
  | name n => exact .inl hput
  | up =>
    cases walked with
    | nil => exact .inl hput
    | cons top rest =>
      have hsplit : (top :: rest).reverse ++ Part.up :: after =
          rest.reverse ++ top :: .up :: after := by simp
      cases top with
      | here => exact .inl hput
      | up => exact .inl hput
      | name n =>
        rw [hsplit]
        exact .inr (.back rest.reverse n after)
      | root =>
        have hstay : (step (.root :: rest) .up).reverse ++ after =
            rest.reverse ++ .root :: after := by simp [step]
        rw [hsplit, hstay]
        exact .inr (.atRoot rest.reverse after)

theorem walk_leavesOut (ps walked : List Part) :
    ReflTransGen LeavesOut (walked.reverse ++ ps) (ps.foldl step walked).reverse := by
  induction ps generalizing walked with
  | nil =>
    rw [List.append_nil]
    exact .refl
  | cons part ps ih =>
    rcases step_leavesOut walked part ps with heq | hone
    · rw [← heq]
      exact ih (step walked part)
    · exact .head hone (ih (step walked part))

/-- In a location every part leads somewhere. -/
theorem IsLocation.not_leavesOut {loc qs : List Part} (h : IsLocation loc) :
    ¬ LeavesOut loc qs := by
  have hup {before after : List Part} {part : Part}
      (hloc : IsLocation (before ++ part :: .up :: after)) : part = .up := by
    have hfront : (before ++ [part] ++ [Part.up]).Sublist (before ++ part :: .up :: after) := by
      simp
    exact (hloc.sublist hfront).eq_up_of_concat part (by simp)
  intro hout
  cases hout with
  | here before after => exact h.lasting .here (by simp)
  | back before n after => exact absurd (hup h) (by simp)
  | atRoot before after => exact absurd (hup h) (by simp)

/-- However the parts of a path are left out, only the location is without any that can be. -/
theorem eq_location_iff {p : Path} {ps : List Part} :
    ps = p.location ↔ ReflTransGen LeavesOut p.parts ps ∧ ∀ qs, ¬ LeavesOut ps qs := by
  constructor
  · rintro rfl
    exact ⟨walk_leavesOut p.parts [], fun _ => (isLocation_location p).not_leavesOut⟩
  · intro ⟨hreach, hend⟩
    have hself : ps = (ps.foldl step []).reverse := by
      rcases (walk_leavesOut ps []).cases_head with heq | ⟨qs, hout, -⟩
      · exact heq
      · exact absurd hout (hend qs)
    rw [hself, location, walk_of_leavesOut_all hreach]

/-! ## The shape of a location -/

theorem IsLocation.eq_names {part : Part} {rest : List Part} (h : IsLocation (part :: rest))
    (hne : part ≠ .up) : ∃ names : List Name, rest = names.map .name := by
  have hrange : rest ∈ Set.range (List.map Part.name) := by
    rw [Set.range_list_map]
    intro q hq
    obtain ⟨n, hn⟩ := @IsLocation.exists_name [part] rest h part List.mem_cons_self hne q hq
    exact ⟨n, hn.symm⟩
  obtain ⟨names, hnames⟩ := hrange
  exact ⟨names, hnames.symm⟩

theorem IsLocation.shape {loc : List Part} (h : IsLocation loc) :
    (∃ names : List Name, loc = .root :: names.map .name) ∨
      ∃ ups, ∃ names : List Name, loc = List.replicate ups .up ++ names.map .name := by
  induction loc with
  | nil => exact .inr ⟨0, [], rfl⟩
  | cons part rest ih =>
    cases part with
    | here => exact absurd rfl (Part.ne_here_of_lasting (h.lasting .here List.mem_cons_self))
    | root =>
      obtain ⟨names, rfl⟩ := h.eq_names (by simp)
      exact .inl ⟨names, rfl⟩
    | name n =>
      obtain ⟨names, rfl⟩ := h.eq_names (by simp)
      exact .inr ⟨0, n :: names, rfl⟩
    | up =>
      rcases ih (h.sublist (List.sublist_cons_self .up rest)) with ⟨names, rfl⟩ | ⟨ups, names, rfl⟩
      · exact absurd rfl (h.ne_root_of_tail .root List.mem_cons_self)
      · exact .inr ⟨ups + 1, names, rfl⟩

/-- No step takes the root away. -/
theorem root_mem_step {walked : List Part} (h : .root ∈ walked) (part : Part) :
    .root ∈ step walked part := by
  cases part with
  | root => exact List.mem_cons_of_mem _ h
  | here => exact h
  | name n => exact List.mem_cons_of_mem _ h
  | up =>
    cases walked with
    | nil => exact absurd h List.not_mem_nil
    | cons top rest =>
      cases top with
      | root => exact h
      | here => exact List.mem_cons_of_mem _ h
      | up => exact List.mem_cons_of_mem _ h
      | name n =>
        rcases List.mem_cons.1 h with heq | hrest
        · exact absurd heq (by simp)
        · exact hrest

theorem root_mem_walk {walked : List Part} (h : .root ∈ walked) (ps : List Part) :
    .root ∈ ps.foldl step walked := by
  induction ps generalizing walked with
  | nil => exact h
  | cons part ps ih => exact ih (root_mem_step h part)

theorem root_mem_location {p : Path} : .root ∈ p.location ↔ p.isAbsolute = true := by
  constructor
  · intro h
    exact root_mem_solid.1 (mem_solid_of_mem_location h)
  · intro habs
    rw [location_eq_walk, List.mem_reverse, solid_eq, if_pos habs, List.foldl_append]
    exact root_mem_walk List.mem_cons_self _

theorem exists_location_eq (p : Path) : ∃ ups, ∃ names : List Name,
    p.location = (if p.isAbsolute then [.root] else List.replicate ups .up) ++
      names.map .name := by
  rcases (isLocation_location p).shape with ⟨names, hloc⟩ | ⟨ups, names, hloc⟩
  · have habs : p.isAbsolute = true := root_mem_location.1 (hloc ▸ List.mem_cons_self)
    exact ⟨0, names, by rw [hloc, if_pos habs, List.singleton_append]⟩
  · have hrel : ¬ p.isAbsolute = true := by
      rw [← root_mem_location, hloc]
      simp
    exact ⟨ups, names, by rw [hloc, if_neg hrel]⟩

/-! ## The normal form -/

theorem location_normalize (p : Path) : p.normalize.location = p.location := by
  rw [location, parts_normalize, walk_nil_of_isLocation (isLocation_location p),
    List.reverse_reverse]

theorem isAbsolute_normalize (p : Path) : p.normalize.isAbsolute = p.isAbsolute := by
  rw [Bool.eq_iff_iff, ← root_mem_location, ← root_mem_location, location_normalize]

theorem location_join_congr {p p' : Path} (h : p.location = p'.location) (q : Path) :
    (p / q).location = (p' / q).location := by
  by_cases habs : q.isAbsolute = true
  · rw [join_of_isAbsolute habs, join_of_isAbsolute habs]
  · have hrel : q.isAbsolute = false := by simpa using habs
    rw [location_join hrel, location_join hrel, h]

/-- A normal form has no `.`, it has steps up only at its start and only if the path is relative,
and it is the normal form of itself. Its parts are all that is left of the parts of the path once
no more can be left out. Joining does not see whether a path is in its normal form. -/
theorem normalize_canonical :
    (∀ p : Path,
      .here ∉ p.normalize.parts ∧
      p.normalize.isAbsolute = p.isAbsolute ∧
      (∃ ups, ∃ names : List Name, p.normalize.parts =
        (if p.isAbsolute then [.root] else List.replicate ups .up) ++ names.map .name) ∧
      (∀ ps, ps = p.normalize.parts ↔
        ReflTransGen LeavesOut p.parts ps ∧ ∀ qs, ¬ LeavesOut ps qs) ∧
      p.normalize.normalize = p.normalize) ∧
    ∀ a b : Path, (a / b).normalize = (a.normalize / b).normalize := by
  refine ⟨fun p => ⟨?_, isAbsolute_normalize p, ?_, fun ps => ?_, ?_⟩, fun a b => ?_⟩
  · rw [parts_normalize]
    intro hmem
    exact Part.ne_here_of_lasting ((isLocation_location p).lasting .here hmem) rfl
  · rw [parts_normalize]
    exact exists_location_eq p
  · rw [parts_normalize]
    exact eq_location_iff
  · exact normalize_eq_iff.2 (location_normalize p)
  · exact normalize_eq_iff.2 (location_join_congr (location_normalize a).symm b)

example : (ofString "../a/../.././/b/.").normalize = ofString "../../b" := by rfl

end Path
end LayeredConfig
