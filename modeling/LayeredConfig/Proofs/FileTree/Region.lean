/-
Trees that agree within a directory.

A path that goes down from a directory is read in the same way in two trees that agree there
(`AgreeWithin.read_eq`), whatever they hold elsewhere. If the same is then written into both, they
still agree (`AgreeWithin.of_alike`).
-/
import LayeredConfig.Proofs.FileTree.Change
import LayeredConfig.Proofs.FileTree.Lexical

namespace LayeredConfig

/-! ## Paths that go down -/

namespace Path

/-- The parts of the path are those of the root and some names after them. -/
def Under (root p : Path) : Prop := ∃ names : List Name, p.parts = root.parts ++ names.map .name

theorem under_refl (p : Path) : p.Under p := ⟨[], by simp⟩

theorem Under.join_name {root p : Path} (h : root.Under p) {n : Name}
    (hn : (Part.name n).Lasting) : root.Under (p / ⟨n⟩) := by
  obtain ⟨names, hparts⟩ := h
  refine ⟨names ++ [n], ?_⟩
  rw [parts_join_name p hn, hparts, List.append_assoc, List.map_append]
  rfl

theorem under_join_contained {root q : Path} (hroot : root.units ≠ []) (hq : q.Contained) :
    root.Under (root / q) := by
  obtain ⟨habs, hup⟩ := hq
  have hnames : ∀ part ∈ q.solid, ∃ n, part = .name n := by
    intro part hpart
    cases part with
    | name n => exact ⟨n, rfl⟩
    | root => exact absurd (root_mem_solid.1 hpart) (by simp [habs])
    | up => exact absurd ((mem_parts_iff (by simp)).2 hpart) hup
    | here => exact absurd (List.mem_filter.1 hpart).2 (by simp)
  obtain ⟨names, hsolid⟩ := exists_names hnames
  exact ⟨names, by rw [parts_join hroot habs, hsolid]⟩

end Path

namespace FileTree

variable {t t' u u' : FileTree} {root p : Path} {loc base : Location}

/-- A place in the directory that the path leads to, or the directory itself. -/
def Within (t : FileTree) (root : Path) (loc : Location) : Prop :=
  ∃ base, t.walk root.parts = .ok base ∧ base <+: loc

theorem SameDirectories.within_iff (h : t.SameDirectories u) :
    u.Within root loc ↔ t.Within root loc := by
  unfold Within
  simp only [h.walk_eq_ok_iff]

theorem within_of_find (hp : root.Under p) (h : t.find p = .ok loc) : t.Within root loc := by
  obtain ⟨names, hparts⟩ := hp
  have hwalk := walk_of_find h
  rw [walk, hparts, List.foldlM_append] at hwalk
  obtain ⟨base, hbase, hnames⟩ := bind_eq_ok_iff.1 hwalk
  refine ⟨base, hbase, names, ?_⟩
  rw [← Path.foldl_follow_names]
  exact (steps_eq_follow hnames).symm

/-- Two directories with different names beside each other have nothing in common. -/
theorem not_within_of_within {n m : Name} (hn : (Path.Part.name n).Lasting)
    (hm : (Path.Part.name m).Lasting) (hne : n ≠ m) (h : t.Within (p / ⟨n⟩) loc) :
    ¬ t.Within (p / ⟨m⟩) loc := by
  obtain ⟨_, hwalk, rest, hrest⟩ := h
  rintro ⟨_, hwalk', rest', hrest'⟩
  obtain ⟨base, hbase, -, rfl⟩ := walk_join_name hn hwalk
  obtain ⟨base', hbase', -, rfl⟩ := walk_join_name hm hwalk'
  obtain rfl : base = base' := Except.ok.inj (hbase.symm.trans hbase')
  rw [← hrest', List.append_assoc, List.append_assoc] at hrest
  have hcons := List.append_cancel_left hrest
  exact hne (List.cons.inj hcons).1

/-! ## Agreement -/

/-- The trees have the same directories, and the same in one of them. -/
structure AgreeWithin (root : Path) (t u : FileTree) : Prop where
  directories : t.SameDirectories u
  entry : ∀ loc, t.Within root loc → u.get? loc = t.get? loc

namespace AgreeWithin

theorem symm (h : AgreeWithin root t u) : AgreeWithin root u t :=
  ⟨h.directories.symm, fun loc hloc => (h.entry loc (h.directories.within_iff.1 hloc)).symm⟩

theorem of_alike (h : AgreeWithin root t u) (ha : Alike Eq t t' u u') : AgreeWithin root t' u' := by
  refine ⟨ha.directories, fun loc hloc => ha.get?_eq fun _ _ => ?_⟩
  exact h.entry loc (ha.kept.within_iff.1 hloc)

theorem find_eq (h : AgreeWithin root t u) (hroot : t.walk root.parts = .ok base)
    (hp : root.Under p) : u.find p = t.find p := by
  obtain ⟨names, hparts⟩ := hp
  have hsteps (names : List Name) (start : Location) (hstart : base <+: start) :
      (names.map Path.Part.name).foldlM u.step start =
        (names.map Path.Part.name).foldlM t.step start := by
    induction names generalizing start with
    | nil => rfl
    | cons n names ih =>
      have hstep : u.step start (.name n) = t.step start (.name n) := by
        simp only [step, h.entry start ⟨base, hroot, hstart⟩]
      rw [List.map_cons, List.foldlM_cons, List.foldlM_cons, hstep]
      cases hnext : t.step start (.name n) with
      | error e => rfl
      | ok next =>
        rw [ok_bind, ok_bind]
        obtain rfl := follow_of_step hnext
        exact ih _ (hstart.trans (List.prefix_append start [n]))
  have hroot' := h.directories.walk_eq_ok_iff.2 hroot
  rw [walk] at hroot hroot'
  rw [find, find, walk, walk, hparts, List.foldlM_append, List.foldlM_append, hroot, hroot',
    ok_bind, ok_bind, hsteps names base (List.prefix_refl base)]

theorem read_eq (h : AgreeWithin root t u) (hroot : t.walk root.parts = .ok base)
    (hp : root.Under p) : u.read p = t.read p := by
  rw [read, read, h.find_eq hroot hp]
  cases hfind : t.find p with
  | error e => rfl
  | ok loc => rw [ok_bind, ok_bind, h.entry loc (within_of_find hp hfind)]

end AgreeWithin

end FileTree
end LayeredConfig
