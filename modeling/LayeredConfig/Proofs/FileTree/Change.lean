/-
How far two trees are alike.

`ChangedAt` bounds where a tree has changed, and `SameKind` how: no more than the text of a file has.
Paths lead to the same places in trees of the same kind, and reading fails in both for the same
reason. `Alike` compares two changes, each of a tree of its own: at every place both have put a text
there, or neither has done anything. All three are kept from one change to the next, and hold of a
single write.
-/
import LayeredConfig.Proofs.FileTree.Action

namespace LayeredConfig
namespace FileTree

variable {t t' u u' : FileTree} {p : Path} {s s' : String} {loc : Location}

/-! ## Places that may have changed -/

/-- There is a file with a text, in the place of which another may be put. -/
def HoldsText (t : FileTree) (loc : Location) : Prop :=
  (∃ s, t.get? loc = some (.file (.text s))) ∧ t.refusal? loc = none

theorem holdsText_of_read (h : t.read p = .ok s) (haccepts : t.Accepts p loc) :
    t.HoldsText loc := by
  obtain ⟨loc', hfind, htext, -⟩ := read_eq_ok_iff.1 h
  obtain rfl : loc = loc' := Except.ok.inj (haccepts.find.symm.trans hfind)
  exact ⟨⟨s, htext⟩, haccepts.unrefused⟩

theorem holdsText_of_write (h : t.write p s = .ok t') (hfind : t.find p = .ok loc) :
    t'.HoldsText loc := by
  obtain ⟨loc', haccepts, -⟩ := write_eq_ok_iff.1 h
  obtain rfl : loc = loc' := Except.ok.inj (hfind.symm.trans haccepts.find)
  exact ⟨⟨s, by rw [get?_of_write h, if_pos hfind]⟩,
    ((SameDirectories.of_write h).refusal?_eq loc).trans haccepts.unrefused⟩

theorem holdsText_iff_of_eq (h : t'.get? loc = t.get? loc) (hd : t.SameDirectories t') :
    t'.HoldsText loc ↔ t.HoldsText loc := by
  rw [HoldsText, HoldsText, h, hd.refusal?_eq]

/-- Only places in `P` have changed, and what has changed holds a text now. -/
structure ChangedAt (P : Location → Prop) (t t' : FileTree) : Prop where
  directories : t.SameDirectories t'
  entry : ∀ loc, t'.get? loc = t.get? loc ∨ (P loc ∧ t'.HoldsText loc)

namespace ChangedAt

variable {P Q : Location → Prop}

theorem refl (P : Location → Prop) (t : FileTree) : t.ChangedAt P t := ⟨.refl t, fun _ => .inl rfl⟩

theorem trans (h : t.ChangedAt P t') (h' : t'.ChangedAt P u) : t.ChangedAt P u := by
  refine ⟨h.directories.trans h'.directories, fun loc => ?_⟩
  rcases h'.entry loc with heq | hnew
  · rw [heq, holdsText_iff_of_eq heq h'.directories]
    exact h.entry loc
  · exact .inr hnew

theorem mono (h : t.ChangedAt P t') (hPQ : ∀ loc, P loc → Q loc) : t.ChangedAt Q t' :=
  ⟨h.directories, fun loc => (h.entry loc).imp_right (And.imp_left (hPQ loc))⟩

theorem unchanged (h : t.ChangedAt P t') (hloc : ¬ P loc) : t'.get? loc = t.get? loc :=
  (h.entry loc).resolve_right fun hchanged => hloc hchanged.1

theorem restrict (h : t.ChangedAt P t') (hQ : ∀ loc, ¬ Q loc → t'.get? loc = t.get? loc) :
    t.ChangedAt Q t' := by
  refine ⟨h.directories, fun loc => ?_⟩
  by_cases hloc : Q loc
  · exact (h.entry loc).imp_right fun hchanged => ⟨hloc, hchanged.2⟩
  · exact .inl (hQ loc hloc)

theorem of_write (h : t.write p s = .ok t') :
    t.ChangedAt (fun loc => t.find p = .ok loc) t' := by
  refine ⟨.of_write h, fun loc => ?_⟩
  by_cases hfind : t.find p = .ok loc
  · exact .inr ⟨hfind, holdsText_of_write h hfind⟩
  · exact .inl (get?_of_write_of_ne h hfind)

theorem after_write (p : Path) (s : String) (t : FileTree) :
    t.ChangedAt (fun loc => t.find p = .ok loc) ((Files.write p s).after t) := by
  cases hwrite : t.write p s with
  | ok u =>
    rw [Files.after_of_run_ok (Files.run_write_eq_ok_iff.2 hwrite)]
    exact .of_write hwrite
  | error e =>
    rw [Files.after_of_run_error (Files.run_write_eq_error_iff.2 ⟨hwrite, rfl⟩)]
    exact .refl _ t

end ChangedAt

/-! ## Texts in place of texts -/

/-- The trees differ in nothing but the texts of files. -/
structure SameKind (t t' : FileTree) : Prop where
  home : t'.home = t.home
  refusals : t'.refusals = t.refusals
  entry : ∀ loc, t'.get? loc = t.get? loc ∨ (t.HoldsText loc ∧ t'.HoldsText loc)

namespace SameKind

theorem refl (t : FileTree) : t.SameKind t := ⟨rfl, rfl, fun _ => .inl rfl⟩

theorem symm (h : t.SameKind t') : t'.SameKind t :=
  ⟨h.home.symm, h.refusals.symm, fun loc => (h.entry loc).imp Eq.symm And.symm⟩

theorem directories (h : t.SameKind t') : t.SameDirectories t' := by
  refine ⟨h.home, h.refusals, fun loc => ?_⟩
  rcases h.entry loc with heq | ⟨⟨⟨s, hs⟩, -⟩, ⟨s', hs'⟩, -⟩
  · rw [heq]
  · simp [hs, hs']

theorem holdsText_iff (h : t.SameKind t') : t'.HoldsText loc ↔ t.HoldsText loc := by
  rcases h.entry loc with heq | ⟨htext, htext'⟩
  · exact holdsText_iff_of_eq heq h.directories
  · exact iff_of_true htext' htext

theorem trans (h : t.SameKind t') (h' : t'.SameKind u) : t.SameKind u := by
  refine ⟨h'.home.trans h.home, h'.refusals.trans h.refusals, fun loc => ?_⟩
  rcases h.entry loc with heq | ⟨htext, htext'⟩
  · rcases h'.entry loc with heq' | ⟨htext', htext⟩
    · exact .inl (heq'.trans heq)
    · exact .inr ⟨h.holdsText_iff.1 htext', htext⟩
  · exact .inr ⟨htext, h'.holdsText_iff.2 htext'⟩

theorem step_eq (h : t.SameKind t') : t'.step = t.step := by
  funext loc part
  rcases h.entry loc with heq | ⟨⟨⟨s, hs⟩, -⟩, ⟨s', hs'⟩, -⟩
  · cases part <;> simp [step, heq]
  · cases part <;> simp [step, hs, hs']

theorem find_eq (h : t.SameKind t') (p : Path) : t'.find p = t.find p := by
  rw [find, find, walk, walk, h.step_eq, h.home]

/-- A path is read in the one tree as it is in the other, up to the text. -/
theorem read_cases (h : t.SameKind t') (p : Path) :
    t'.read p = t.read p ∨ ∃ s s', t.read p = .ok s ∧ t'.read p = .ok s' := by
  rw [read, read, h.find_eq]
  cases t.find p with
  | error e => exact .inl rfl
  | ok loc =>
    simp only [ok_bind]
    rcases h.entry loc with heq | ⟨⟨⟨s, hs⟩, -⟩, ⟨s', hs'⟩, -⟩
    · exact .inl (by rw [heq])
    · rw [hs, hs']
      cases namesDirectory p with
      | true => exact .inl rfl
      | false => exact .inr ⟨s, s', rfl, rfl⟩

theorem read_eq (h : t.SameKind t') (hget : ∀ loc, t.find p = .ok loc → t'.get? loc = t.get? loc) :
    t'.read p = t.read p := by
  rw [read, read, h.find_eq]
  cases hfind : t.find p with
  | error e => rfl
  | ok loc => rw [ok_bind, ok_bind, hget loc hfind]

theorem of_write (h : t.write p s = .ok t') (hfind : t.find p = .ok loc) (hold : t.HoldsText loc) :
    t.SameKind t' := by
  have hd := SameDirectories.of_write h
  refine ⟨hd.home, hd.refusals, fun other => ?_⟩
  by_cases hother : t.find p = .ok other
  · obtain rfl : loc = other := Except.ok.inj (hfind.symm.trans hother)
    exact .inr ⟨hold, holdsText_of_write h hother⟩
  · exact .inl (get?_of_write_of_ne h hother)

end SameKind

/-! ## Writing again -/

theorem write_of_sameDirectories (h : t.write p s = .ok u) (hd : t.SameDirectories t')
    (s' : String) : ∃ u', t'.write p s' = .ok u' := by
  obtain ⟨loc, haccepts, -⟩ := write_eq_ok_iff.1 h
  exact ⟨_, write_eq_ok_iff.2 ⟨loc, haccepts.of_sameDirectories hd, rfl⟩⟩

/-- Writing the same text once more changes nothing. -/
theorem write_again (h : t.write p s = .ok u) : u.write p s = .ok u := by
  obtain ⟨loc, haccepts, rfl⟩ := write_eq_ok_iff.1 h
  refine write_eq_ok_iff.2 ⟨loc, haccepts.of_sameDirectories (SameDirectories.of_write h), ?_⟩
  simp [set, List.filter_append, List.filter_filter]

/-- Texts can be written into the file at the path. -/
def Writable (t : FileTree) (p : Path) : Prop := ∃ s u, t.write p s = .ok u

theorem Writable.write (h : t.Writable p) (s : String) : ∃ u, t.write p s = .ok u := by
  obtain ⟨s', u, hwrite⟩ := h
  exact write_of_sameDirectories hwrite (.refl t) s

theorem Writable.of_sameDirectories (h : t.Writable p) (hd : t.SameDirectories t') :
    t'.Writable p := by
  obtain ⟨s, u, hwrite⟩ := h
  exact ⟨s, write_of_sameDirectories hwrite hd s⟩

theorem Writable.of_accepts (h : t.Accepts p loc) : t.Writable p :=
  ⟨"", _, write_eq_ok_iff.2 ⟨loc, h, rfl⟩⟩

/-- `t` has become `u` and `t'` has become `u'`. Where either has changed, both hold a text now, and
these are related by `r`. -/
structure Alike (r : String → String → Prop) (t u t' u' : FileTree) : Prop where
  kept : t.SameDirectories u
  directories : u.SameDirectories u'
  entry : ∀ loc, (u.get? loc = t.get? loc ∧ u'.get? loc = t'.get? loc) ∨
    ∃ s s', u.get? loc = some (.file (.text s)) ∧ u'.get? loc = some (.file (.text s')) ∧
      u.refusal? loc = none ∧ r s s'

namespace Alike

variable {r : String → String → Prop}

theorem refl (r : String → String → Prop) (hd : t.SameDirectories t') : Alike r t t t' t' :=
  ⟨.refl t, hd, fun _ => .inl ⟨rfl, rfl⟩⟩

theorem trans {v v' : FileTree} (h : Alike r t u t' u') (h' : Alike r u v u' v') :
    Alike r t v t' v' := by
  refine ⟨h.kept.trans h'.kept, h'.directories, fun loc => ?_⟩
  rcases h'.entry loc with ⟨hv, hv'⟩ | htexts
  · rw [hv, hv', h'.kept.refusal?_eq]
    exact h.entry loc
  · exact .inr htexts

theorem of_write (h : t.write p s = .ok u) (h' : t'.write p s' = .ok u')
    (hd : t.SameDirectories t') (hr : r s s') : Alike r t u t' u' := by
  have hkept := SameDirectories.of_write h
  have hdirs := (hkept.symm.trans hd).trans (SameDirectories.of_write h')
  refine ⟨hkept, hdirs, fun loc => ?_⟩
  by_cases hloc : t.find p = .ok loc
  · refine .inr ⟨s, s', ?_, ?_, (holdsText_of_write h hloc).2, hr⟩
    · rw [get?_of_write h, if_pos hloc]
    · rw [get?_of_write h', if_pos (hd.find hloc)]
  · refine .inl ⟨get?_of_write_of_ne h hloc, get?_of_write_of_ne h' ?_⟩
    exact mt hd.find_eq_ok_iff.1 hloc

/-- The same change of two trees makes them equal wherever it makes a difference. -/
theorem get?_eq (h : Alike Eq t u t' u') {loc : Location}
    (hloc : u.get? loc = t.get? loc → u'.get? loc = t'.get? loc → t'.get? loc = t.get? loc) :
    u'.get? loc = u.get? loc := by
  rcases h.entry loc with ⟨hu, hu'⟩ | ⟨s, s', hs, hs', -, rfl⟩
  · rw [hu', hu, hloc hu hu']
  · rw [hs', hs]

/-- What has been read in both trees with related texts still is so after the change. -/
theorem read (h : Alike r t u t' u') (hd : t.SameDirectories t') (hread : t.read p = .ok s)
    (hread' : t'.read p = .ok s') (hr : r s s') :
    ∃ s s', u.read p = .ok s ∧ u'.read p = .ok s' ∧ r s s' := by
  obtain ⟨loc, hfind, htext, hname⟩ := read_eq_ok_iff.1 hread
  obtain ⟨loc', hfind', htext', -⟩ := read_eq_ok_iff.1 hread'
  obtain rfl : loc' = loc := Except.ok.inj (hfind'.symm.trans (hd.find hfind))
  have hu := h.kept.find hfind
  have hu' := h.directories.find hu
  rcases h.entry loc' with ⟨heq, heq'⟩ | ⟨a, b, ha, hb, -, hab⟩
  · exact ⟨s, s', read_eq_ok_iff.2 ⟨loc', hu, heq.trans htext, hname⟩,
      read_eq_ok_iff.2 ⟨loc', hu', heq'.trans htext', hname⟩, hr⟩
  · exact ⟨a, b, read_eq_ok_iff.2 ⟨loc', hu, ha, hname⟩, read_eq_ok_iff.2 ⟨loc', hu', hb, hname⟩,
      hab⟩

theorem sameKind (h : Alike r t u t' u') (hk : t.SameKind t') : u.SameKind u' := by
  refine ⟨h.directories.home, h.directories.refusals, fun loc => ?_⟩
  rcases h.entry loc with ⟨hu, hu'⟩ | ⟨s, s', hs, hs', hfree, -⟩
  · have hd := (hk.directories.symm.trans h.kept).trans h.directories
    rw [hu, hu', holdsText_iff_of_eq hu h.kept, holdsText_iff_of_eq hu' hd]
    exact hk.entry loc
  · exact .inr ⟨⟨⟨s, hs⟩, hfree⟩, ⟨s', hs'⟩, (h.directories.refusal?_eq loc).trans hfree⟩

end Alike

end FileTree
end LayeredConfig
