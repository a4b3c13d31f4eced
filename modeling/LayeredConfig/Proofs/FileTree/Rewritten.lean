/-
Files that are written over and over: only the last text counts.

The file at a path ends as the last text that was written there, whatever was written to others in
between (`Rewritten.trans`, `Rewritten.get?_eq`).
-/
import LayeredConfig.Proofs.FileTree.Change
import LayeredConfig.Yaml.Error

namespace LayeredConfig
namespace FileTree

variable {t t' u u' : FileTree} {p : Path} {loc : Location} {s : String}
variable {written later : List (Except Yaml.Error String)}

/-- The file at a path holds the last of the texts that were written, or is as it was if there are
none. -/
def Rewritten (p : Path) (written : List (Except Yaml.Error String)) (t t' : FileTree) : Prop :=
  ∀ loc, t.find p = .ok loc →
    (written = [] ∧ t'.get? loc = t.get? loc) ∨
      ∃ s, written.getLast? = some (.ok s) ∧ t'.get? loc = some (.file (.text s))

namespace Rewritten

theorem of_unchanged (h : ∀ loc, t.find p = .ok loc → t'.get? loc = t.get? loc) :
    t.Rewritten p [] t' := fun loc hfind => .inl ⟨rfl, h loc hfind⟩

theorem refl (p : Path) (t : FileTree) : t.Rewritten p [] t := of_unchanged fun _ _ => rfl

theorem of_write (h : t.write p s = .ok t') : t.Rewritten p [.ok s] t' := by
  intro loc hfind
  refine .inr ⟨s, rfl, ?_⟩
  rw [get?_of_write h, if_pos hfind]

theorem trans (h : t.Rewritten p written u) (hd : t.SameDirectories u)
    (h' : u.Rewritten p later t') : t.Rewritten p (written ++ later) t' := by
  intro loc hfind
  rcases h' loc (hd.find hfind) with ⟨rfl, hsame⟩ | ⟨s, hlast, hget⟩
  · rw [List.append_nil, hsame]
    exact h loc hfind
  · refine .inr ⟨s, ?_, hget⟩
    rw [List.getLast?_append, hlast]
    rfl

theorem unchanged (h : t.Rewritten p [] t') (hfind : t.find p = .ok loc) :
    t'.get? loc = t.get? loc := by
  rcases h loc hfind with ⟨-, hsame⟩ | ⟨s, hlast, -⟩
  · exact hsame
  · exact absurd hlast nofun

theorem get?_eq (h : t.Rewritten p written u) (h' : t.Rewritten p later u')
    (hlast : later.getLast? = written.getLast?) (hfind : t.find p = .ok loc) :
    u'.get? loc = u.get? loc := by
  rcases h loc hfind with ⟨rfl, hsame⟩ | ⟨s, hs, hget⟩ <;>
    rcases h' loc hfind with ⟨rfl, hsame'⟩ | ⟨s', hs', hget'⟩
  · rw [hsame, hsame']
  · rw [hs'] at hlast
    exact absurd hlast nofun
  · rw [hs] at hlast
    exact absurd hlast nofun
  · rw [hs, hs'] at hlast
    rw [hget, hget', Except.ok.inj (Option.some.inj hlast)]

end Rewritten

end FileTree
end LayeredConfig
