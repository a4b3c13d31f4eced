/-
Runs of edits.

If what is written reads back, every edit starts from what the one before has made. So in the end
the fragment and the config maps are what the edits make of those at the beginning
(`Edit.Steps.fragment`, `Edit.Steps.configMap`).
-/
import LayeredConfig.Proofs.Edit.Content
import LayeredConfig.Proofs.FileTree.Rewritten

namespace LayeredConfig

variable {t t' u : FileTree} {dir : Path} {text : String}
variable {e : Edit} {edits : List Edit} {f : Fragment} {m : ConfigMap}
variable {app : String}

/-! ## Files that are left alone -/

namespace FileTree

/-- The file at the path is as it was, and is read as before. -/
structure Keeps (t : FileTree) (p : Path) (t' : FileTree) : Prop where
  rewritten : t.Rewritten p [] t'
  read : t'.read p = t.read p

theorem Keeps.refl (p : Path) (t : FileTree) : t.Keeps p t := ⟨.refl p t, rfl⟩

theorem Keeps.trans {p : Path} (h : t.Keeps p u) (hd : t.SameDirectories u) (h' : u.Keeps p t') :
    t.Keeps p t' :=
  ⟨h.rewritten.trans hd h'.rewritten, h'.read.trans h.read⟩

theorem Keeps.of_write {n k : Name} (hn : (Path.Part.name n).Lasting)
    (hk : (Path.Part.name k).Lasting) (hne : n ≠ k) (h : t.write (dir / ⟨n⟩) text = .ok t') :
    t.Keeps (dir / ⟨k⟩) t' := by
  refine ⟨.of_unchanged fun loc hfind => get?_of_write_of_ne h fun heq => ?_,
    read_of_write_name hn hk hne h⟩
  exact hne (find_join_name_inj hn hk heq hfind)

end FileTree

namespace ConfigMap

theorem keeps_of_write_fragment (happ : '/' ∉ app.toList)
    (h : t.write (Fragment.file dir) text = .ok t') : t.Keeps (file dir app) t' :=
  .of_write Fragment.lasting_fileName (lasting_fileFor happ)
    (fun heq => fileFor_ne_fileName app (Name.ofString_injective heq).symm) h

theorem keeps_of_write {other : String} (happ : '/' ∉ app.toList) (hother : '/' ∉ other.toList)
    (hne : other ≠ app) (h : t.write (file dir other) text = .ok t') : t.Keeps (file dir app) t' :=
  .of_write (lasting_fileFor hother) (lasting_fileFor happ)
    (fun heq => hne (fileFor_injective (Name.ofString_injective heq))) h

end ConfigMap

theorem Fragment.keeps_of_write_configMap (happ : '/' ∉ app.toList)
    (h : t.write (ConfigMap.file dir app) text = .ok t') : t.Keeps (file dir) t' :=
  .of_write (ConfigMap.lasting_fileFor happ) lasting_fileName
    (fun heq => ConfigMap.fileFor_ne_fileName app (Name.ofString_injective heq)) h

namespace Edit

/-! ## One step -/

theorem Revises.fragment (h : e.Revises dir t t') (hf : f.CurrentIn dir t)
    (hback : ∀ g ∈ fragments f [e], g.ReadsBack) :
    t.Rewritten (Fragment.file dir) ((fragments f [e]).map Fragment.print) t' ∧
      (e.revise f).CurrentIn dir t' := by
  obtain ⟨f', hf', h⟩ := h
  obtain rfl := hf.unique hf'
  rw [fragments_singleton] at hback ⊢
  by_cases hrewrites : e.rewrites f = true
  · rw [if_pos hrewrites] at h hback ⊢
    obtain ⟨text, hprint, hwrite⟩ := h
    rw [List.map_singleton, hprint]
    exact ⟨.of_write hwrite,
      .of_read (FileTree.read_of_write hwrite) (hback _ List.mem_cons_self text hprint)⟩
  · rw [if_neg hrewrites] at h ⊢
    rw [revise_of_rewrites (Bool.eq_false_iff.2 hrewrites), h]
    exact ⟨.refl _ t, hf⟩

theorem Revises.keeps (happ : '/' ∉ app.toList) (h : e.Revises dir t t') :
    t.Keeps (ConfigMap.file dir app) t' := by
  obtain rfl | ⟨text, hwrite⟩ := h.eq_or_exists_write
  · exact .refl _ _
  · exact ConfigMap.keeps_of_write_fragment happ hwrite

theorem Step.fragment (he : e.Plain) (h : e.Step dir t t') (hf : f.CurrentIn dir t)
    (hback : ∀ g ∈ fragments f [e], g.ReadsBack) :
    t.Rewritten (Fragment.file dir) ((fragments f [e]).map Fragment.print) t' ∧
      (e.revise f).CurrentIn dir t' := by
  cases e with
  | package base => exact Revises.fragment h hf hback
  | setting s =>
    obtain ⟨mid, hrevises, m, -, text, -, hwrite⟩ := h
    obtain ⟨hrewritten, hmid⟩ := hrevises.fragment hf hback
    have hkeeps := Fragment.keeps_of_write_configMap he hwrite
    refine ⟨?_, hmid.of_read_eq hkeeps.read⟩
    have htrans := hrewritten.trans hrevises.changedAt.directories hkeeps.rewritten
    rwa [List.append_nil] at htrans

/-- The config map of an application that the edit is not about stays as it is. -/
theorem Step.keeps (he : e.Plain) (happ : '/' ∉ app.toList) (h : e.Step dir t t')
    (hne : ∀ s ∈ settings [e], s.app ≠ app) : t.Keeps (ConfigMap.file dir app) t' := by
  cases e with
  | package base => exact Revises.keeps happ h
  | setting s =>
    obtain ⟨mid, hrevises, m, -, text, -, hwrite⟩ := h
    exact (hrevises.keeps happ).trans hrevises.changedAt.directories
      (ConfigMap.keeps_of_write happ he (hne s List.mem_cons_self) hwrite)

theorem Step.configMap (he : e.Plain) (happ : '/' ∉ app.toList) (h : e.Step dir t t')
    (hm : m.CurrentIn dir app t)
    (hback : ∀ m' ∈ ConfigMap.versions app m (settings [e]), m'.ReadsBack) :
    t.Rewritten (ConfigMap.file dir app)
        ((ConfigMap.versions app m (settings [e])).map ConfigMap.print) t' ∧
      (ConfigMap.setAll app m (settings [e])).CurrentIn dir app t' := by
  cases e with
  | package base =>
    have hkeeps := h.keeps he happ fun s hs => absurd hs List.not_mem_nil
    exact ⟨hkeeps.rewritten, hm.of_read_eq hkeeps.read⟩
  | setting s =>
    have hsettings : settings [setting s] = [s] := rfl
    rw [hsettings, ConfigMap.versions_singleton] at hback ⊢
    rw [ConfigMap.setAll_singleton]
    by_cases hsapp : s.app = app
    · subst hsapp
      obtain ⟨mid, hrevises, m', hm', text, hprint, hwrite⟩ := h
      have hmid := hrevises.keeps happ
      obtain rfl := hm'.unique (hm.of_read_eq hmid.read)
      rw [if_pos rfl] at hback ⊢
      rw [if_pos rfl, List.map_singleton, hprint]
      exact ⟨hmid.rewritten.trans hrevises.changedAt.directories (.of_write hwrite),
        .of_read (FileTree.read_of_write hwrite) (hback _ List.mem_cons_self text hprint)⟩
    · rw [if_neg hsapp, if_neg hsapp]
      have hkeeps := h.keeps he happ fun s' hs' => List.mem_singleton.1 hs' ▸ hsapp
      exact ⟨hkeeps.rewritten, hm.of_read_eq hkeeps.read⟩

/-! ## Several steps -/

theorem Steps.fragment (hplain : ∀ e ∈ edits, e.Plain) (h : Steps dir edits t t')
    (hf : f.CurrentIn dir t) (hback : ∀ g ∈ fragments f edits, g.ReadsBack) :
    t.Rewritten (Fragment.file dir) ((fragments f edits).map Fragment.print) t' ∧
      (revised f edits).CurrentIn dir t' := by
  induction edits generalizing f t with
  | nil =>
    rw [show t' = t from h]
    exact ⟨.refl _ t, hf⟩
  | cons e edits ih =>
    obtain ⟨hfirst, hrest⟩ := List.forall_mem_cons.1 hplain
    obtain ⟨mid, hstep, hsteps⟩ := h
    rw [fragments_cons] at hback ⊢
    obtain ⟨hbefore, hafter⟩ := List.forall_mem_append.1 hback
    obtain ⟨hwritten, hmid⟩ := hstep.fragment hfirst hf hbefore
    obtain ⟨hlater, hlast⟩ := ih hrest hsteps hmid hafter
    rw [List.map_append]
    exact ⟨hwritten.trans hstep.changedAt.directories hlater, hlast⟩

theorem Steps.configMap (hplain : ∀ e ∈ edits, e.Plain) (happ : '/' ∉ app.toList)
    (h : Steps dir edits t t') (hm : m.CurrentIn dir app t)
    (hback : ∀ m' ∈ ConfigMap.versions app m (settings edits), m'.ReadsBack) :
    t.Rewritten (ConfigMap.file dir app)
        ((ConfigMap.versions app m (settings edits)).map ConfigMap.print) t' ∧
      (ConfigMap.setAll app m (settings edits)).CurrentIn dir app t' := by
  induction edits generalizing m t with
  | nil =>
    rw [show t' = t from h]
    exact ⟨.refl _ t, hm⟩
  | cons e edits ih =>
    obtain ⟨hfirst, hrest⟩ := List.forall_mem_cons.1 hplain
    obtain ⟨mid, hstep, hsteps⟩ := h
    rw [settings_cons, ConfigMap.versions_append] at hback ⊢
    obtain ⟨hbefore, hafter⟩ := List.forall_mem_append.1 hback
    obtain ⟨hwritten, hmid⟩ := hstep.configMap hfirst happ hm hbefore
    obtain ⟨hlater, hlast⟩ := ih hrest hsteps hmid hafter
    rw [List.map_append, ConfigMap.setAll_append]
    exact ⟨hwritten.trans hstep.changedAt.directories hlater, hlast⟩

end Edit
end LayeredConfig
