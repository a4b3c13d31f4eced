/-
Pointing a directory at packages and setting parameters there, in any order.

A fragment has its resources and its patches in lists of their own, and each config map has a file
of its own. So it does not matter how the two kinds of edits are interleaved
(`Edit.performAll_interleaved`). What is in a list several times stays there, and the header is set
anew (`Edit.performAll_keeps_repeated`).
-/
import LayeredConfig.Proofs.Edit.Ready
import Mathlib

namespace LayeredConfig
namespace Edit

variable {t t' u' start : FileTree} {dir : Path} {edits edits' : List Edit}

/-- What becomes of a directory that is pointed at packages and in which parameters are set. -/
structure Joined (dir : Path) (edits : List Edit) (t t' : FileTree) : Prop where
  fragment : ∃ f? f f', (Fragment.load dir).answer t = .ok f? ∧ f = f?.getD .blank ∧
    (Fragment.load dir).answer t' = .ok (some f') ∧
    f' = { f.withHeader with
      resources := f.resources ++ (packages edits).eraseDups.filter (· ∉ f.resources)
      strategicPatches :=
        f.strategicPatches ++ (files edits).eraseDups.filter (· ∉ f.strategicPatches) } ∧
    (∀ base ∈ packages edits, f'.resources.count base = max 1 (f.resources.count base)) ∧
    ∀ name ∈ files edits, f'.strategicPatches.count name = max 1 (f.strategicPatches.count name)
  configMap : ∀ s ∈ settings edits, ConfigMap.Updated dir s.app (settings edits) t t'
  changed : t.ChangedAt (Touches dir edits t) t'

theorem revised_of_packages (f : Fragment) (hne : packages edits ≠ []) : revised f edits =
    { f.withHeader with
      resources := Fragment.addMissing (packages edits) f.resources
      strategicPatches := Fragment.addMissing (files edits) f.strategicPatches } := by
  rw [revised_eq, if_neg hne, if_neg hne]
  rfl

theorem Steps.joined (hplain : ∀ e ∈ edits, e.Plain) (hne : packages edits ≠ [])
    (hback : ReadBack dir edits t) (h : Steps dir edits t t') : Joined dir edits t t' := by
  have hedits : edits ≠ [] := by
    rintro rfl
    exact hne rfl
  obtain ⟨f, hf⟩ := h.exists_currentIn hedits
  obtain ⟨f', hload', hrevised⟩ :=
    Fragment.currentIn_iff.1 (h.fragment hplain hf (hback.fragment f hf)).2
  have hupdated (s : Setting) (hs : s ∈ settings edits) := h.updated hplain hback hf hs
  obtain ⟨f?, hload, hf?⟩ := Fragment.currentIn_iff.1 hf
  have hresources :
      (revised f edits).resources = Fragment.addMissing (packages edits) f.resources := by
    rw [revised_eq]
  have hpatches : (revised f edits).strategicPatches =
      Fragment.addMissing (files edits) f.strategicPatches := by
    rw [revised_eq]
  refine ⟨⟨f?, f, revised f edits, hload, hf?.symm, ?_, ?_, ?_, ?_⟩, hupdated, h.changedAt⟩
  · cases f' with
    | some f' => rw [hload', ← hrevised, Option.getD_some]
    | none =>
      -- A blank fragment would have no resources.
      obtain ⟨base, hbase⟩ := List.exists_mem_of_ne_nil _ hne
      have hmem := Fragment.mem_addMissing.2 (.inr hbase : base ∈ f.resources ∨ _)
      rw [← hresources, ← hrevised] at hmem
      exact absurd hmem List.not_mem_nil
  · rw [revised_of_packages f hne, Fragment.addMissing_eq, Fragment.addMissing_eq]
  · intro base hbase
    rw [hresources, Fragment.count_addMissing, if_pos hbase]
  · intro name hname
    rw [hpatches, Fragment.count_addMissing, if_pos hname]

theorem plain_of_settings (h : ∀ s ∈ settings edits, s.Plain) : ∀ e ∈ edits, e.Plain := by
  rintro (base | s) he
  · trivial
  · exact h s (mem_settings.2 he)

/-- Edits with the same packages and the same settings come to the same. -/
theorem performAll_interleaved (hplain : ∀ s ∈ settings edits, s.Plain)
    (hpackages : packages edits' = packages edits) (hsettings : settings edits' = settings edits)
    (hne : packages edits ≠ []) (hback : ReadBack dir edits ((Files.makeDirectory dir).after t))
    (hback' : ReadBack dir edits' ((Files.makeDirectory dir).after t))
    (h : (performAll dir edits).run t = .ok () t')
    (h' : (performAll dir edits').run t = .ok () u') :
    (∀ loc, u'.get? loc = t'.get? loc) ∧
      ∃ start, Start dir edits t start ∧ Joined dir edits start t' := by
  have hedits := plain_of_settings hplain
  have hedits' : ∀ e ∈ edits', e.Plain := plain_of_settings (hsettings ▸ hplain)
  have hnil : edits ≠ [] := by
    rintro rfl
    exact hne rfl
  have hnil' : edits' ≠ [] := by
    rintro rfl
    exact hne hpackages.symm
  obtain ⟨start, hmake, hsteps⟩ := (run_performAll_eq_ok_iff hedits hnil).1 h
  obtain ⟨start', hmake', hsteps'⟩ := (run_performAll_eq_ok_iff hedits' hnil').1 h'
  obtain ⟨-, rfl⟩ := EStateM.Result.ok.inj (hmake.symm.trans hmake')
  rw [Files.after_of_run_ok hmake] at hback hback'
  obtain ⟨f, hf⟩ := hsteps.exists_currentIn hnil
  have hfiles : files edits' = files edits := by rw [files, files, hsettings]
  have hlast : (fragments f edits').getLast? = (fragments f edits).getLast? := by
    have hne' : packages edits' ≠ [] := hpackages ▸ hne
    rw [getLast?_fragments, getLast?_fragments, if_neg fun hs => hne' hs.1,
      if_neg fun hs => hne hs.1, revised_of_packages f hne, revised_of_packages f hne', hpackages,
      hfiles]
  refine ⟨hsteps.get?_eq hedits hedits' hback hback' hsteps' hf hlast fun app param => ?_, start,
    .of_run hedits hnil hback hmake hsteps, hsteps.joined hedits hne hback⟩
  rw [hsettings]

theorem readsBack_blank_setText : ((ConfigMap.blank "a").setText "p" "1").ReadsBack := by
  decide +kernel

/-- Both orders in a directory that has to be made. -/
theorem performAll_interleaved_of_two :
    ∃ (t t' u' : FileTree) (edits : List Edit),
      t = ⟨[], [], []⟩ ∧ edits = [.package "b", .setting ⟨"a", "p", "1"⟩] ∧
      (∀ s ∈ settings edits, s.Plain) ∧ packages edits ≠ [] ∧
      packages edits.reverse = packages edits ∧ settings edits.reverse = settings edits ∧
      ReadBack (.ofString "d") edits ((Files.makeDirectory (.ofString "d")).after t) ∧
      ReadBack (.ofString "d") edits.reverse ((Files.makeDirectory (.ofString "d")).after t) ∧
      (performAll (.ofString "d") edits).run t = .ok () t' ∧
      (performAll (.ofString "d") edits.reverse).run t = .ok () u' ∧
      (∀ loc, u'.get? loc = t'.get? loc) ∧
      ∃ start, Start (.ofString "d") edits t start ∧ Joined (.ofString "d") edits start t' := by
  let start : FileTree := ⟨[([.ofString "d"], .directory)], [], []⟩
  let f : Fragment := { Fragment.blank with resources := ["b"] }
  let g : Fragment := { Fragment.blank with strategicPatches := ["a-config.yaml"] }
  let fg : Fragment := { f with strategicPatches := ["a-config.yaml"] }
  have hmake : (Files.makeDirectory (.ofString "d")).after ⟨[], [], []⟩ = start := by decide +kernel
  have hblank : Fragment.blank.CurrentIn (.ofString "d") start := .of_missing (by decide +kernel)
  have hm : (ConfigMap.blank "a").CurrentIn (.ofString "d") "a" start :=
    .of_missing (by decide +kernel)
  have hreads : f.ReadsBack ∧ g.ReadsBack ∧ fg.ReadsBack := by decide +kernel
  have hback (edits : List Edit) (hsettings : settings edits = [⟨"a", "p", "1"⟩])
      (hfragments : ∀ k ∈ fragments .blank edits, k = f ∨ k = g ∨ k = fg) :
      ReadBack (.ofString "d") edits ((Files.makeDirectory (.ofString "d")).after ⟨[], [], []⟩) := by
    rw [hmake]
    refine ⟨fun f' hf' k hk => ?_, fun s hs m hm' k hk => ?_⟩
    · obtain rfl := hf'.unique hblank
      rcases hfragments k hk with rfl | rfl | rfl
      · exact hreads.1
      · exact hreads.2.1
      · exact hreads.2.2
    · rw [hsettings, List.mem_singleton] at hs
      subst hs
      obtain rfl := hm'.unique hm
      rw [hsettings] at hk
      exact List.mem_singleton.1 hk ▸ readsBack_blank_setText
  let edits : List Edit := [.package "b", .setting ⟨"a", "p", "1"⟩]
  have hfirst : ReadBack (.ofString "d") edits _ := hback edits rfl fun k hk =>
    (List.mem_pair.1 hk).imp_right .inr
  have hsecond : ReadBack (.ofString "d") edits.reverse _ := hback edits.reverse rfl fun k hk =>
    .inr (List.mem_pair.1 hk)
  have hplain : ∀ s ∈ settings edits, s.Plain := by decide
  have hne : packages edits ≠ [] := by decide
  have hrun : (performAll (.ofString "d") edits).run ⟨[], [], []⟩ = .ok () _ :=
    Files.run_eq_ok_iff.2 ⟨by decide +kernel, rfl⟩
  have hpackages : packages edits.reverse = packages edits := rfl
  have hsettings : settings edits.reverse = settings edits := rfl
  have hrun' : (performAll (.ofString "d") edits.reverse).run ⟨[], [], []⟩ = .ok () _ :=
    Files.run_eq_ok_iff.2 ⟨by decide +kernel, rfl⟩
  exact ⟨_, _, _, edits, rfl, rfl, hplain, hne, hpackages, hsettings, hfirst, hsecond, hrun, hrun',
    performAll_interleaved hplain hpackages hsettings hne hfirst hsecond hrun hrun'⟩

/-- A package that is listed twice stays listed twice, and another header does not stay. -/
theorem performAll_keeps_repeated :
    ∃ (t t' : FileTree) (edits : List Edit) (f f' : Fragment),
      t = ⟨[([.ofString "d"], .directory), ([.ofString "d", .ofString "kustomization.yaml"],
        .file (.text "apiVersion: v0\nresources: [b, b]\n"))], [], []⟩ ∧
      edits = [.package "b", .setting ⟨"a", "p", "1"⟩] ∧
      ReadBack (.ofString "d") edits ((Files.makeDirectory (.ofString "d")).after t) ∧
      (performAll (.ofString "d") edits).run t = .ok () t' ∧
      (Fragment.load (.ofString "d")).answer t = .ok (some f) ∧
      (Fragment.load (.ofString "d")).answer t' = .ok (some f') ∧
      f'.resources.count "b" = 2 ∧ f.apiVersion = some "v0" ∧
      f'.apiVersion = some "kustomize.config.k8s.io/v1beta1" := by
  let t : FileTree := ⟨[([.ofString "d"], .directory),
    ([.ofString "d", .ofString "kustomization.yaml"],
      .file (.text "apiVersion: v0\nresources: [b, b]\n"))], [], []⟩
  let edits : List Edit := [.package "b", .setting ⟨"a", "p", "1"⟩]
  let f : Fragment := { apiVersion := some "v0", resources := ["b", "b"] }
  let g : Fragment := f.withHeader
  let g' : Fragment := { g with strategicPatches := ["a-config.yaml"] }
  have hmake : (Files.makeDirectory (.ofString "d")).after t = t := by decide +kernel
  have hf : (Fragment.load (.ofString "d")).answer t = .ok (some f) := by decide +kernel
  have hm : (ConfigMap.blank "a").CurrentIn (.ofString "d") "a" t := .of_missing (by decide +kernel)
  have hreads : g.ReadsBack ∧ g'.ReadsBack := by decide +kernel
  have hback : ReadBack (.ofString "d") edits t := by
    refine ⟨fun f' hf' k hk => ?_, fun s hs m hm' k hk => ?_⟩
    · obtain rfl := hf'.unique (Fragment.currentIn_iff.2 ⟨_, hf, rfl⟩)
      rcases List.mem_pair.1 hk with rfl | rfl
      · exact hreads.1
      · exact hreads.2
    · obtain rfl := List.mem_singleton.1 hs
      obtain rfl := hm'.unique hm
      exact List.mem_singleton.1 hk ▸ readsBack_blank_setText
  have hrun : (performAll (.ofString "d") edits).answer t = .ok () ∧
      (Fragment.load (.ofString "d")).answer ((performAll (.ofString "d") edits).after t) =
        .ok (some g') := by decide +kernel
  exact ⟨t, _, edits, f, g', rfl, rfl, hmake.symm ▸ hback, Files.run_eq_ok_iff.2 ⟨hrun.1, rfl⟩, hf,
    hrun.2, by decide, rfl, rfl⟩

end Edit
end LayeredConfig
