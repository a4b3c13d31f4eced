/-
Applications beside each other.

Each application is composed in a directory of its own, and nothing outside of that is read or
written. So those that have been composed before have no part in what becomes of the next one
(`Isolated.step`), and the order in which the applications are composed does not matter
(`generate_isolated`).
-/
import LayeredConfig.Proofs.Compose.Local

namespace LayeredConfig
namespace Deployment

open FileTree (AgreeWithin Within)
open Component (layersIn Enclosed)

variable {draws draws' : Parameters.Draws} {d : Deployment} {root : Path} {a b : Application}
variable {apps apps' : List Application} {t t' t'' u v mid : FileTree}
variable {loc : Location} {o : Outcome} {outcomes : List Outcome} {outcome : Application → Outcome}

/-! ## One application after the other -/

def dirOf (root : Path) (a : Application) : Path := root / .ofString a.name

def composeOne (draws : Parameters.Draws) (d : Deployment) (root : Path) (a : Application) :
    Files ComposeError Outcome :=
  Component.compose draws d (dirOf root a) a.overlays a.parameters

/-- Composing an application does not look at the others that are deployed. -/
theorem generate_eq (draws : Parameters.Draws) (d : Deployment) (root : Path)
    (apps : List Application) : generate draws { d with applications := apps } root =
      apps.mapM fun a => (composeOne draws d root a).explain (⟨a.name, ·⟩) := rfl

theorem run_generate_append_iff :
    (generate draws { d with applications := apps ++ [a] } root).run t = .ok outcomes t' ↔
      ∃ before mid o, (generate draws { d with applications := apps } root).run t = .ok before mid ∧
        (composeOne draws d root a).run mid = .ok o t' ∧ outcomes = before ++ [o] := by
  rw [generate_eq, generate_eq, List.mapM_append, List.mapM_cons, List.mapM_nil]
  simp only [Files.run_bind_eq_ok_iff, Files.run_explain_eq_ok_iff, EStateM.run_pure,
    EStateM.Result.ok.injEq]
  constructor
  · rintro ⟨before, mid, hbefore, _, _, ⟨o, _, hrun, _, _, ⟨rfl, rfl⟩, rfl, rfl⟩, rfl, rfl⟩
    exact ⟨before, mid, o, hbefore, hrun, rfl⟩
  · rintro ⟨before, mid, o, hbefore, hrun, rfl⟩
    exact ⟨before, mid, hbefore, [o], t', ⟨o, t', hrun, [], t', ⟨rfl, rfl⟩, rfl, rfl⟩, rfl, rfl⟩

/-- The applications have directories of their own below the root, and no name of an overlay or of
the target of a patch leads out of them. -/
structure Separate (t : FileTree) (root : Path) (apps : List Application) : Prop where
  distinct : (apps.map (·.name)).Nodup
  name : ∀ a ∈ apps, (Path.Part.name (Name.ofString a.name)).Lasting
  overlay : ∀ a ∈ apps, ∀ overlay ∈ a.overlays, (Path.Part.name (Name.ofString overlay)).Lasting
  target : ∀ a ∈ apps, PlainTargets (layersIn t (dirOf root a) a.overlays)

instance (t : FileTree) (root : Path) (apps : List Application) :
    Decidable (Separate t root apps) :=
  decidable_of_iff
    ((apps.map (·.name)).Nodup ∧ (∀ a ∈ apps, (Path.Part.name (Name.ofString a.name)).Lasting) ∧
      (∀ a ∈ apps, ∀ overlay ∈ a.overlays, (Path.Part.name (Name.ofString overlay)).Lasting) ∧
      ∀ a ∈ apps, PlainTargets (layersIn t (dirOf root a) a.overlays))
    ⟨fun ⟨h₁, h₂, h₃, h₄⟩ => ⟨h₁, h₂, h₃, h₄⟩, fun ⟨h₁, h₂, h₃, h₄⟩ => ⟨h₁, h₂, h₃, h₄⟩⟩

namespace Separate

theorem perm (h : Separate t root apps) (hp : apps'.Perm apps) : Separate t root apps' where
  distinct := (hp.map (·.name)).nodup_iff.2 h.distinct
  name a ha := h.name a (hp.mem_iff.1 ha)
  overlay a ha := h.overlay a (hp.mem_iff.1 ha)
  target a ha := h.target a (hp.mem_iff.1 ha)

theorem of_append (h : Separate t root (apps ++ [a])) : Separate t root apps where
  distinct := by
    have hd := h.distinct
    rw [List.map_append] at hd
    exact hd.of_append_left
  name b hb := h.name b (List.mem_append_left [a] hb)
  overlay b hb := h.overlay b (List.mem_append_left [a] hb)
  target b hb := h.target b (List.mem_append_left [a] hb)

theorem enclosed (h : Separate t root apps) (ha : a ∈ apps) : Enclosed (dirOf root a) a.overlays :=
  .join_name (h.name a ha) (h.overlay a ha)

theorem not_within_of_within (h : Separate t root (apps ++ [a])) (hb : b ∈ apps)
    (hloc : t.Within (dirOf root a) loc) : ¬ t.Within (dirOf root b) loc := by
  have hd := h.distinct
  rw [List.map_append, List.nodup_append] at hd
  have hne : b.name ≠ a.name := hd.2.2 b.name (List.mem_map_of_mem hb) a.name (by simp)
  refine FileTree.not_within_of_within (h.name a (by simp))
    (h.name b (List.mem_append_left [a] hb)) ?_ hloc
  exact fun heq => hne (Name.ofString_injective heq).symm

end Separate

/-! ## What a part of the run has done -/

/-- From `t`, some of the applications have been composed: each as if it were the only one, and
elsewhere nothing has changed. -/
structure Isolated (draws : Parameters.Draws) (d : Deployment) (root : Path) (t : FileTree)
    (outcome : Application → Outcome) (apps : List Application) (t' : FileTree) : Prop where
  directories : t.SameDirectories t'
  alone : ∀ a ∈ apps, ∃ v, (composeOne draws d root a).run t = .ok (outcome a) v ∧
    AgreeWithin (dirOf root a) v t'
  elsewhere : ∀ loc, (∀ a ∈ apps, ¬ t.Within (dirOf root a) loc) → t'.get? loc = t.get? loc

theorem composeOne_alike (hs : Separate t root apps) (ha : a ∈ apps)
    (h : AgreeWithin (dirOf root a) t u) (hrun : (composeOne draws d root a).run t = .ok o v) :
    ∃ u', (composeOne draws d root a).run u = .ok o u' ∧ AgreeWithin (dirOf root a) v u' ∧
      u.ChangedAt (t.Within (dirOf root a)) u' := by
  obtain ⟨hlayers, u', hrun', halike⟩ := (hs.enclosed ha).exists_run_compose_alike h hrun
  have hslash := hs.target a ha
  rw [← hlayers] at hslash
  have hchanged := (hs.enclosed ha).changedAt_within hslash draws d a.parameters
  rw [Files.after_of_run_ok hrun'] at hchanged
  exact ⟨u', hrun', h.of_alike halike, hchanged.mono fun _ => h.directories.within_iff.1⟩

namespace Isolated

theorem refl (draws : Parameters.Draws) (d : Deployment) (root : Path) (t : FileTree)
    (outcome : Application → Outcome) : Isolated draws d root t outcome [] t :=
  ⟨.refl t, fun _ ha => absurd ha List.not_mem_nil, fun _ _ => rfl⟩

theorem agreeWithin (h : Isolated draws d root t outcome apps mid)
    (hs : Separate t root (apps ++ [a])) : AgreeWithin (dirOf root a) t mid :=
  ⟨h.directories, fun loc hloc => h.elsewhere loc fun _ hb => hs.not_within_of_within hb hloc⟩

/-- An application that can be composed alone can be composed after some others. -/
theorem step (h : Isolated draws d root t outcome apps mid) (hs : Separate t root (apps ++ [a]))
    (hrun : (composeOne draws d root a).run t = .ok (outcome a) v) :
    ∃ t', (composeOne draws d root a).run mid = .ok (outcome a) t' ∧
      Isolated draws d root t outcome (apps ++ [a]) t' := by
  obtain ⟨t', hrun', hagree, hchanged⟩ := composeOne_alike hs (by simp) (h.agreeWithin hs) hrun
  refine ⟨t', hrun', h.directories.trans hchanged.directories, ?_, ?_⟩
  · rintro b hb
    rcases List.mem_append.1 hb with hb | hb
    · -- What has just changed is in the directory of `a`, so not in that of `b`.
      obtain ⟨w, hbrun, hbagree⟩ := h.alone b hb
      refine ⟨w, hbrun, hbagree.directories.trans hchanged.directories, fun loc hloc => ?_⟩
      have hloc' : t.Within (dirOf root b) loc :=
        (h.directories.trans hbagree.directories.symm).within_iff.1 hloc
      rw [← hbagree.entry loc hloc]
      exact hchanged.unchanged fun ha => hs.not_within_of_within hb ha hloc'
    · obtain rfl := List.mem_singleton.1 hb
      exact ⟨v, hrun, hagree⟩
  · intro loc hloc
    rw [hchanged.unchanged (hloc a (by simp))]
    exact h.elsewhere loc fun b hb => hloc b (List.mem_append_left [a] hb)

theorem perm (h : Isolated draws d root t outcome apps t') (hp : apps'.Perm apps) :
    Isolated draws d root t outcome apps' t' where
  directories := h.directories
  alone a ha := h.alone a (hp.mem_iff.1 ha)
  elsewhere loc hloc := h.elsewhere loc fun a ha => hloc a (hp.mem_iff.2 ha)

theorem get?_of_within (h : Isolated draws d root t outcome apps t') (ha : a ∈ apps)
    (hloc : t.Within (dirOf root a) loc) (hrun : (composeOne draws d root a).run t = .ok o v) :
    t'.get? loc = v.get? loc := by
  obtain ⟨w, hrun', hagree⟩ := h.alone a ha
  obtain ⟨-, rfl⟩ := EStateM.Result.ok.inj (hrun.symm.trans hrun')
  have hdirs : t.SameDirectories v := h.directories.trans hagree.directories.symm
  exact hagree.entry loc (hdirs.within_iff.2 hloc)

theorem get?_eq (h : Isolated draws d root t outcome apps t')
    (h' : Isolated draws d root t outcome apps t'') (loc : Location) :
    t''.get? loc = t'.get? loc := by
  by_cases hloc : ∃ a ∈ apps, t.Within (dirOf root a) loc
  · obtain ⟨a, ha, hwithin⟩ := hloc
    obtain ⟨v, hrun, -⟩ := h.alone a ha
    rw [h.get?_of_within ha hwithin hrun, h'.get?_of_within ha hwithin hrun]
  · simp only [not_exists, not_and] at hloc
    rw [h.elsewhere loc hloc, h'.elsewhere loc hloc]

theorem sameKind (h : Isolated draws d root t outcome apps t')
    (h' : Isolated draws' d root t outcome apps t'') : t'.SameKind t'' := by
  have hdirs := h.directories.symm.trans h'.directories
  refine ⟨hdirs.home, hdirs.refusals, fun loc => ?_⟩
  by_cases hloc : ∃ a ∈ apps, t.Within (dirOf root a) loc
  · obtain ⟨a, ha, hwithin⟩ := hloc
    obtain ⟨v, hrun, hagree⟩ := h.alone a ha
    obtain ⟨v', hrun', hkind⟩ := Component.exists_run_compose_sameKind draws' hrun
    have hv := hagree.directories
    have hv' := (hkind.directories.symm.trans hv).trans hdirs
    have heq := h.get?_of_within ha hwithin hrun
    have heq' := h'.get?_of_within ha hwithin hrun'
    rw [heq, heq', FileTree.holdsText_iff_of_eq heq hv, FileTree.holdsText_iff_of_eq heq' hv']
    exact hkind.entry loc
  · simp only [not_exists, not_and] at hloc
    rw [h.elsewhere loc hloc, h'.elsewhere loc hloc]
    exact .inl rfl

end Isolated

/-! ## The whole run -/

/-- If all applications can be composed alone, they can be composed together. -/
theorem exists_run_generate (hs : Separate t root apps)
    (h : ∀ a ∈ apps, ∃ v, (composeOne draws d root a).run t = .ok (outcome a) v) :
    ∃ t', (generate draws { d with applications := apps } root).run t =
        .ok (apps.map outcome) t' ∧ Isolated draws d root t outcome apps t' := by
  induction apps using List.reverseRecOn with
  | nil => exact ⟨t, rfl, .refl draws d root t outcome⟩
  | append_singleton apps a ih =>
    obtain ⟨mid, hbefore, hisolated⟩ :=
      ih hs.of_append fun b hb => h b (List.mem_append_left [a] hb)
    obtain ⟨v, hrun⟩ := h a (by simp)
    obtain ⟨t', hlast, hisolated'⟩ := hisolated.step hs hrun
    refine ⟨t', run_generate_append_iff.2 ⟨_, mid, _, hbefore, hlast, ?_⟩, hisolated'⟩
    rw [List.map_append, List.map_singleton]

/-- The outcome of composing an application alone, if it can be composed. -/
def outcomeOf (draws : Parameters.Draws) (d : Deployment) (root : Path) (t : FileTree)
    (a : Application) : Outcome :=
  ((composeOne draws d root a).answer t).toOption.getD default

theorem outcomeOf_of_run (h : (composeOne draws d root a).run t = .ok o v) :
    outcomeOf draws d root t a = o := by
  rw [outcomeOf, (Files.run_eq_ok_iff.1 h).1]
  rfl

/-- If the applications can be composed together, each can be composed alone. -/
theorem alone_of_run_generate (hs : Separate t root apps)
    (h : (generate draws { d with applications := apps } root).run t = .ok outcomes t') :
    outcomes = apps.map (outcomeOf draws d root t) ∧ ∀ a ∈ apps, ∃ v,
      (composeOne draws d root a).run t = .ok (outcomeOf draws d root t a) v := by
  induction apps using List.reverseRecOn generalizing outcomes t' with
  | nil =>
    obtain ⟨rfl, -⟩ := EStateM.Result.ok.inj h
    exact ⟨rfl, fun _ ha => absurd ha List.not_mem_nil⟩
  | append_singleton apps a ih =>
    -- Those before the last one have left its directory as it was, so it can be composed alone.
    obtain ⟨before, mid, o, hbefore, hlast, rfl⟩ := run_generate_append_iff.1 h
    obtain ⟨rfl, halone⟩ := ih hs.of_append hbefore
    obtain ⟨_, hbefore', hisolated⟩ := exists_run_generate hs.of_append halone
    obtain ⟨-, rfl⟩ := EStateM.Result.ok.inj (hbefore.symm.trans hbefore')
    have hagree := (hisolated.agreeWithin hs).symm
    obtain ⟨-, v, hrun, -⟩ := (hs.enclosed (by simp)).exists_run_compose_alike hagree hlast
    have ho := outcomeOf_of_run hrun
    refine ⟨by rw [List.map_append, List.map_singleton, ho], fun b hb => ?_⟩
    rcases List.mem_append.1 hb with hb | hb
    · exact halone b hb
    · obtain rfl := List.mem_singleton.1 hb
      exact ⟨v, by rw [ho]; exact hrun⟩

/-- If all applications can be composed in one order, they can be composed in every order, with the
same outcomes and the same tree in the end. Each one's directory is then as if nothing else had been
composed. -/
theorem generate_isolated (hs : Separate t root d.applications)
    (h : (generate draws d root).run t = .ok outcomes t') :
    ∃ outcome : Application → Outcome, outcomes = d.applications.map outcome ∧
      Isolated draws d root t outcome d.applications t' ∧
      ∀ draws' apps, apps.Perm d.applications →
        ∃ t'', (generate draws' { d with applications := apps } root).run t =
            .ok (apps.map outcome) t'' ∧
          Isolated draws' d root t outcome apps t'' ∧ t'.SameKind t'' ∧
          (draws' = draws → ∀ loc, t''.get? loc = t'.get? loc) := by
  obtain ⟨rfl, halone⟩ := alone_of_run_generate hs h
  obtain ⟨_, hrun, hisolated⟩ := exists_run_generate hs halone
  obtain ⟨-, rfl⟩ := EStateM.Result.ok.inj (h.symm.trans hrun)
  refine ⟨outcomeOf draws d root t, rfl, hisolated, fun draws' apps hp => ?_⟩
  have halone' : ∀ a ∈ apps, ∃ v,
      (composeOne draws' d root a).run t = .ok (outcomeOf draws d root t a) v := by
    intro a ha
    obtain ⟨v, hrun⟩ := halone a (hp.mem_iff.1 ha)
    obtain ⟨v', hrun', -⟩ := Component.exists_run_compose_sameKind draws' hrun
    exact ⟨v', hrun'⟩
  obtain ⟨t'', hrun', hisolated'⟩ := exists_run_generate (hs.perm hp) halone'
  have hback := hisolated'.perm hp.symm
  refine ⟨t'', hrun', hisolated', hisolated.sameKind hback, ?_⟩
  rintro rfl loc
  exact hisolated.get?_eq hback loc

/-- A composed application and one that is left alone, in both orders. -/
theorem generate_isolated_of_two :
    ∃ (t t' : FileTree) (d : Deployment),
      t = ⟨[([.ofString "a"], .directory),
        ([.ofString "a", .ofString "base"], .directory),
        ([.ofString "a", .ofString "base", .ofString "kustomization.yaml"], .file (.text "{}")),
        ([.ofString "a", .ofString "base", .ofString "params.env"],
          .file (.text "generateName=\n")),
        ([.ofString "a", .ofString "overlays"], .directory),
        ([.ofString "a", .ofString "overlays", .ofString "x"], .directory),
        ([.ofString "a", .ofString "overlays", .ofString "x", .ofString "kustomization.yaml"],
          .file (.text ("bases: [../../base]\npatchesJson6902:\n" ++
            "- path: p\n  target:\n    kind: K\n    name: w\n"))),
        ([.ofString "b"], .directory),
        ([.ofString "b", .ofString "kustomization.yaml"], .file (.text "{}"))], [], []⟩ ∧
      d = { applications := [⟨"a", ["x"], [⟨"generateName", "g"⟩]⟩, ⟨"b", [], []⟩] } ∧
      Separate t (.ofString ".") d.applications ∧
      (generate (fun _ _ => 0) d (.ofString ".")).run t =
        .ok [.composed (.ofString "./a/kustomization.yaml"), .final] t' ∧
      ∃ t'', (generate (fun _ _ => 0) { d with applications := d.applications.reverse }
            (.ofString ".")).run t =
          .ok [.final, .composed (.ofString "./a/kustomization.yaml")] t'' ∧
        ∀ loc, t''.get? loc = t'.get? loc := by
  have reversed {t t' : FileTree} {d : Deployment} {root : Path} {outcomes : List Outcome}
      (hs : Separate t root d.applications)
      (hrun : (generate (fun _ _ => 0) d root).run t = .ok outcomes t') :
      ∃ t'', (generate (fun _ _ => 0) { d with applications := d.applications.reverse } root).run t =
          .ok outcomes.reverse t'' ∧ ∀ loc, t''.get? loc = t'.get? loc := by
    obtain ⟨outcome, rfl, -, hperm⟩ := generate_isolated hs hrun
    obtain ⟨t'', hrun', -, -, hsame⟩ := hperm (fun _ _ => 0) _ (List.reverse_perm d.applications)
    rw [List.map_reverse] at hrun'
    exact ⟨t'', hrun', hsame rfl⟩
  suffices h : _ ∧ _ from
    ⟨_, _, _, rfl, rfl, h.1, Files.run_eq_ok_iff.2 ⟨h.2, rfl⟩,
      reversed h.1 (Files.run_eq_ok_iff.2 ⟨h.2, rfl⟩)⟩
  decide +kernel

end Deployment
end LayeredConfig
