/-
What a field accepts of the entries of some layers.

There are four ways: paths are taken once, entries once for each identity, generators by what they
do and by their name, patches always. Each of them can be applied to one long list or to its parts
one after the other, with the keys of a part known to the next (`Sequential`), which is why a run
of folds comes out like a single one.
-/
import LayeredConfig.Fold.Policy
import LayeredConfig.Proofs.Fold.Sift
import LayeredConfig.Proofs.Result

namespace LayeredConfig

/-! ## Rebasing at a site -/

theorem Site.rebase_eq_ok_iff {s : Site} {field : Field} {value r : String} :
    s.rebase field value = .ok r ↔ s.root.rebase s.dir value = .ok r := by
  unfold rebase
  cases s.root.rebase s.dir value <;> simp

/-- Rebasing a generator gives its sources another spelling and changes nothing else. -/
theorem Generator.rebase_eq_ok_iff {site : Site} {field : Field} {g g' : Generator} :
    g.rebase site field = .ok g' ↔
      ∃ env envs files, g.env.mapM (site.rebase field) = .ok env ∧
        g.envs.mapM (site.rebase field) = .ok envs ∧
        g.files.mapM (rebaseFile site field) = .ok files ∧ g' = { g with env, envs, files } := by
  unfold rebase
  simp only [bind_eq_ok_iff]
  constructor
  · intro ⟨env, henv, envs, henvs, files, hfiles, hg⟩
    exact ⟨env, envs, files, henv, henvs, hfiles, (Except.ok.inj hg).symm⟩
  · intro ⟨env, envs, files, henv, henvs, hfiles, hg⟩
    exact ⟨env, henv, envs, henvs, files, hfiles, hg ▸ rfl⟩

/-! ## What is accepted

An entry comes with the site at which its paths are rebased, so that the entries of several layers
can stand in one list. -/

/-- The keys that some entries mark, and what is added to the result for them. -/
structure Accepted (α : Type) where
  keys : List String
  entries : List α

namespace Accepted

variable {α γ : Type}

def rebasePath (field : Field) (v : Site × String) : Except FoldError String :=
  v.1.rebase field v.2

def rebaseGenerator (kind : GeneratorKind γ) (field : Field) (g : Site × γ) :
    Except FoldError γ :=
  ((kind.shared g.2).rebase g.1 field).map (kind.withShared g.2)

def rebasePatch (p : Site × JsonPatch) : Except FoldError JsonPatch :=
  (p.1.rebase .jsonPatches p.2.path).map fun path => { p.2 with path }

/-- Of some paths, each that is new once it is rebased. -/
def paths (field : Field) (known : List String) (values : List (Site × String)) :
    Except FoldError (Accepted String) :=
  (values.mapM (rebasePath field)).map fun rs => ⟨rs, novel id known rs⟩

/-- Of some entries, the first of each new identity, as it is. -/
def firsts (identity : α → String) (known : List String) (entries : List (Site × α)) :
    Except FoldError (Accepted α) :=
  .ok ⟨entries.map (identity ·.2), novel identity known (entries.map (·.2))⟩

/-- The generators that do not create, and those whose name is new. -/
def keptGenerators (kind : GeneratorKind γ) (known : List String) (entries : List (Site × γ)) :
    List (Site × γ) :=
  sift (fun g => (kind.shared g.2).name) (fun g => (kind.shared g.2).behavior != .create) known
    entries

/-- Of some generators, those that are kept. Only their sources have to have a rebased form. -/
def generators (kind : GeneratorKind γ) (field : Field) (known : List String)
    (entries : List (Site × γ)) : Except FoldError (Accepted γ) :=
  ((keptGenerators kind known entries).mapM (rebaseGenerator kind field)).map fun gs =>
    ⟨entries.map fun g => (kind.shared g.2).name, gs⟩

/-- Of some patches, all. None leaves a key. -/
def patches (_ : List String) (entries : List (Site × JsonPatch)) :
    Except FoldError (Accepted JsonPatch) :=
  (entries.mapM rebasePatch).map fun ps => ⟨[], ps⟩

/-! ### In parts -/

/-- Accepting a list is accepting its parts in order. -/
structure Sequential {β : Type} (accept : List String → List α → Except FoldError (Accepted β)) :
    Prop where
  nil : ∀ known, accept known [] = .ok ⟨[], []⟩
  append : ∀ known xs ys, accept known (xs ++ ys) = do
    let k ← accept known xs
    let l ← accept (meet known k.keys) ys
    return ⟨k.keys ++ l.keys, k.entries ++ l.entries⟩

theorem sequential_paths (field : Field) : Sequential (paths field) where
  nil _ := rfl
  append known xs ys := by
    simp only [paths, List.mapM_append]
    cases xs.mapM (rebasePath field) with
    | error e => rfl
    | ok rs =>
      cases ys.mapM (rebasePath field) with
      | error e => rfl
      | ok ss =>
        show Except.ok (Accepted.mk (rs ++ ss) (novel id known (rs ++ ss))) = Except.ok _
        rw [novel, sift_append, List.map_id]

theorem sequential_firsts (identity : α → String) : Sequential (firsts identity) where
  nil _ := rfl
  append known xs ys := by
    simp only [firsts, ok_bind, novel, List.map_append, sift_append, List.map_map]
    rfl

theorem sequential_generators (kind : GeneratorKind γ) (field : Field) :
    Sequential (generators kind field) where
  nil _ := rfl
  append known xs ys := by
    simp only [generators, keptGenerators, sift_append, List.mapM_append]
    cases List.mapM (m := Except FoldError) _ (sift _ _ known xs) with
    | error e => rfl
    | ok gs =>
      simp only [map_ok, ok_bind]
      cases List.mapM (m := Except FoldError) _ (sift _ _ _ ys) with
      | error e => rfl
      | ok hs => simp only [map_ok, ok_bind, List.map_append]; rfl

theorem sequential_patches : Sequential patches where
  nil _ := rfl
  append known xs ys := by
    simp only [patches, List.mapM_append]
    cases xs.mapM rebasePatch with
    | error e => rfl
    | ok ps =>
      cases ys.mapM rebasePatch <;> rfl

end Accepted
end LayeredConfig
