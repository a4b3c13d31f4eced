/-
Where a parameter is stored when it is set.

With stacks that is the config map of the application, and the deployment stays as it is. Without
stacks it is the parameter list of the first application of the name. If there is no such
application then nothing is stored, and setting succeeds all the same (`Deployment.set_stores`).
A deployment that is changed in place ends as the answer says, or as it was if setting fails
(`Deployment.run_setInPlace`).
-/
import LayeredConfig.Proofs.Deployment.Parameters
import LayeredConfig.Proofs.Edit.Step

namespace LayeredConfig
namespace Deployment

variable {d d' : Deployment} {app param value : String} {t t' : FileTree}

/-! ## In place -/

/-- A program on files, beside a deployment that is held in memory. -/
def onFiles {ε α : Type} (x : Files ε α) : EStateM ε (Deployment × FileTree) α := fun (d, t) =>
  match x.run t with
  | .ok a t' => .ok a (d, t')
  | .error e t' => .error e (d, t')

theorem run_onFiles {ε α : Type} (x : Files ε α) (d : Deployment) (t : FileTree) :
    (onFiles x).run (d, t) =
      match x.run t with
      | .ok a t' => .ok a (d, t')
      | .error e t' => .error e (d, t') := rfl

/-- Sets a parameter where the deployment is held, so that a run that fails may have changed it. -/
def setInPlace (app param value : String) : EStateM SetError (Deployment × FileTree) Unit := do
  let (d, _) ← get
  if d.usesStacks then
    match d.appDir.filter (· ≠ "") with
    | none => throw (.missingAppDir app)
    | some appDir =>
      onFiles ((ConfigMap.inject (stackDir appDir app) app param value).explain (.inject app param))
  else modify fun (d, t) => ((d.set? app param value).getD d, t)

/-- The deployment that is held once setting a parameter has succeeded or failed. -/
def heldAfter (d : Deployment) (app param value : String) (t : FileTree) : Deployment :=
  match (setInPlace app param value).run (d, t) with
  | .ok _ held => held.1
  | .error _ held => held.1

/-- The config map of the application in its stack gives the parameter the value. -/
def StoredInStack (d : Deployment) (app param value : String) (t : FileTree) : Prop :=
  ∃ appDir, d.appDir = some appDir ∧ appDir ≠ "" ∧ ∃ m text,
    t.read (ConfigMap.file (stackDir appDir app) app) = .ok text ∧ ConfigMap.print m = .ok text ∧
    (m.data.getD {}).find? param = some value ∧
    (m.ReadsBack → (ConfigMap.load (stackDir appDir app) app).answer t = .ok (some m))

/-- The parameter has the value in the list of the first application of the name, in place of its
first value or after all others. Nothing else is different. -/
def StoredInList (d : Deployment) (app param value : String) (d' : Deployment) : Prop :=
  ∃ before a after parameters, d.applications = before ++ a :: after ∧ FirstOf app before a ∧
    d' = { d with applications := before ++ { a with parameters } :: after } ∧
    ((∃ first p rest, a.parameters = first ++ p :: rest ∧ (∀ q ∈ first, q.name ≠ param) ∧
        p.name = param ∧ parameters = first ++ { p with value } :: rest) ∨
      ((∀ p ∈ a.parameters, p.name ≠ param) ∧ parameters = a.parameters ++ [⟨param, value⟩]))

/-! ## Runs -/

theorem storedInList_of_set? (h : d.set? app param value = some d') :
    StoredInList d app param value d' := by
  obtain ⟨before, a, after, happs, hfirst, rfl⟩ := set?_eq_some_iff.1 h
  exact ⟨before, a, after, _, happs, hfirst, rfl, setParameter_cases param value a.parameters⟩

theorem set_of_usesStacks (h : d.usesStacks = true) : d.set app param value =
    match d.appDir.filter (· ≠ "") with
    | none => throw (.missingAppDir app)
    | some appDir => do
      (ConfigMap.inject (stackDir appDir app) app param value).explain (.inject app param)
      return d := by
  rw [set]
  exact if_pos h

/-- Without stacks nothing can fail and no file is touched. -/
theorem run_set_of_not_usesStacks (h : d.usesStacks = false) (app param value : String)
    (t : FileTree) :
    (d.set app param value).run t = .ok ((d.set? app param value).getD d) t := by
  rw [set, h]
  rfl

/-- What is held is the answer, or what was held before if there is none. -/
theorem run_setInPlace (d : Deployment) (app param value : String) (t : FileTree) :
    (setInPlace app param value).run (d, t) =
      match (d.set app param value).run t with
      | .ok d' t' => .ok () (d', t')
      | .error e t' => .error e (d, t') := by
  rw [setInPlace, EStateM.run_bind, EStateM.run_get]
  cases h : d.usesStacks with
  | false =>
    rw [run_set_of_not_usesStacks h]
    simp only [h]
    rfl
  | true =>
    rw [set_of_usesStacks h]
    simp only [h, if_true]
    cases d.appDir.filter (· ≠ "") with
    | none => rfl
    | some appDir =>
      simp only [run_onFiles, Files.run_bind]
      cases ((ConfigMap.inject (stackDir appDir app) app param value).explain
        (SetError.inject app param)).run t <;> rfl

theorem heldAfter_of_run_ok (h : (d.set app param value).run t = .ok d' t') :
    d.heldAfter app param value t = d' := by
  rw [heldAfter, run_setInPlace, h]

theorem heldAfter_of_run_error {e : SetError} (h : (d.set app param value).run t = .error e t') :
    d.heldAfter app param value t = d := by
  rw [heldAfter, run_setInPlace, h]

theorem run_set_eq_ok_of_usesStacks (h : d.usesStacks = true)
    (hrun : (d.set app param value).run t = .ok d' t') :
    d' = d ∧ StoredInStack d app param value t' := by
  rw [set_of_usesStacks h] at hrun
  cases hdir : d.appDir.filter (· ≠ "") with
  | none =>
    rw [hdir] at hrun
    exact absurd hrun nofun
  | some appDir =>
    obtain ⟨happDir, hne⟩ := Option.filter_eq_some_iff.1 hdir
    rw [hdir] at hrun
    obtain ⟨⟨⟩, mid, hinject, hreturn⟩ := Files.run_bind_eq_ok_iff.1 hrun
    obtain ⟨rfl, rfl⟩ := EStateM.Result.ok.inj hreturn
    obtain ⟨start, -, registered, -, m, -, text, hprint, hwrite⟩ :=
      (ConfigMap.run_inject_eq_ok_iff (s := ⟨app, param, value⟩)).1
        (Files.run_explain_eq_ok_iff.1 hinject)
    have hread := FileTree.read_of_write hwrite
    refine ⟨rfl, appDir, happDir, by simpa using hne, _, text, hread, hprint, ?_, fun hback => ?_⟩
    · rw [ConfigMap.find?_setText, if_pos rfl]
    · exact Document.answer_load_eq_some_iff.2 ⟨text, hread, hback text hprint⟩

theorem heldAfter_of_usesStacks (h : d.usesStacks = true) :
    d.heldAfter app param value t = d := by
  cases hrun : (d.set app param value).run t with
  | ok d' t' => rw [heldAfter_of_run_ok hrun, (run_set_eq_ok_of_usesStacks h hrun).1]
  | error e t' => exact heldAfter_of_run_error hrun

/-- A value that has been set is stored, unless it is for an application that does not exist and
there are no stacks. -/
theorem set_stores (d : Deployment) (app param value : String) (t : FileTree) :
    (d.usesStacks = true → d.heldAfter app param value t = d ∧
      ∀ d' t', (d.set app param value).run t = .ok d' t' →
        d' = d ∧ StoredInStack d app param value t') ∧
    (d.usesStacks = false → ∃ d', (d.set app param value).run t = .ok d' t ∧
      d.heldAfter app param value t = d' ∧
      (d'.parameter? app param = some value ↔ (d.application? app).isSome) ∧
      ((d.application? app).isSome → StoredInList d app param value d') ∧
      (d.application? app = none → d' = d) ∧
      ∀ app' param', (app', param') ≠ (app, param) →
        d'.parameter? app' param' = d.parameter? app' param') ∧
    ∀ e t', (d.set app param value).run t = .error e t' →
      d.usesStacks = true ∧ d.heldAfter app param value t = d := by
  refine ⟨fun h => ⟨heldAfter_of_usesStacks h, fun d' t' => run_set_eq_ok_of_usesStacks h⟩,
    fun h => ?_, fun e t' hrun => ?_⟩
  · have hrun := run_set_of_not_usesStacks h app param value t
    refine ⟨_, hrun, heldAfter_of_run_ok hrun, ?_⟩
    cases hset : d.set? app param value with
    | none =>
      have hnone := set?_eq_none_iff.1 hset
      have hmissing : d.parameter? app param = none := by rw [parameter?, hnone]; rfl
      simp [hnone, hmissing]
    | some d' =>
      have hsome : (d.application? app).isSome := by
        rw [Option.isSome_iff_ne_none]
        exact fun hnone => Option.some_ne_none d' (hset.symm.trans (set?_eq_none_iff.2 hnone))
      refine ⟨iff_of_true ?_ hsome, fun _ => storedInList_of_set? hset, fun hnone => ?_, ?_⟩
      · rw [Option.getD_some, parameter?_eq, values_set hset, if_pos ⟨rfl, rfl⟩]
        rfl
      · rw [hnone] at hsome
        exact absurd hsome Bool.false_ne_true
      · intro app' param' hne
        rw [Option.getD_some, parameter?_eq, parameter?_eq, values_set hset,
          if_neg fun h => hne (Prod.ext h.1 h.2)]
  · refine ⟨?_, heldAfter_of_run_error hrun⟩
    by_contra h
    rw [run_set_of_not_usesStacks (Bool.eq_false_iff.2 h)] at hrun
    cases hrun

/-- An application whose stack has to be made, and one that is in a list. -/
theorem set_stores_of_stack :
    ∃ (d d' : Deployment) (t t' : FileTree),
      d = { appDir := some "d", applications := [⟨"kubeflow-apps", [], []⟩, ⟨"a", [], []⟩] } ∧
      d' = { applications := [⟨"a", [], [⟨"x", "0"⟩]⟩, ⟨"b", [], []⟩] } ∧ t = ⟨[], [], []⟩ ∧
      d.usesStacks = true ∧ (d.set "a" "x" "1").run t = .ok d t' ∧
      StoredInStack d "a" "x" "1" t' ∧
      d'.usesStacks = false ∧ ∃ d'', (d'.set "a" "x" "1").run t = .ok d'' t ∧
        d''.parameter? "a" "x" = some "1" ∧ StoredInList d' "a" "x" "1" d'' := by
  let d : Deployment :=
    { appDir := some "d", applications := [⟨"kubeflow-apps", [], []⟩, ⟨"a", [], []⟩] }
  let d' : Deployment := { applications := [⟨"a", [], [⟨"x", "0"⟩]⟩, ⟨"b", [], []⟩] }
  have hstacks : d.usesStacks = true := by decide
  have hlists : d'.usesStacks = false := by decide
  have hrun : (d.set "a" "x" "1").run ⟨[], [], []⟩ = .ok d _ :=
    Files.run_eq_ok_iff.2 ⟨by decide +kernel, rfl⟩
  obtain ⟨d'', hrun', -, hfound, hstored, -⟩ := (set_stores d' "a" "x" "1" ⟨[], [], []⟩).2.1 hlists
  exact ⟨d, d', _, _, rfl, rfl, rfl, hstacks, hrun,
    (((set_stores d "a" "x" "1" ⟨[], [], []⟩).1 hstacks).2 _ _ hrun).2, hlists, d'', hrun',
    hfound.2 (by decide), hstored (by decide)⟩

/-- Without stacks, setting a parameter of an application that does not exist succeeds and stores
nothing. -/
theorem set_ignores_missing_application :
    ∃ (d : Deployment) (t : FileTree), d = { applications := [⟨"a", [], []⟩] } ∧ t = ⟨[], [], []⟩ ∧
      (d.set "b" "x" "1").run t = .ok d t ∧ d.parameter? "b" "x" = none :=
  ⟨_, _, rfl, rfl, rfl, by decide⟩

end Deployment
end LayeredConfig
