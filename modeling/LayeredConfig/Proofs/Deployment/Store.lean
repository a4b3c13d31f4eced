/-
Parameters that are set in the lists of a deployment, one after the other.

A call changes the first parameter of its name in the first application of its name, and adds one
there if there is none. So the applications stay where they are, and the first of each name has its
list changed (`run_setInLists`). In that list each parameter stays where it is too and the first of
each name has the value that was set last; the names that are new come after them, in the order in
which they were set first (`Application.parameters_given`). A look-up finds the value that was set
last, whatever was set for others in between (`setInLists_stores`).
-/
import Mathlib
import LayeredConfig.Proofs.Deployment.Parameters
import LayeredConfig.Proofs.Edit.Content

namespace LayeredConfig

variable {d : Deployment} {a : Application} {l l' : List Setting} {s : Setting}
variable {ps : List Parameter} {name value : String}

namespace Deployment

/-! ## The first entry of each name -/

section Firsts

variable {α : Type} {key : α → String} {f g : α → α} {seen : List String} {as : List α}

/-- Changes the first entry of each name. Names in `seen` have come before. -/
def mapFirsts (key : α → String) (f : α → α) : List String → List α → List α
  | _, [] => []
  | seen, a :: as => (if key a ∈ seen then a else f a) :: mapFirsts key f (key a :: seen) as

theorem mapFirsts_append (key : α → String) (f : α → α) (seen : List String) (as bs : List α) :
    mapFirsts key f seen (as ++ bs) =
      mapFirsts key f seen as ++ mapFirsts key f ((as.map key).reverse ++ seen) bs := by
  induction as generalizing seen with
  | nil => rfl
  | cons a as ih =>
    rw [List.cons_append, mapFirsts, ih, mapFirsts, List.cons_append]
    simp

/-- Only the entries that are the first of their name count. -/
theorem mapFirsts_congr (h : ∀ a ∈ as, key a ∉ seen → f a = g a) :
    mapFirsts key f seen as = mapFirsts key g seen as := by
  induction as generalizing seen with
  | nil => rfl
  | cons a as ih =>
    obtain ⟨ha, has⟩ := List.forall_mem_cons.1 h
    rw [mapFirsts, mapFirsts, ih fun b hb hseen => has b hb fun hmem =>
      hseen (List.mem_cons_of_mem _ hmem)]
    by_cases hseen : key a ∈ seen
    · rw [if_pos hseen, if_pos hseen]
    · rw [if_neg hseen, if_neg hseen, ha hseen]

theorem mapFirsts_id (key : α → String) (seen : List String) (as : List α) :
    mapFirsts key id seen as = as := by
  induction as generalizing seen with
  | nil => rfl
  | cons a as ih => rw [mapFirsts, ih, id, ite_self]

theorem length_mapFirsts (key : α → String) (f : α → α) (seen : List String) (as : List α) :
    (mapFirsts key f seen as).length = as.length := by
  induction as generalizing seen with
  | nil => rfl
  | cons a as ih => rw [mapFirsts, List.length_cons, ih, List.length_cons]

/-- Each entry is in its place. -/
theorem getElem?_mapFirsts (key : α → String) (f : α → α) (seen : List String) (as : List α)
    (i : ℕ) : (mapFirsts key f seen as)[i]? =
      as[i]?.map fun a => if key a ∈ (as.take i).map key ∨ key a ∈ seen then a else f a := by
  induction as generalizing seen i with
  | nil => rfl
  | cons a as ih =>
    cases i with
    | zero => simp [mapFirsts]
    | succ i =>
      rw [mapFirsts, List.getElem?_cons_succ, List.getElem?_cons_succ, ih]
      refine congrArg (fun f => Option.map f as[i]?) (funext fun b => if_congr ?_ rfl rfl)
      rw [List.take_succ_cons, List.map_cons, List.mem_cons, List.mem_cons]
      tauto

/-- A change that keeps names is found under the name. -/
theorem find?_mapFirsts (hf : ∀ a, key (f a) = key a) (hname : name ∉ seen) :
    (mapFirsts key f seen as).find? (key · = name) = (as.find? (key · = name)).map f := by
  induction as generalizing seen with
  | nil => rfl
  | cons a as ih =>
    by_cases ha : key a = name
    · have hseen : key a ∉ seen := by rwa [ha]
      rw [mapFirsts, if_neg hseen, List.find?_cons_of_pos (by simpa [hf] using ha),
        List.find?_cons_of_pos (by simpa using ha)]
      rfl
    · have hrest : name ∉ key a :: seen := List.not_mem_cons_of_ne_of_not_mem (Ne.symm ha) hname
      have hkey : key (if key a ∈ seen then a else f a) ≠ name := by
        split
        · exact ha
        · rwa [hf]
      rw [mapFirsts, List.find?_cons_of_neg (by simpa using hkey),
        List.find?_cons_of_neg (by simpa using ha), ih hrest]

/-- A further change of one name. -/
theorem updateFirst?_mapFirsts (key : α → String) (f g : α → α) (as : List α)
    (hf : ∀ a, key (f a) = key a) (hname : name ∉ seen) :
    updateFirst? (key · = name) g (mapFirsts key f seen as) = if name ∈ as.map key
      then some (mapFirsts key (fun a => if key a = name then g (f a) else f a) seen as)
      else none := by
  induction as generalizing seen with
  | nil => rfl
  | cons a as ih =>
    by_cases ha : key a = name
    · have hseen : key a ∉ seen := by rwa [ha]
      have hrest : mapFirsts key (fun a => if key a = name then g (f a) else f a)
          (key a :: seen) as = mapFirsts key f (key a :: seen) as := by
        refine mapFirsts_congr fun b _ hb => if_neg ?_
        rintro hbname
        exact hb (by rw [hbname, ha]; exact List.mem_cons_self)
      rw [mapFirsts, if_neg hseen, updateFirst?, if_pos (by simpa [hf] using ha),
        if_pos (by simp [ha]), mapFirsts, if_neg hseen, if_pos ha, hrest]
    · have hrest : name ∉ key a :: seen := List.not_mem_cons_of_ne_of_not_mem (Ne.symm ha) hname
      have hkey : key (if key a ∈ seen then a else f a) ≠ name := by
        split
        · exact ha
        · rwa [hf]
      rw [mapFirsts, updateFirst?, if_neg (by simpa using hkey), ih hrest, mapFirsts, if_neg ha]
      by_cases hmem : name ∈ as.map key
      · rw [if_pos hmem, List.map_cons, if_pos (List.mem_cons_of_mem _ hmem)]
        rfl
      · rw [if_neg hmem, List.map_cons,
          if_neg (List.not_mem_cons_of_ne_of_not_mem (Ne.symm ha) hmem)]
        rfl

end Firsts

end Deployment

/-! ## Lists of parameters -/

namespace Parameter

open Deployment (mapFirsts)

/-- The list with new values: the first parameter of each name gets the one for the name, if there
is one. Names in `seen` have come before. -/
def assign (value? : String → Option String) (seen : List String) (ps : List Parameter) :
    List Parameter :=
  mapFirsts (·.name) (fun p => { p with value := (value? p.name).getD p.value }) seen ps

variable {value? : String → Option String} {seen : List String}

theorem assign_none (seen : List String) (ps : List Parameter) :
    assign (fun _ => none) seen ps = ps :=
  Deployment.mapFirsts_id (fun p : Parameter => p.name) seen ps

/-- Names that are all new and all different. -/
theorem assign_fresh {names : List String} (hnd : names.Nodup) (hseen : ∀ n ∈ names, n ∉ seen) :
    assign value? seen (names.map fun n => ⟨n, ""⟩) =
      names.map fun n => ⟨n, (value? n).getD ""⟩ := by
  induction names generalizing seen with
  | nil => rfl
  | cons n names ih =>
    obtain ⟨hn, hrest⟩ := List.nodup_cons.1 hnd
    obtain ⟨hfirst, hothers⟩ := List.forall_mem_cons.1 hseen
    rw [List.map_cons, assign, mapFirsts, if_neg hfirst, ← assign, List.map_cons,
      ih hrest fun m hm => ?_]
    have hne : m ≠ n := fun heq => hn (by rwa [heq] at hm)
    rw [List.mem_cons, not_or]
    exact ⟨hne, hothers m hm⟩

/-- Setting a parameter gives its first entry another value, or the entry that is new. -/
theorem setParameter_assign (name value : String) (ps : List Parameter) :
    Deployment.setParameter name value (assign value? [] ps) =
      assign (fun n => if n = name then some value else value? n) []
        (if name ∈ ps.map (·.name) then ps else ps ++ [⟨name, ""⟩]) := by
  have hset := Deployment.updateFirst?_mapFirsts (·.name)
    (fun p : Parameter => { p with value := (value? p.name).getD p.value })
    (fun p => { p with value }) ps (fun _ => rfl) (List.not_mem_nil (a := name))
  rw [Deployment.setParameter, assign, hset]
  by_cases hmem : name ∈ ps.map (·.name)
  · rw [if_pos hmem, if_pos hmem, assign]
    refine Deployment.mapFirsts_congr fun p _ _ => ?_
    by_cases hp : p.name = name <;> simp [hp]
  · rw [if_neg hmem, if_neg hmem, assign, Deployment.mapFirsts_append]
    have hold : mapFirsts (·.name) (fun p : Parameter =>
          { p with value := (if p.name = name then some value else value? p.name).getD p.value })
          [] ps =
        mapFirsts (·.name) (fun p => { p with value := (value? p.name).getD p.value }) [] ps := by
      refine Deployment.mapFirsts_congr fun p hp _ => ?_
      have hne : p.name ≠ name := by
        rintro rfl
        exact hmem (List.mem_map_of_mem hp)
      rw [if_neg hne]
    have hseen : name ∉ (ps.map (·.name)).reverse ++ [] := by
      rwa [List.append_nil, List.mem_reverse]
    rw [hold, mapFirsts, if_neg hseen, if_pos rfl]
    rfl

end Parameter

/-! ## Calls -/

namespace Application

/-- The list of an application of this name after several calls, when it is the first of the name. -/
def settle (app : String) (ps : List Parameter) (l : List Setting) : List Parameter :=
  l.foldl (fun ps s => if s.app = app then Deployment.setParameter s.param s.value ps else ps) ps

/-- The application with its list after several calls. -/
def given (l : List Setting) (a : Application) : Application :=
  { a with parameters := settle a.name a.parameters l }

/-- The names that several calls add to an application, in the order in which they are set first. -/
def added (l : List Setting) (a : Application) : List String :=
  ((l.filter fun s => s.app = a.name ∧ s.param ∉ a.parameters.map (·.name)).map
    (·.param)).eraseDups

theorem given_append (l : List Setting) (s : Setting) (a : Application) :
    a.given (l ++ [s]) = if s.app = a.name
      then { a.given l with
        parameters := Deployment.setParameter s.param s.value (a.given l).parameters }
      else a.given l := by
  rw [given, settle, List.foldl_append]
  by_cases hs : s.app = a.name <;> simp [given, settle, hs]

theorem parameters_given_append (l : List Setting) (s : Setting) (a : Application) :
    (a.given (l ++ [s])).parameters = if s.app = a.name
      then Deployment.setParameter s.param s.value (a.given l).parameters
      else (a.given l).parameters := by
  rw [given_append]
  split <;> rfl

theorem eraseDups_append_singleton (names : List String) (name : String) :
    (names ++ [name]).eraseDups =
      names.eraseDups ++ if name ∉ names.eraseDups then [name] else [] := by
  rw [List.eraseDups_append]
  by_cases hmem : name ∈ names <;> simp [List.removeAll, List.eraseDups_cons, hmem]

theorem added_append (l : List Setting) (s : Setting) (a : Application) :
    a.added (l ++ [s]) = a.added l ++
      if s.app = a.name ∧ s.param ∉ a.parameters.map (·.name) ∧ s.param ∉ a.added l
      then [s.param] else [] := by
  by_cases hs : s.app = a.name ∧ s.param ∉ a.parameters.map (·.name)
  · have hone : ([s].filter fun s => s.app = a.name ∧ s.param ∉ a.parameters.map (·.name)) =
        [s] := by simpa using hs
    rw [added, List.filter_append, List.map_append, hone]
    refine (eraseDups_append_singleton _ s.param).trans (congrArg _ ?_)
    rw [← added]
    exact if_congr (by tauto) rfl rfl
  · have hnone : ([s].filter fun s => s.app = a.name ∧ s.param ∉ a.parameters.map (·.name)) =
        [] := by simpa using hs
    rw [added, List.filter_append, List.map_append, hnone, if_neg (by tauto)]
    rw [List.map_nil, List.append_nil, List.append_nil, added]

theorem nodup_added (l : List Setting) (a : Application) : (a.added l).Nodup := by
  induction l using List.reverseRecOn with
  | nil => exact List.nodup_nil
  | append_singleton l s ih =>
    rw [added_append]
    split
    · next hs => exact ih.append (List.nodup_singleton _) (by simpa using hs.2.2)
    · rwa [List.append_nil]

theorem not_mem_of_mem_added (h : name ∈ a.added l) : name ∉ a.parameters.map (·.name) := by
  rw [added, List.mem_eraseDups] at h
  obtain ⟨s, hs, rfl⟩ := List.mem_map.1 h
  exact (of_decide_eq_true (List.mem_filter.1 hs).2).2

/-- Each name has the value that was set last, in its old place or in a new one at the end. -/
theorem parameters_given (l : List Setting) (a : Application) : (a.given l).parameters =
    Parameter.assign (Setting.last? l a.name) []
      (a.parameters ++ (a.added l).map fun n => ⟨n, ""⟩) := by
  induction l using List.reverseRecOn with
  | nil =>
    have hnone : Setting.last? [] a.name = fun _ => none := rfl
    rw [hnone, Parameter.assign_none]
    exact (List.append_nil _).symm
  | append_singleton l s ih =>
    rw [parameters_given_append, ih, added_append]
    by_cases hs : s.app = a.name
    · have hlast : Setting.last? (l ++ [s]) a.name =
          fun n => if n = s.param then some s.value else Setting.last? l a.name n := by
        refine funext fun n => ?_
        rw [Setting.last?_append_singleton]
        simp only [hs, true_and, eq_comm]
      have hiff : s.param ∈
          (a.parameters ++ (a.added l).map fun n => (⟨n, ""⟩ : Parameter)).map (·.name) ↔
          s.param ∈ a.parameters.map (·.name) ∨ s.param ∈ a.added l := by
        simp [Function.comp_def]
      rw [if_pos hs, hlast, Parameter.setParameter_assign]
      by_cases hmem : s.param ∈ a.parameters.map (·.name) ∨ s.param ∈ a.added l
      · rw [if_pos (hiff.2 hmem), if_neg (by tauto), List.append_nil]
      · rw [if_neg (mt hiff.1 hmem), if_pos (by tauto), List.map_append, ← List.append_assoc]
        rfl
    · have hlast : Setting.last? (l ++ [s]) a.name = Setting.last? l a.name := by
        refine funext fun n => ?_
        rw [Setting.last?_append_singleton, if_neg fun h => hs h.1]
      rw [if_neg hs, if_neg fun h => hs h.1, List.append_nil, hlast]

/-- The application after several calls, by the places of its list. -/
structure Updated (l : List Setting) (a a' : Application) : Prop where
  name : a'.name = a.name
  overlays : a'.overlays = a.overlays
  kept : ∀ (j : ℕ) (p : Parameter), a.parameters[j]? = some p → a'.parameters[j]? = some
    (if p.name ∈ (a.parameters.take j).map (·.name) then p
     else { p with value := (Setting.last? l a.name p.name).getD p.value })
  new : a'.parameters.drop a.parameters.length =
    (a.added l).map fun n => ⟨n, (Setting.last? l a.name n).getD ""⟩

theorem updated_given (l : List Setting) (a : Application) : Updated l a (a.given l) := by
  refine ⟨rfl, rfl, fun j p hp => ?_, ?_⟩
  · have hj : j < a.parameters.length := (List.getElem?_eq_some_iff.1 hp).1
    rw [parameters_given, Parameter.assign, Deployment.getElem?_mapFirsts,
      List.getElem?_append_left hj, hp, List.take_append_of_le_length hj.le]
    simp
  · have hlen := Deployment.length_mapFirsts (·.name)
      (fun p : Parameter => { p with value := (Setting.last? l a.name p.name).getD p.value }) []
      a.parameters
    rw [parameters_given, Parameter.assign, Deployment.mapFirsts_append, ← hlen, List.drop_left]
    refine Parameter.assign_fresh (nodup_added l a) fun n hn => ?_
    simpa using not_mem_of_mem_added hn

theorem parameter?_given (l : List Setting) (a : Application) (param : String) :
    (a.given l).parameter? param = (Setting.last? l a.name param).or (a.parameter? param) := by
  induction l using List.reverseRecOn with
  | nil => rfl
  | append_singleton l s ih =>
    rw [Setting.last?_append_singleton, parameter?_eq, parameters_given_append]
    by_cases happ : s.app = a.name
    · rw [if_pos happ, Deployment.values_setParameter]
      by_cases hparam : param = s.param
      · rw [if_pos hparam, if_pos ⟨happ, hparam.symm⟩]
        rfl
      · rw [if_neg hparam, if_neg fun h => hparam h.2.symm, ← ih, parameter?_eq]
    · rw [if_neg happ, if_neg fun h => happ h.1, ← ih, parameter?_eq]

end Application

namespace Deployment

/-! ## Deployments -/

/-- A call: whether there is such an application, and the deployment with the parameter set. -/
def setInList (s : Setting) : StateM Deployment Bool := fun d =>
  match d.set? s.app s.param s.value with
  | some d' => (true, d')
  | none => (false, d)

/-- Calls one after the other, with their answers. -/
def setInLists (l : List Setting) : StateM Deployment (List Bool) := l.mapM setInList

/-- The deployment after several calls. -/
def setAll (l : List Setting) (d : Deployment) : Deployment :=
  { d with applications := mapFirsts (·.name) (Application.given l) [] d.applications }

theorem application?_setAll (l : List Setting) (d : Deployment) (app : String) :
    (d.setAll l).application? app = (d.application? app).map (Application.given l) :=
  find?_mapFirsts (fun _ => rfl) List.not_mem_nil

theorem parameter?_setAll (l : List Setting) (d : Deployment) (app param : String) :
    (d.setAll l).parameter? app param = if (d.application? app).isSome
      then (Setting.last? l app param).or (d.parameter? app param)
      else d.parameter? app param := by
  rw [parameter?, application?_setAll, parameter?]
  cases h : d.application? app with
  | none => rfl
  | some a =>
    have hname : a.name = app := by simpa using List.find?_some h
    simpa [hname] using a.parameter?_given l param

theorem run_setInList_of_none (h : d.application? s.app = none) :
    (setInList s).run d = (false, d) := by
  rw [StateT.run, setInList, set?_eq_none_iff.2 h]

theorem application?_eq_none_iff {app : String} :
    d.application? app = none ↔ app ∉ d.applications.map (·.name) := by
  simp [application?]

/-- A call changes what calls before it have left as it changes the deployment that they found. -/
theorem run_setInList_setAll (s : Setting) (l : List Setting) (d : Deployment) :
    (setInList s).run (d.setAll l) = ((d.application? s.app).isSome, d.setAll (l ++ [s])) := by
  have hupdate := updateFirst?_mapFirsts (·.name) (Application.given l)
    (fun a => { a with parameters := setParameter s.param s.value a.parameters }) d.applications
    (fun _ => rfl) (List.not_mem_nil (a := s.app))
  have hgiven (a : Application) (_ : a ∈ d.applications) (_ : a.name ∉ ([] : List String)) :
      (if a.name = s.app then { a.given l with
          parameters := setParameter s.param s.value (a.given l).parameters } else a.given l) =
        a.given (l ++ [s]) := by
    rw [Application.given_append]
    exact if_congr eq_comm rfl rfl
  cases happ : d.application? s.app with
  | none =>
    have hmem := application?_eq_none_iff.1 happ
    rw [if_neg hmem] at hupdate
    rw [StateT.run, setInList, set?, setAll, hupdate]
    refine congrArg (Prod.mk false) (congrArg (fun as => { d with applications := as }) ?_)
    refine mapFirsts_congr fun a ha hseen => ?_
    have hne : a.name ≠ s.app := by
      intro heq
      exact hmem (by rw [← heq]; exact List.mem_map_of_mem ha)
    rw [← hgiven a ha hseen, if_neg hne]
  | some a =>
    have hmem : s.app ∈ d.applications.map (·.name) := by
      by_contra hmem
      rw [application?_eq_none_iff.2 hmem] at happ
      cases happ
    rw [if_pos hmem, mapFirsts_congr hgiven] at hupdate
    rw [StateT.run, setInList, set?, setAll, hupdate]
    rfl

/-- A call succeeds exactly when there is an application of the name, whatever was set before. -/
theorem run_setInLists (l : List Setting) (d : Deployment) :
    (setInLists l).run d = (l.map fun s => (d.application? s.app).isSome, d.setAll l) := by
  induction l using List.reverseRecOn with
  | nil =>
    have hfirsts : mapFirsts (·.name) (Application.given []) [] d.applications = d.applications :=
      mapFirsts_id (·.name) [] d.applications
    rw [setAll, hfirsts]
    rfl
  | append_singleton l s ih =>
    rw [setInLists, List.mapM_append, ← setInLists, StateT.run_bind, ih, List.map_append]
    exact congrArg (fun p : Bool × Deployment => (_ ++ [p.1], p.2)) (run_setInList_setAll s l d)

/-- The lists are a store. A call fails when there is no application of the name, and then nothing
changes; a look-up finds the value that was set last. In the first application of a name the
parameters keep their places and those that are new come at the end; all else is as it was. Only the
order of the calls for one parameter counts. -/
theorem setInLists_stores (d : Deployment) (l : List Setting) :
    ∃ d', (setInLists l).run d =
        (l.map fun s => decide (s.app ∈ d.applications.map (·.name)), d') ∧
      (∀ l₁ s l₂, l = l₁ ++ s :: l₂ → s.app ∉ d.applications.map (·.name) →
        (setInList s).run ((setInLists l₁).run d).2 = (false, ((setInLists l₁).run d).2)) ∧
      (∀ app param, d'.parameter? app param = if app ∈ d.applications.map (·.name)
        then (Setting.last? l app param).or (d.parameter? app param)
        else d.parameter? app param) ∧
      d' = { d with applications := d'.applications } ∧
      d'.applications.length = d.applications.length ∧
      (∀ i a, d.applications[i]? = some a → ∃ a', d'.applications[i]? = some a' ∧
        if a.name ∈ (d.applications.take i).map (·.name) then a' = a
        else Application.Updated l a a') ∧
      ∀ l', (∀ app param, l'.filter (fun s => s.app = app ∧ s.param = param) =
          l.filter fun s => s.app = app ∧ s.param = param) →
        ∀ app param, ((setInLists l').run d).2.parameter? app param = d'.parameter? app param := by
  have hsome (app : String) :
      (d.application? app).isSome = decide (app ∈ d.applications.map (·.name)) := by
    rw [Bool.eq_iff_iff, decide_eq_true_iff, ← not_iff_not, ← application?_eq_none_iff]
    simp
  refine ⟨d.setAll l, ?_, fun l₁ s l₂ _ hs => ?_, fun app param => ?_, rfl,
    length_mapFirsts _ _ _ _, fun i a ha => ?_, fun l' hl app param => ?_⟩
  · rw [run_setInLists]
    simp only [hsome]
  · rw [run_setInLists, run_setInList_of_none]
    rw [application?_setAll, application?_eq_none_iff.2 hs]
    rfl
  · rw [parameter?_setAll, hsome]
    simp only [decide_eq_true_eq]
  · rw [setAll, getElem?_mapFirsts, ha]
    refine ⟨_, rfl, ?_⟩
    by_cases hseen : a.name ∈ (d.applications.take i).map (·.name)
    · rw [if_pos hseen]
      exact if_pos (.inl hseen)
    · rw [if_neg hseen]
      beta_reduce
      rw [if_neg (not_or_intro hseen List.not_mem_nil)]
      exact Application.updated_given l a
  · rw [run_setInLists, parameter?_setAll, parameter?_setAll, Setting.last?, Setting.last?, hl]

/-- Two applications of one name, a parameter that is given twice, and a call for an application
that is not there. -/
theorem setInLists_stores_of_repeated :
    ∃ d d' : Deployment, ∃ l l' : List Setting,
      d = { applications := [⟨"a", ["x"], [⟨"p", "1"⟩, ⟨"p", "2"⟩]⟩, ⟨"b", [], []⟩,
        ⟨"a", [], [⟨"q", "3"⟩]⟩] } ∧
      l = [⟨"a", "q", "4"⟩, ⟨"c", "p", "0"⟩, ⟨"a", "p", "5"⟩, ⟨"a", "q", "6"⟩] ∧
      l' = [⟨"a", "p", "5"⟩, ⟨"a", "q", "4"⟩, ⟨"a", "q", "6"⟩, ⟨"c", "p", "0"⟩] ∧
      (setInLists l).run d = ([true, false, true, true], d') ∧
      d'.applications = [⟨"a", ["x"], [⟨"p", "5"⟩, ⟨"p", "2"⟩, ⟨"q", "6"⟩]⟩, ⟨"b", [], []⟩,
        ⟨"a", [], [⟨"q", "3"⟩]⟩] ∧
      d'.parameter? "a" "q" = some "6" ∧ d'.parameter? "c" "p" = none ∧
      ((setInLists l').run d).2.parameter? "a" "q" = some "6" := by
  let d : Deployment := { applications := [⟨"a", ["x"], [⟨"p", "1"⟩, ⟨"p", "2"⟩]⟩, ⟨"b", [], []⟩,
    ⟨"a", [], [⟨"q", "3"⟩]⟩] }
  let l : List Setting :=
    [⟨"a", "q", "4"⟩, ⟨"c", "p", "0"⟩, ⟨"a", "p", "5"⟩, ⟨"a", "q", "6"⟩]
  let l' : List Setting :=
    [⟨"a", "p", "5"⟩, ⟨"a", "q", "4"⟩, ⟨"a", "q", "6"⟩, ⟨"c", "p", "0"⟩]
  obtain ⟨d', hrun, -, hlookup, -, -, -, horder⟩ := setInLists_stores d l
  have hq : d'.parameter? "a" "q" = some "6" := (hlookup "a" "q").trans (by decide)
  have hl : ∀ app param, l'.filter (fun s => s.app = app ∧ s.param = param) =
      l.filter fun s => s.app = app ∧ s.param = param := by
    intro app param
    simp only [l, l', List.filter_cons]
    by_cases hp : "p" = param
    · subst hp
      by_cases ha : "a" = app
      · subst ha
        decide
      · simp [ha]
    · simp [hp]
  refine ⟨d, d', l, l', rfl, rfl, rfl, hrun.trans (congrArg (·, d') (by decide)), ?_, hq,
    (hlookup "c" "p").trans (by decide), (horder l' hl "a" "q").trans hq⟩
  have hd : d' = d.setAll l := congrArg Prod.snd (hrun.symm.trans (run_setInLists l d))
  rw [hd]
  decide

end Deployment
end LayeredConfig
