/-
Parameters of applications, as they are read and as they are set.

A parameter list may give several values for one name. Looking a parameter up takes the first of
them and composing takes the last, while setting a parameter replaces the first. So the two agree
only on lists in which the first and the last value are the same (`Deployment.readers_agree_iff`).
-/
import LayeredConfig.Deployment.Basic
import LayeredConfig.Proofs.Dict
import Mathlib.Data.List.Induction

namespace LayeredConfig

variable {d d' : Deployment} {app param value : String} {name : String} {ps : List Parameter}

/-! ## The first entry that satisfies a condition -/

namespace Deployment

variable {α : Type} {p : α → Bool} {f : α → α} {l l' : List α}

theorem updateFirst?_eq_none_iff : updateFirst? p f l = none ↔ ∀ a ∈ l, p a = false := by
  induction l with
  | nil => simp [updateFirst?]
  | cons a l ih =>
    rw [updateFirst?, List.forall_mem_cons]
    cases hp : p a with
    | true => simp
    | false => simp [ih]

theorem updateFirst?_eq_some_iff : updateFirst? p f l = some l' ↔
    ∃ before a after, l = before ++ a :: after ∧ (∀ b ∈ before, p b = false) ∧ p a = true ∧
      l' = before ++ f a :: after := by
  induction l generalizing l' with
  | nil => simp [updateFirst?]
  | cons a l ih =>
    rw [updateFirst?]
    cases hp : p a with
    | true =>
      rw [if_pos rfl, Option.some.injEq]
      constructor
      · rintro rfl
        exact ⟨[], a, l, rfl, fun b hb => absurd hb List.not_mem_nil, hp, rfl⟩
      · rintro ⟨before, b, after, heq, hbefore, hb, rfl⟩
        cases before with
        | nil =>
          obtain ⟨rfl, rfl⟩ := List.cons.inj heq
          rfl
        | cons c before =>
          obtain ⟨rfl, -⟩ := List.cons.inj heq
          rw [hbefore a List.mem_cons_self] at hp
          exact absurd hp nofun
    | false =>
      rw [if_neg (by simp), Option.map_eq_some_iff]
      constructor
      · rintro ⟨l'', hl'', rfl⟩
        obtain ⟨before, b, after, rfl, hbefore, hb, rfl⟩ := ih.1 hl''
        exact ⟨a :: before, b, after, rfl, List.forall_mem_cons.2 ⟨hp, hbefore⟩, hb, rfl⟩
      · rintro ⟨before, b, after, heq, hbefore, hb, rfl⟩
        cases before with
        | nil =>
          obtain ⟨rfl, -⟩ := List.cons.inj heq
          rw [hb] at hp
          exact absurd hp nofun
        | cons c before =>
          obtain ⟨rfl, rfl⟩ := List.cons.inj heq
          refine ⟨_, ih.2 ⟨before, b, after, rfl, ?_, hb, rfl⟩, rfl⟩
          exact (List.forall_mem_cons.1 hbefore).2

end Deployment

/-! ## Parameter lists -/

namespace Parameter

/-- The values that a list gives for a name, in its order. -/
def values (ps : List Parameter) (name : String) : List String :=
  (ps.filter (·.name = name)).map (·.value)

@[simp]
theorem values_nil (name : String) : values [] name = [] := rfl

theorem values_append (ps qs : List Parameter) (name : String) :
    values (ps ++ qs) name = values ps name ++ values qs name := by
  rw [values, List.filter_append, List.map_append, ← values, ← values]

theorem values_cons (p : Parameter) (ps : List Parameter) (name : String) :
    values (p :: ps) name =
      if p.name = name then p.value :: values ps name else values ps name := by
  by_cases h : p.name = name <;> simp [values, h]

theorem values_of_forall_ne (h : ∀ p ∈ ps, p.name ≠ name) : values ps name = [] := by
  rw [values, List.map_eq_nil_iff, List.filter_eq_nil_iff]
  simpa using h

theorem find?_dict (ps : List Parameter) (name : String) :
    (dict ps).find? name = (values ps name).getLast? := by
  induction ps using List.reverseRecOn with
  | nil => rfl
  | append_singleton ps p ih =>
    have hstep : dict (ps ++ [p]) = (dict ps).insert p.name p.value := by
      simp [dict, Dict.ofList]
    rw [hstep, Dict.find?_insert, ih, values_append, values_cons]
    by_cases h : p.name = name
    · simp [h]
    · simp [h, Ne.symm h, values]

theorem find?_dict_of_forall_ne (h : ∀ p ∈ ps, p.name ≠ name) : (dict ps).find? name = none := by
  rw [find?_dict, values_of_forall_ne h, List.getLast?_nil]

end Parameter

namespace Application

theorem parameter?_eq (a : Application) (name : String) :
    a.parameter? name = (Parameter.values a.parameters name).head? := by
  rw [parameter?, Parameter.values, List.head?_map, List.head?_filter]

end Application

namespace Deployment

/-- Setting a parameter replaces its first value, or adds one. -/
theorem setParameter_cases (name value : String) (ps : List Parameter) :
    (∃ before p after, ps = before ++ p :: after ∧ (∀ q ∈ before, q.name ≠ name) ∧ p.name = name ∧
      setParameter name value ps = before ++ { p with value } :: after) ∨
    ((∀ p ∈ ps, p.name ≠ name) ∧ setParameter name value ps = ps ++ [⟨name, value⟩]) := by
  rw [setParameter]
  cases h : updateFirst? (·.name = name) (fun p => { p with value }) ps with
  | none =>
    refine .inr ⟨fun p hp => ?_, rfl⟩
    simpa using updateFirst?_eq_none_iff.1 h p hp
  | some ps' =>
    obtain ⟨before, p, after, rfl, hbefore, hp, rfl⟩ := updateFirst?_eq_some_iff.1 h
    exact .inl ⟨before, p, after, rfl, by simpa using hbefore, by simpa using hp, rfl⟩

theorem values_setParameter (name value : String) (ps : List Parameter) (other : String) :
    Parameter.values (setParameter name value ps) other =
      if other = name then value :: (Parameter.values ps name).tail
      else Parameter.values ps other := by
  rcases setParameter_cases name value ps with
    ⟨before, p, after, rfl, hbefore, rfl, hset⟩ | ⟨hnone, hset⟩
  · rw [hset, Parameter.values_append, Parameter.values_cons, Parameter.values_append,
      Parameter.values_cons, if_pos rfl]
    by_cases hother : other = p.name
    · subst hother
      simp [Parameter.values_of_forall_ne hbefore]
    · simp [Parameter.values_append, Parameter.values_cons, hother, Ne.symm hother]
  · rw [hset, Parameter.values_append, Parameter.values_cons]
    by_cases hother : other = name
    · subst hother
      rw [Parameter.values_of_forall_ne hnone]
      simp
    · simp [hother, Ne.symm hother]

/-! ## Deployments -/

/-- The values that the parameter list of an application gives for a name. -/
def values (d : Deployment) (app param : String) : List String :=
  (d.application? app).elim [] fun a => Parameter.values a.parameters param

/-- The value of a parameter as composing an application takes it. -/
def composedParameter? (d : Deployment) (app param : String) : Option String :=
  (d.application? app).bind fun a => (Parameter.dict a.parameters).find? param

theorem parameter?_eq (d : Deployment) (app param : String) :
    d.parameter? app param = (d.values app param).head? := by
  rw [parameter?, values]
  cases d.application? app with
  | none => rfl
  | some a => exact a.parameter?_eq param

theorem composedParameter?_eq (d : Deployment) (app param : String) :
    d.composedParameter? app param = (d.values app param).getLast? := by
  rw [composedParameter?, values]
  cases d.application? app with
  | none => rfl
  | some a => exact Parameter.find?_dict a.parameters param

/-- The application is the first one of its name in the list. -/
structure FirstOf (app : String) (before : List Application) (a : Application) : Prop where
  name : a.name = app
  earlier : ∀ b ∈ before, b.name ≠ app

theorem FirstOf.find?_eq {before : List Application} {a : Application} (h : FirstOf app before a)
    (after : List Application) (other : String) :
    (before ++ a :: after).find? (·.name = other) =
      if other = app then some a else (before ++ after).find? (·.name = other) := by
  obtain ⟨rfl, hbefore⟩ := h
  rw [List.find?_append, List.find?_append, List.find?_cons]
  by_cases hother : other = a.name
  · subst hother
    have hnone : before.find? (·.name = a.name) = none := by simpa using hbefore
    simp [hnone]
  · simp [hother, Ne.symm hother]

/-- Setting a parameter changes the first application of the name and nothing else. -/
theorem set?_eq_some_iff : d.set? app param value = some d' ↔
    ∃ before a after, d.applications = before ++ a :: after ∧ FirstOf app before a ∧
      d' = { d with applications :=
        before ++ { a with parameters := setParameter param value a.parameters } :: after } := by
  rw [set?, Option.map_eq_some_iff]
  constructor
  · rintro ⟨l, hl, rfl⟩
    obtain ⟨before, a, after, heq, hbefore, ha, rfl⟩ := updateFirst?_eq_some_iff.1 hl
    exact ⟨before, a, after, heq, ⟨by simpa using ha, by simpa using hbefore⟩, rfl⟩
  · rintro ⟨before, a, after, heq, ⟨ha, hbefore⟩, rfl⟩
    refine ⟨_, updateFirst?_eq_some_iff.2 ⟨before, a, after, heq, ?_, ?_, rfl⟩, rfl⟩
    · simpa using hbefore
    · simpa using ha

theorem set?_eq_none_iff : d.set? app param value = none ↔ d.application? app = none := by
  rw [set?, Option.map_eq_none_iff, updateFirst?_eq_none_iff, application?, List.find?_eq_none]
  simp

theorem values_set (h : d.set? app param value = some d') (app' param' : String) :
    d'.values app' param' =
      if app' = app ∧ param' = param then value :: (d.values app param).tail
      else d.values app' param' := by
  obtain ⟨before, a, after, heq, hfirst, rfl⟩ := set?_eq_some_iff.1 h
  have hfirst' : FirstOf app before { a with parameters := setParameter param value a.parameters } :=
    ⟨hfirst.name, hfirst.earlier⟩
  have hold (other : String) : d.application? other = if other = app then some a
      else (before ++ after).find? (·.name = other) := by
    rw [application?, heq, hfirst.find?_eq]
  have hnew (other : String) := hfirst'.find?_eq after other
  rw [values, application?, hnew, values, hold, values, hold, if_pos rfl]
  by_cases happ : app' = app
  · rw [if_pos happ, if_pos happ]
    simp only [happ, Option.elim, true_and]
    exact values_setParameter param value a.parameters param'
  · rw [if_neg happ, if_neg happ, if_neg fun h => happ h.1]

/-- A parameter is looked up by its first value and composed with its last. Setting it replaces the
first. -/
theorem readers_agree_iff (d : Deployment) (app param value : String) :
    d.parameter? app param = (d.values app param).head? ∧
    d.composedParameter? app param = (d.values app param).getLast? ∧
    (d.parameter? app param = d.composedParameter? app param ↔
      (d.values app param).head? = (d.values app param).getLast?) ∧
    ((d.set? app param value).isSome ↔ (d.application? app).isSome) ∧
    ∀ d', d.set? app param value = some d' →
      d'.parameter? app param = some value ∧
      (d'.composedParameter? app param = some value ↔
        (d.values app param).length ≤ 1 ∨ (d.values app param).getLast? = some value) := by
  refine ⟨d.parameter?_eq app param, d.composedParameter?_eq app param, ?_, ?_, fun d' hset => ?_⟩
  · rw [parameter?_eq, composedParameter?_eq]
  · have hnone : d.set? app param value = none ↔ d.application? app = none := set?_eq_none_iff
    rw [← not_iff_not]
    simpa using hnone
  · have hvalues := values_set hset app param
    rw [if_pos ⟨rfl, rfl⟩] at hvalues
    rw [parameter?_eq, composedParameter?_eq, hvalues]
    refine ⟨rfl, ?_⟩
    cases d.values app param with
    | nil => simp
    | cons v rest =>
      cases rest with
      | nil => simp
      | cons w rest => simp

/-- A parameter that is given twice and set to its last value. -/
theorem readers_agree_iff_of_repeated :
    ∃ d d' : Deployment,
      d = { applications := [⟨"a", [], [⟨"x", "1"⟩, ⟨"y", "0"⟩, ⟨"x", "2"⟩]⟩] } ∧
      d.set? "a" "x" "2" = some d' ∧ d.parameter? "a" "x" ≠ d.composedParameter? "a" "x" ∧
      d'.parameter? "a" "x" = some "2" ∧ d'.composedParameter? "a" "x" = some "2" := by
  let d : Deployment := { applications := [⟨"a", [], [⟨"x", "1"⟩, ⟨"y", "0"⟩, ⟨"x", "2"⟩]⟩] }
  obtain ⟨-, -, hbefore, -, hset⟩ := readers_agree_iff d "a" "x" "2"
  obtain ⟨hlookup, hcompose⟩ := hset _ rfl
  exact ⟨d, _, rfl, rfl, fun h => absurd (hbefore.1 h) (by decide), hlookup,
    hcompose.2 (.inr (by decide))⟩

/-- Two values of one parameter: the first is looked up and the second is composed with, also after
the parameter has been set. -/
theorem readers_disagree :
    ∃ d d' : Deployment, d = { applications := [⟨"a", [], [⟨"x", "1"⟩, ⟨"x", "2"⟩]⟩] } ∧
      d.parameter? "a" "x" = some "1" ∧ d.composedParameter? "a" "x" = some "2" ∧
      d.set? "a" "x" "3" = some d' ∧
      d'.parameter? "a" "x" = some "3" ∧ d'.composedParameter? "a" "x" = some "2" :=
  ⟨_, _, rfl, by decide, by decide, rfl, by decide, by decide⟩

end Deployment
end LayeredConfig
