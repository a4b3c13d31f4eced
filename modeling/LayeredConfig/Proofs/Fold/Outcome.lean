/-
What comes out of the steps of a fold.

A run that fails leaves its accumulator to be thrown away, so of a failure only the error counts:
`Folding.outcome` is the result of a step without that accumulator. The outcome of steps in
sequence is the sequence of their outcomes, and the two loops over entries come out as what `sift`
keeps of the entries, once every candidate is there.
-/
import LayeredConfig.Proofs.Fold.Accepted
import LayeredConfig.Proofs.Fold.Cell

namespace LayeredConfig

/-! ## Meeting keys -/

namespace Ledger

def addAll (l : Ledger) (field : Field) (keys : List String) : Ledger :=
  keys.foldl (fun l key => l.add field key) l

theorem seen_addAll_self (l : Ledger) (field : Field) (keys : List String) :
    (l.addAll field keys).seen field = meet (l.seen field) keys := by
  induction keys generalizing l with
  | nil => rfl
  | cons key keys ih =>
    show ((l.add field key).addAll field keys).seen field = _
    rw [ih, seen_add_self, meet_cons, meet_cons, meet_nil]

theorem seen_addAll_of_ne (l : Ledger) {field other : Field} (keys : List String)
    (h : other ≠ field) : (l.addAll field keys).seen other = l.seen other := by
  induction keys generalizing l with
  | nil => rfl
  | cons key keys ih =>
    show ((l.add field key).addAll field keys).seen other = _
    rw [ih, seen_add_of_ne l key h]

theorem addAll_eq_set (l : Ledger) (field : Field) (keys : List String) :
    l.addAll field keys =
      l.set field (meet (l.seen field) keys) (nodup_meet (l.nodup field) keys) := by
  refine ext_seen fun g => ?_
  by_cases hg : g = field
  · subst hg
    rw [seen_addAll_self, seen_set_self]
  · rw [seen_addAll_of_ne l keys hg, seen_set_of_ne l _ hg]

end Ledger

/-! ## Steps -/

namespace Folding

variable {α β γ : Type}

def outcome (x : Folding α) (acc : Accumulator) : Except FoldError (α × Accumulator) :=
  match x acc with
  | .ok a acc' => .ok (a, acc')
  | .error e _ => .error e

theorem outcome_eq_ok_iff {x : Folding α} {acc acc' : Accumulator} {a : α} :
    outcome x acc = .ok (a, acc') ↔ x.run acc = .ok a acc' := by
  show outcome x acc = _ ↔ x acc = _
  rw [outcome]
  cases x acc <;> simp

theorem outcome_pure (a : α) (acc : Accumulator) : outcome (pure a) acc = .ok (a, acc) := rfl

theorem outcome_bind (x : Folding α) (f : α → Folding β) (acc : Accumulator) :
    outcome (x >>= f) acc = outcome x acc >>= fun p => outcome (f p.1) p.2 := by
  have hb : (x >>= f) acc = match x acc with
      | .ok a acc' => f a acc'
      | .error e acc' => .error e acc' := by
    show EStateM.bind x f acc = _
    rw [EStateM.bind]
    cases x acc <;> rfl
  rw [outcome, outcome, hb]
  cases x acc <;> rfl

theorem outcome_lift (x : Except FoldError α) (acc : Accumulator) :
    outcome (lift x) acc = x.map fun a => (a, acc) := by
  cases x <;> rfl

theorem outcome_mark (field : Field) (key : String) (acc : Accumulator) :
    outcome (mark field key) acc =
      .ok (!acc.ledger.contains field key, { acc with ledger := acc.ledger.add field key }) := rfl

theorem outcome_update (f : Fragment → Fragment) (acc : Accumulator) :
    outcome (update f) acc = .ok ((), { acc with fragment := f acc.fragment }) := rfl

theorem outcome_throw (e : FoldError) (acc : Accumulator) :
    outcome (throw e : Folding α) acc = .error e := rfl

theorem sift_seen_add (key : α → String) (always : α → Bool) (l : Ledger) (field : Field)
    (k : String) (entries : List α) :
    sift key always ((l.add field k).seen field) entries =
      sift key always (k :: l.seen field) entries :=
  sift_congr key always
    (fun _ => by simp [Ledger.seen_add_self, mem_meet, or_comm]) entries

/-- Going through entries keeps the first of each new identity, once all candidates are there. -/
theorem outcome_unseen (field : Field) (candidate : α → Except FoldError (String × β))
    (entries : List α) (acc : Accumulator) :
    outcome (unseen field candidate entries) acc =
      (entries.mapM candidate).map fun cs =>
        ((novel (·.1) (acc.ledger.seen field) cs).map (·.2),
          { acc with ledger := acc.ledger.addAll field (cs.map (·.1)) }) := by
  induction entries generalizing acc with
  | nil => rfl
  | cons a rest ih =>
    cases hc : candidate a with
    | error e => rw [unseen, outcome_bind, outcome_lift, hc, mapM_error_cons hc]; rfl
    | ok c =>
      obtain ⟨key, b⟩ := c
      simp only [unseen, outcome_bind, outcome_lift, hc, mapM_ok_cons hc, map_ok, ok_bind,
        outcome_mark, ih]
      cases rest.mapM candidate with
      | error e => rfl
      | ok cs =>
        simp only [map_ok, ok_bind, outcome_pure, sift_seen_add, sift_cons, List.map_cons]
        congr 2
        by_cases hk : key ∈ acc.ledger.seen field <;> simp [Ledger.contains, hk]

theorem outcome_unseenPaths (site : Site) (field : Field) (values : List String)
    (acc : Accumulator) :
    outcome (unseenPaths site field values) acc =
      (Accepted.paths field (acc.ledger.seen field) (values.map (site, ·))).map fun k =>
        (k.entries, { acc with ledger := acc.ledger.addAll field k.keys }) := by
  have hfst (l : List String) :
      List.map ((fun p : String × String => p.1) ∘ fun r => (r, r)) l = l := List.map_id l
  have hsnd (l : List String) :
      List.map ((fun p : String × String => p.2) ∘ fun r => (r, r)) l = l := List.map_id l
  have hsite : (Accepted.rebasePath field ∘ fun v => (site, v)) = site.rebase field := rfl
  rw [unseenPaths, outcome_unseen, mapM_map_result, Accepted.paths, List.mapM_map, hsite]
  cases values.mapM (site.rebase field) with
  | error e => rfl
  | ok rs =>
    simp only [map_ok, novel, sift_map, List.map_map, hfst, hsnd]
    rfl

theorem outcome_firstOfEach (site : Site) (field : Field) (identity : α → String)
    (entries : List α) (acc : Accumulator) :
    outcome (firstOfEach field identity entries) acc =
      (Accepted.firsts identity (acc.ledger.seen field) (entries.map (site, ·))).map fun k =>
        (k.entries, { acc with ledger := acc.ledger.addAll field k.keys }) := by
  have hsnd (l : List α) :
      List.map ((fun p : String × α => p.2) ∘ fun a => (identity a, a)) l = l := List.map_id l
  have hsite : List.map ((fun p : Site × α => p.2) ∘ fun a => (site, a)) entries = entries :=
    List.map_id entries
  rw [firstOfEach, outcome_unseen, mapM_of_ok, Accepted.firsts]
  simp only [map_ok, novel, sift_map, List.map_map, hsnd, hsite]
  rfl

theorem outcome_markAll (field : Field) (keys : List String) (acc : Accumulator) :
    outcome (Policy.markAll field keys) acc =
      .ok ((), { acc with ledger := acc.ledger.addAll field keys }) := by
  induction keys generalizing acc with
  | nil => rfl
  | cons key keys ih =>
    show outcome (discard (mark field key) >>= fun _ => Policy.markAll field keys) acc = _
    rw [outcome_bind]
    exact ih { acc with ledger := acc.ledger.add field key }

theorem outcome_generators (kind : GeneratorKind γ) (site : Site) (field : Field)
    (entries : List γ) (acc : Accumulator) :
    outcome (generators kind site field entries) acc =
      (Accepted.generators kind field (acc.ledger.seen field) (entries.map (site, ·))).map
        fun k => (k.entries, { acc with ledger := acc.ledger.addAll field k.keys }) := by
  induction entries generalizing acc with
  | nil => rfl
  | cons entry rest ih =>
    have hrest := ih { acc with ledger := acc.ledger.add field (kind.shared entry).name }
    simp only [Accepted.generators, Accepted.keptGenerators, sift_seen_add] at hrest
    rw [generators, outcome_bind, outcome_mark, ok_bind, Accepted.generators,
      Accepted.keptGenerators, List.map_cons, sift_cons]
    by_cases hk : (kind.shared entry).behavior = .create ∧
        (kind.shared entry).name ∈ acc.ledger.seen field
    · have hskip : ¬ (((kind.shared entry).behavior != .create) = true ∨
          (kind.shared entry).name ∉ acc.ledger.seen field) := by simp [hk.1, hk.2]
      rw [if_pos (by simpa [Ledger.contains] using hk), if_neg hskip, hrest, List.nil_append]
      cases List.mapM (m := Except FoldError) _ (sift _ _ _ (rest.map (site, ·))) <;> rfl
    · have hkeep : ((kind.shared entry).behavior != .create) = true ∨
          (kind.shared entry).name ∉ acc.ledger.seen field := by
        simpa using not_and_or.1 hk
      rw [if_neg (by simpa [Ledger.contains] using hk), if_pos hkeep, outcome_bind, outcome_lift,
        List.singleton_append]
      cases hg : (kind.shared entry).rebase site field with
      | error e =>
        rw [mapM_error_cons (by rw [Accepted.rebaseGenerator, hg]; rfl)]
        rfl
      | ok g =>
        rw [mapM_ok_cons (b := kind.withShared entry g) (by rw [Accepted.rebaseGenerator, hg]; rfl),
          map_ok, ok_bind, outcome_bind, hrest]
        cases List.mapM (m := Except FoldError) _ (sift _ _ _ (rest.map (site, ·))) <;> rfl

end Folding
end LayeredConfig
