/-
Aliases in lists that are put together.

The nodes of a list that stands behind others get other numbers than on their own, but if each alias
goes to the same anchor (`Linkable`), the list is read as before: following links does not show
their numbers (`Twin.expand_eq`). Each link that is followed is counted, and what a list costs does
not depend on how many links may be followed in all (`Metered`). The costs of the lists add up, and
where the limit allows so many, the value of all lists is made of theirs (`Linkable.parse_eq`).
-/
import LayeredConfig.Proofs.Yaml.Numbering

namespace LayeredConfig
namespace Yaml

/-! ## Following links in two places -/

/-- Counts a link that is followed. -/
def spend : StateT ℕ (Except Error) Unit := do
  match ← get with
  | 0 => throw .repetition
  | left + 1 => set left

theorem follow_link (anchored : List (ℕ × Linked)) (n : ℕ) :
    follow anchored (.link n) = spend >>= fun _ => match anchored.reverse.lookup n with
      | some l => pure l
      | none => throw .alias := by
  funext left
  cases left <;> rfl

theorem expand_seq (anchored : List (ℕ × Linked)) (depth : ℕ) (shape : Shape) (tag : Option String)
    (items : List Linked) : expand anchored (depth + 1) shape (.seq tag items) =
      items.mapM (expand anchored depth shape.item) >>= fun nodes => pure (.seq tag nodes) := rfl

theorem mapM_eq_of_forall₂ {m : Type → Type} [Monad m] [LawfulMonad m] {α α' β : Type} {f : α → m β}
    {g : α' → m β} {l : List α} {l' : List α'} (h : List.Forall₂ (fun a a' => f a = g a') l l') :
    l.mapM f = l'.mapM g := by
  induction h with
  | nil => rfl
  | cons ha _ ih => rw [List.mapM_cons, List.mapM_cons, ha, ih]

namespace Twin

variable {P : ℕ → ℕ → Prop} {anchored anchored' : List (ℕ × Linked)} {l l' : Linked}

/-- Following a link leads to the same node, up to its links. -/
theorem follow_bind_eq {α : Type} {f f' : Linked → StateT ℕ (Except Error) α} (h : Twin P l l')
    (htarget : ∀ n n', P n n' →
      Option.Rel (Twin P) (anchored.reverse.lookup n) (anchored'.reverse.lookup n'))
    (hf : ∀ l l', Twin P l l' → f l = f' l') :
    (follow anchored l >>= f) = (follow anchored' l' >>= f') := by
  cases h with
  | link hn =>
    rw [follow_link, follow_link, bind_assoc, bind_assoc]
    refine bind_congr fun _ => ?_
    have hrel := htarget _ _ hn
    generalize anchored.reverse.lookup _ = found, anchored'.reverse.lookup _ = found' at hrel
    cases hrel with
    | none => rfl
    | some hl => exact hf _ _ hl
  | scalar tag style text => exact hf _ _ (.scalar tag style text)
  | seq tag hitems => exact hf _ _ (.seq tag hitems)
  | map tag hkey hvalue => exact hf _ _ (.map tag hkey hvalue)

/-- The numbers of links do not show. -/
theorem expand_eq (h : Twin P l l') (htarget : ∀ n n', P n n' →
      Option.Rel (Twin P) (anchored.reverse.lookup n) (anchored'.reverse.lookup n'))
    (depth : ℕ) (shape : Shape) :
    expand anchored depth shape l = expand anchored' depth shape l' := by
  induction depth generalizing shape l l' with
  | zero =>
    rw [expand, expand]
    refine h.follow_bind_eq htarget fun l l' h => ?_
    cases h <;> rfl
  | succ depth ih =>
    rw [expand, expand]
    refine h.follow_bind_eq htarget fun l l' h => ?_
    cases h with
    | scalar | link => rfl
    | seq tag h =>
      exact congrArg (· >>= _) (mapM_eq_of_forall₂ (h.imp fun _ _ hx => ih hx shape.item))
    | map tag hkey hvalue =>
      rw [List.forall₂_map_left_iff, List.forall₂_map_right_iff, List.forall₂_iff_zip]
        at hkey hvalue
      refine congrArg (· >>= _) (mapM_eq_of_forall₂ (List.forall₂_iff_zip.2 ⟨hkey.1, fun he => ?_⟩))
      refine (congrArg (· >>= _) (ih (hkey.2 he) .whole)).trans (bind_congr fun k => ?_)
      cases shape.under? k with
      | none => rfl
      | some inner => exact congrArg (· >>= _) (ih (hvalue.2 he) inner)

end Twin

/-! ## What following links costs -/

section

variable {α β : Type} {m : StateT ℕ (Except Error) α} {a : α} {cost : ℕ}

/-- The computation gives `a` and takes `cost` of its state, if there is so much. -/
def Costs (m : StateT ℕ (Except Error) α) (a : α) (cost : ℕ) : Prop :=
  ∀ left, m.run (cost + left) = .ok (a, left)

/-- What the computation takes of its state is in `C`, and it does not depend on how much there
is. -/
def Metered (C : AddSubmonoid ℕ) (m : StateT ℕ (Except Error) α) : Prop :=
  ∀ budget a left, m.run budget = .ok (a, left) →
    ∃ cost ∈ C, budget = cost + left ∧ Costs m a cost

variable {C : AddSubmonoid ℕ}

theorem Costs.pure (a : α) : Costs (Pure.pure a) a 0 := fun left => by
  rw [Nat.zero_add]
  rfl

theorem Costs.bind {f : α → StateT ℕ (Except Error) β} {b : β} {cost' : ℕ} (hm : Costs m a cost)
    (hf : Costs (f a) b cost') : Costs (m >>= f) b (cost + cost') := by
  intro left
  rw [StateT.run_bind, Nat.add_assoc, hm (cost' + left), ok_bind]
  exact hf left

theorem Costs.append {f : α → StateT ℕ (Except Error) β} {l l' : List α} {bs bs' : List β}
    {cost' : ℕ} (h : Costs (l.mapM f) bs cost) (h' : Costs (l'.mapM f) bs' cost') :
    Costs ((l ++ l').mapM f) (bs ++ bs') (cost + cost') := by
  rw [List.mapM_append]
  have hlast : Costs (l'.mapM f >>= fun bs' => Pure.pure (bs ++ bs')) (bs ++ bs') (cost' + 0) :=
    h'.bind (.pure _)
  exact h.bind hlast

theorem Metered.pure (a : α) : Metered C (Pure.pure a : StateT ℕ (Except Error) α) := by
  intro budget b left h
  obtain ⟨rfl, rfl⟩ := Prod.mk.inj (Except.ok.inj h)
  exact ⟨0, C.zero_mem, (Nat.zero_add _).symm, .pure a⟩

theorem Metered.throw (e : Error) : Metered C (throw e : StateT ℕ (Except Error) α) :=
  fun _ _ _ h => absurd h nofun

theorem Metered.bind {f : α → StateT ℕ (Except Error) β} (hm : Metered C m)
    (hf : ∀ a, Metered C (f a)) : Metered C (m >>= f) := by
  intro budget b left h
  rw [StateT.run_bind] at h
  obtain ⟨⟨a, mid⟩, hfirst, hrest⟩ := bind_eq_ok_iff.1 h
  obtain ⟨cost, hmem, rfl, hcost⟩ := hm _ _ _ hfirst
  obtain ⟨cost', hmem', rfl, hcost'⟩ := hf a _ _ _ hrest
  exact ⟨cost + cost', C.add_mem hmem hmem', (Nat.add_assoc ..).symm, hcost.bind hcost'⟩

theorem Metered.mapM {f : α → StateT ℕ (Except Error) β} {l : List α}
    (h : ∀ a ∈ l, Metered C (f a)) : Metered C (l.mapM f) := by
  induction l with
  | nil => exact .pure []
  | cons a l ih =>
    rw [List.forall_mem_cons] at h
    rw [List.mapM_cons]
    exact h.1.bind fun b => (ih h.2).bind fun bs => .pure (b :: bs)

end

theorem metered_spend {C : AddSubmonoid ℕ} (h : 1 ∈ C) : Metered C spend := by
  intro budget a left hrun
  cases budget with
  | zero => exact absurd hrun nofun
  | succ budget =>
    obtain ⟨rfl, rfl⟩ := Prod.mk.inj (Except.ok.inj hrun)
    refine ⟨1, h, Nat.add_comm .., fun left => ?_⟩
    rw [Nat.add_comm]
    rfl

/-- A node in which no link stands. It is its own twin, however links should be related. -/
def Linked.Unlinked (l : Linked) : Prop := Twin (fun _ _ => False) l l

section

variable {C : AddSubmonoid ℕ} {anchored : List (ℕ × Linked)} {l : Linked}

theorem Metered.follow_bind {α : Type} {f : Linked → StateT ℕ (Except Error) α}
    (h : 1 ∈ C ∨ l.Unlinked) (hf : ∀ l', 1 ∈ C ∨ l'.Unlinked → Metered C (f l')) :
    Metered C (follow anchored l >>= f) := by
  cases l with
  | link n =>
    have hone : 1 ∈ C := h.resolve_right nofun
    rw [follow_link, bind_assoc]
    refine (metered_spend hone).bind fun _ => ?_
    cases anchored.reverse.lookup n with
    | none => exact .throw _
    | some target => exact hf target (.inl hone)
  | scalar | seq | map => exact hf _ h

/-- Reading takes as many as links are followed, and nothing where there are no links. -/
theorem metered_expand (h : 1 ∈ C ∨ l.Unlinked) (depth : ℕ) (shape : Shape) :
    Metered C (expand anchored depth shape l) := by
  induction depth generalizing shape l with
  | zero =>
    rw [expand]
    refine .follow_bind h fun l h => ?_
    cases l with
    | scalar tag style text => exact .pure _
    | seq | map | link => exact .throw _
  | succ depth ih =>
    rw [expand]
    refine .follow_bind h fun l h => ?_
    cases l with
    | scalar tag style text => exact .pure _
    | seq tag items =>
      refine (Metered.mapM fun x hx => ih (h.imp_right fun h => ?_) shape.item).bind
        fun nodes => .pure _
      cases h with
      | seq _ hitems => exact List.forall₂_same.1 hitems x hx
    | map tag entries =>
      refine (Metered.mapM fun e he => ?_).bind fun nodes => .pure _
      refine (ih (h.imp_right fun h => ?key) .whole).bind fun k => ?_
      case key =>
        cases h with
        | map _ hkey => exact List.forall₂_same.1 hkey _ (List.mem_map_of_mem he)
      cases shape.under? k with
      | none => exact .pure _
      | some inner =>
        refine (ih (h.imp_right fun h => ?_) inner).bind fun v => .pure (k, v)
        cases h with
        | map _ _ hvalue => exact List.forall₂_same.1 hvalue _ (List.mem_map_of_mem he)
    | link n => exact .throw _

end

/-! ## Where links go -/

/-- Which of some anchors, counted from the first, a link goes to: the last one with its number. -/
def anchorAt? (anchors : List ℕ) (n : ℕ) : Option ℕ := anchors.zipIdx.reverse.lookup n

theorem lt_length_of_anchorAt? {anchors : List ℕ} {n i : ℕ} (h : anchorAt? anchors n = some i) :
    i < anchors.length := by
  obtain ⟨before, after, hsplit, -⟩ := List.lookup_eq_some_iff.1 h
  have hmem : (n, i) ∈ anchors.zipIdx.reverse := hsplit ▸ by simp
  simpa using List.snd_lt_of_mem_zipIdx (List.mem_reverse.1 hmem)

theorem lookup_reverse_eq (anchored : List (ℕ × Linked)) (n : ℕ) :
    anchored.reverse.lookup n =
      (anchorAt? (anchored.map (·.1)) n).bind fun i => (anchored.map (·.2))[i]? := by
  induction anchored using List.reverseRecOn with
  | nil => rfl
  | append_singleton anchored e ih =>
    obtain ⟨k, l⟩ := e
    have hlast : anchorAt? ((anchored ++ [(k, l)]).map (·.1)) n =
        if n = k then some anchored.length else anchorAt? (anchored.map (·.1)) n := by
      rw [anchorAt?, List.map_append, List.zipIdx_append, List.reverse_append]
      by_cases hn : n = k
      · simp [hn]
      · simp [hn, List.lookup_cons, beq_false_of_ne hn, anchorAt?]
    rw [hlast, List.reverse_append]
    by_cases hn : n = k
    · simp [hn]
    · have hfront :
          ([(k, l)].reverse ++ anchored.reverse).lookup n = anchored.reverse.lookup n := by
        simp [List.lookup_cons, beq_false_of_ne hn]
      rw [hfront, ih, if_neg hn]
      refine Option.bind_congr fun i hi => ?_
      have hlt := lt_length_of_anchorAt? hi
      rw [List.length_map] at hlt
      rw [List.map_append, List.getElem?_append_left (by simpa using hlt)]

/-- Links that go to the same place among anchored nodes go to the same node, up to its links. -/
theorem rel_lookup_of_twins {P : ℕ → ℕ → Prop} {before inside inside' after : List (ℕ × Linked)}
    (h : List.Forall₂ (Twin P) (inside.map (·.2)) (inside'.map (·.2))) {n n' : ℕ}
    (hn : anchorAt? ((before ++ (inside' ++ after)).map (·.1)) n' =
      (anchorAt? (inside.map (·.1)) n).map (before.length + ·)) :
    Option.Rel (Twin P) (inside.reverse.lookup n)
      ((before ++ (inside' ++ after)).reverse.lookup n') := by
  rw [lookup_reverse_eq, lookup_reverse_eq, hn]
  cases hat : anchorAt? (inside.map (·.1)) n with
  | none => exact .none
  | some i =>
    have hlt := lt_length_of_anchorAt? hat
    rw [List.length_map, ← List.length_map (·.2)] at hlt
    have hlt' : i < (inside'.map (·.2)).length := h.length_eq ▸ hlt
    have hplace : ((before ++ (inside' ++ after)).map (·.2))[before.length + i]? =
        (inside'.map (·.2))[i]? := by
      rw [List.map_append, List.getElem?_append_right (by simp), List.map_append,
        List.length_map, Nat.add_sub_cancel_left, List.getElem?_append_left hlt']
    rw [Option.map_some, Option.bind_some, Option.bind_some, hplace, List.getElem?_eq_getElem hlt,
      List.getElem?_eq_getElem hlt']
    exact .some (h.get hlt hlt')

/-- The anchors, counted from the first, that the aliases of a document go to. -/
def targets (nodes : List Source) : List (Option ℕ) :=
  (AnchorNames.links [] nodes).map fun n? => n?.bind (anchorAt? (AnchorNames.anchors [] nodes))

/-- The anchors that the aliases of some lists go to in documents of their own, if the anchors of
all lists are counted through. -/
def targetsApart (before : ℕ) : List (List Source) → List (Option ℕ)
  | [] => []
  | items :: rest =>
    let nodes := Source.nodes.nodesOfItems items
    (targets nodes).map (·.map (before + ·)) ++
      targetsApart (before + (AnchorNames.anchors [] nodes).length) rest

theorem targets_eq_nil {nodes : List Source} (h : ∀ s ∈ nodes, s.alias? = none) :
    targets nodes = [] := by
  rw [targets, AnchorNames.links_eq_nil h, List.map_nil]

theorem targetsApart_eq_nil {lists : List (List Source)} {before : ℕ}
    (h : ∀ items ∈ lists, ∀ s ∈ Source.nodes.nodesOfItems items, s.alias? = none) :
    targetsApart before lists = [] := by
  induction lists generalizing before with
  | nil => rfl
  | cons items lists ih =>
    rw [List.forall_mem_cons] at h
    rw [targetsApart, targets_eq_nil h.1, ih h.2]
    rfl

theorem allLinks_of_map_eq {names names' : AnchorNames} {nodes : List Source}
    {f f' : ℕ → Option ℕ} {g : ℕ → ℕ}
    (h : (names'.links nodes).map (·.bind f') =
      ((names.links nodes).map (·.bind f)).map (·.map g)) :
    AllLinks (fun n n' => f' n' = (f n).map g) names names' nodes := by
  induction nodes generalizing names names' with
  | nil => trivial
  | cons s nodes ih =>
    rw [AnchorNames.links, AnchorNames.links] at h
    cases hname : s.alias? with
    | none =>
      rw [hname] at h
      exact ⟨fun name hname' => absurd (hname'.symm.trans hname) (Option.some_ne_none name), ih h⟩
    | some name =>
      rw [hname] at h
      obtain ⟨hfirst, hrest⟩ := List.cons.inj h
      refine ⟨fun other hother n n' hn hn' => ?_, ih hrest⟩
      obtain rfl := Option.some.inj (hname.symm.trans hother)
      rw [hn, hn'] at hfirst
      exact hfirst

/-! ## Lists in one document -/

/-- A document as it is read, and how many more links might be followed. -/
def Source.reading (s : Source) : Except Error (Node × ℕ) := do
  let numbered ← s.number []
  (expand numbered.anchored depthLimit .whole numbered.result).run (linksPerEvent * s.events)

/-- How many links are followed where a document is read; none if it cannot be read. -/
def Source.followed (s : Source) : ℕ :=
  (s.reading.map fun r => linksPerEvent * s.events - r.2).toOption.getD 0

/-- The aliases of some lists may stand in one document: each goes to the anchor to which it goes in
its own list, and in all the lists no more links are followed than the document allows. -/
structure Linkable (lists : List (List Source)) : Prop where
  targets : targets (Source.nodes.nodesOfItems lists.flatten) = targetsApart 0 lists
  followed : (lists.map fun items => (Source.seq {} items).followed).sum ≤
    linksPerEvent * (Source.seq {} lists.flatten).events

namespace Source

variable {items rest : List Source} {read : List Node} {names : AnchorNames}

theorem numberItems_append {first others : Numbered (List Linked)}
    (h : number.numberItems names items = .ok first)
    (h' : number.numberItems first.names rest = .ok others) :
    number.numberItems names (items ++ rest) =
      .ok ⟨first.result ++ others.result, others.names, first.anchored ++ others.anchored⟩ := by
  induction items generalizing names first with
  | nil =>
    obtain rfl := Except.ok.inj h
    exact h'
  | cons x items ih =>
    rw [number.numberItems] at h
    obtain ⟨head, hhead, h⟩ := bind_eq_ok_iff.1 h
    obtain ⟨tail, htail, h⟩ := bind_eq_ok_iff.1 h
    obtain rfl := Except.ok.inj h
    rw [List.cons_append, number.numberItems, hhead, ok_bind, ih htail h', ok_bind]
    show Except.ok _ = Except.ok _
    rw [List.cons_append, List.append_assoc]

theorem ofSource_eq (s : Source) : Node.ofSource .whole s = s.reading.map (·.1) := by
  rw [Node.ofSource, reading]
  cases s.number [] with
  | error e => rfl
  | ok numbered =>
    show (expand numbered.anchored depthLimit .whole numbered.result).run _ >>= _ = _
    rw [ok_bind]
    cases (expand numbered.anchored depthLimit .whole numbered.result).run
      (linksPerEvent * s.events) <;> rfl

/-- Reading a list is reading its items. -/
theorem reading_seq {inside : Numbered (List Linked)}
    (h : number.numberItems [] items = .ok inside) :
    (Source.seq {} items).reading =
      ((inside.result.mapM (expand inside.anchored (depthLimit - 1) .whole)).run
        (linksPerEvent * (Source.seq {} items).events)).map fun r => (.seq none r.1, r.2) := by
  have hnumber : (Source.seq {} items).number [] =
      .ok ⟨.seq none inside.result, inside.names, inside.anchored⟩ := by
    rw [number]
    exact (congrArg (· >>= _) h).trans rfl
  have hseq : expand inside.anchored depthLimit .whole (.seq none inside.result) =
      inside.result.mapM (expand inside.anchored (depthLimit - 1) .whole) >>=
        fun nodes => pure (.seq none nodes) := rfl
  rw [reading, hnumber, ok_bind]
  dsimp only
  rw [hseq, StateT.run_bind]
  cases (inside.result.mapM (expand inside.anchored (depthLimit - 1) .whole)).run
    (linksPerEvent * (Source.seq {} items).events) <;> rfl

theorem followed_eq_zero {s : Source} (h : ∀ x ∈ s.nodes, x.alias? = none) : s.followed = 0 := by
  rw [followed]
  cases hread : s.reading with
  | error e => rfl
  | ok r =>
    obtain ⟨numbered, hnumber, hrun⟩ := bind_eq_ok_iff.1 hread
    obtain ⟨numbered', hnumber', htwins⟩ := exists_number_twins (P := fun _ _ => False) s hnumber
      (List.Subset.refl _) (allLinks_of_unaliased h)
    obtain rfl := Except.ok.inj (hnumber.symm.trans hnumber')
    obtain ⟨cost, hcost, hbudget, -⟩ :=
      metered_expand (C := ⊥) (.inr htwins.result) _ _ _ _ _ hrun
    rw [AddSubmonoid.mem_bot.1 hcost, Nat.zero_add] at hbudget
    exact Nat.sub_eq_zero_of_le hbudget.le

theorem costs_of_ofSource
    (hread : Node.ofSource .whole (.seq {} items) = .ok (.seq none read)) :
    ∃ inside, number.numberItems [] items = .ok inside ∧
      Costs (inside.result.mapM (expand inside.anchored (depthLimit - 1) .whole)) read
        (Source.seq {} items).followed := by
  obtain ⟨numbered, hnumber, -⟩ := bind_eq_ok_iff.1 hread
  rw [number] at hnumber
  obtain ⟨inside, hinside, -⟩ := bind_eq_ok_iff.1 hnumber
  have hinside : number.numberItems [] items = .ok inside := hinside
  rw [ofSource_eq, reading_seq hinside] at hread
  obtain ⟨r, hr, hseq⟩ := map_eq_ok_iff.1 hread
  obtain ⟨⟨read', left⟩, hrun, rfl⟩ := map_eq_ok_iff.1 hr
  obtain rfl := (Node.seq.inj hseq).2
  obtain ⟨cost, -, hbudget, hcost⟩ := Metered.mapM (C := ⊤)
    (fun l _ => metered_expand (.inl (AddSubmonoid.mem_top 1)) _ .whole) _ _ _ hrun
  have hfollowed : (Source.seq {} items).followed = cost := by
    rw [followed, reading_seq hinside, hrun]
    show linksPerEvent * _ - left = cost
    rw [hbudget, Nat.add_sub_cancel]
  exact ⟨inside, hinside, hfollowed ▸ hcost⟩

/-- Lists behind others are read as they are on their own, if their links go to the same anchors,
and what they cost adds up. -/
theorem exists_numberItems_flatten {before : List Source} {anchored : List (ℕ × Linked)}
    {lists : List (List Source)} {reads : List (List Node)} {anchors : List ℕ}
    (hreads : List.Forall₂ (fun items read =>
      Node.ofSource .whole (.seq {} items) = .ok (.seq none read)) lists reads)
    (hbefore : anchored.map (·.1) = AnchorNames.anchors [] before)
    (hanchors : anchors = AnchorNames.anchors [] (before ++ nodes.nodesOfItems lists.flatten))
    (htargets : ((AnchorNames.after [] before).links (nodes.nodesOfItems lists.flatten)).map
      (·.bind (anchorAt? anchors)) = targetsApart anchored.length lists) :
    ∃ inside, number.numberItems (.after [] before) lists.flatten = .ok inside ∧
      (anchored ++ inside.anchored).map (·.1) = anchors ∧
      Costs (inside.result.mapM (expand (anchored ++ inside.anchored) (depthLimit - 1) .whole))
        reads.flatten (lists.map fun items => (Source.seq {} items).followed).sum := by
  induction hreads generalizing before anchored with
  | nil =>
    refine ⟨⟨[], .after [] before, []⟩, rfl, ?_, .pure []⟩
    rw [hanchors, List.append_nil, hbefore]
    exact (congrArg _ (List.append_nil before)).symm
  | @cons items read lists reads hread hreads ih =>
    obtain ⟨own, hown, hcost⟩ := costs_of_ofSource hread
    rw [List.flatten_cons, nodesOfItems_append] at hanchors htargets
    rw [AnchorNames.links_append, List.map_append, targetsApart] at htargets
    obtain ⟨hitems, hrest⟩ := List.append_inj htargets (by
      simp only [targets, List.length_map]
      exact AnchorNames.length_links _ _ _)
    obtain ⟨own', hown', htwins⟩ :=
      exists_numberItems_twins items hown (List.nil_subset _) (allLinks_of_map_eq hitems)
    -- The other lists come after this one.
    have hmet : own'.names = .after [] (before ++ nodes.nodesOfItems items) := by
      rw [htwins.follows'.met, AnchorNames.after_append]
    have hmore : (anchored ++ own'.anchored).map (·.1) =
        AnchorNames.anchors [] (before ++ nodes.nodesOfItems items) := by
      rw [List.map_append, hbefore, htwins.follows'.anchors, AnchorNames.anchors_append]
    have hlength : own'.anchored.length =
        (AnchorNames.anchors [] (nodes.nodesOfItems items)).length := by
      rw [← htwins.follows.anchors, List.length_map]
      simpa using htwins.anchored.length_eq.symm
    rw [← AnchorNames.after_append, ← hlength, ← List.length_append] at hrest
    obtain ⟨others, hothers, hall, hcosts⟩ := ih hmore (by rw [hanchors, List.append_assoc]) hrest
    rw [← hmet] at hothers
    rw [List.append_assoc] at hall hcosts
    refine ⟨_, numberItems_append hown' hothers, hall, Costs.append ?_ hcosts⟩
    rw [← mapM_eq_of_forall₂ (htwins.result.imp fun l l' h => h.expand_eq (fun n n' hn => ?_) _ _)]
    · exact hcost
    · refine rel_lookup_of_twins htwins.anchored ?_
      rw [hall, htwins.follows.anchors]
      exact hn

end Source

/-- Lists without aliases may stand in one document. -/
theorem linkable_of_unaliased {lists : List (List Source)}
    (h : ∀ items ∈ lists, ∀ s ∈ Source.nodes.nodesOfItems items, s.alias? = none) :
    Linkable lists := by
  constructor
  · rw [targetsApart_eq_nil h, Source.nodesOfItems_flatten, targets_eq_nil]
    intro s hs
    obtain ⟨nodes, hnodes, hs⟩ := List.mem_flatten.1 hs
    obtain ⟨items, hitems, rfl⟩ := List.mem_map.1 hnodes
    exact h items hitems s hs
  · have hzero : (lists.map fun items => (Source.seq {} items).followed).sum = 0 :=
      List.sum_eq_zero (List.forall_mem_map.2 fun items hitems =>
        Source.followed_eq_zero (List.forall_mem_cons.2 ⟨rfl, h items hitems⟩))
    rw [hzero]
    exact Nat.zero_le _

example : Linkable [[.scalar { anchor := some "k" } .plain "x", .alias "k"],
    [.scalar { anchor := some "k" } .plain "y", .alias "k"]] := ⟨by decide, by decide⟩

/-- Lists whose aliases may stand in one document are read there as on their own. -/
theorem Linkable.ofSource_flatten {lists : List (List Source)} {reads : List (List Node)}
    (h : Linkable lists) (hreads : List.Forall₂ (fun items read =>
      Node.ofSource .whole (.seq {} items) = .ok (.seq none read)) lists reads) :
    Node.ofSource .whole (.seq {} lists.flatten) = .ok (.seq none reads.flatten) := by
  have hbefore : ([] : List (ℕ × Linked)).map (·.1) = AnchorNames.anchors [] [] := rfl
  obtain ⟨inside, hinside, -, hcosts⟩ :=
    Source.exists_numberItems_flatten hreads hbefore rfl h.targets
  obtain ⟨left, hleft⟩ := Nat.exists_eq_add_of_le h.followed
  have hrun := hcosts left
  rw [List.nil_append] at hrun
  rw [Source.ofSource_eq, Source.reading_seq hinside, hleft, hrun]
  rfl

/-! ## Values -/

theorem Value.ofItems_eq_mapM (keepTags : Bool) (nodes : List Node) :
    Value.ofNode.ofItems keepTags nodes = nodes.mapM (Value.ofNode keepTags) := by
  induction nodes with
  | nil => rfl
  | cons n nodes ih => rw [Value.ofNode.ofItems, List.mapM_cons, ih]

theorem Source.exists_of_ofSource_seq {items : List Source} {node : Node}
    (h : Node.ofSource .whole (.seq {} items) = .ok node) : ∃ read, node = .seq none read := by
  obtain ⟨numbered, hnumber, hread⟩ := bind_eq_ok_iff.1 h
  obtain ⟨⟨node', left⟩, hrun, heq⟩ := bind_eq_ok_iff.1 hread
  obtain rfl := Except.ok.inj heq
  rw [Source.number] at hnumber
  obtain ⟨inside, -, hinside⟩ := bind_eq_ok_iff.1 hnumber
  obtain rfl := Except.ok.inj hinside
  have hseq := expand_seq inside.anchored (depthLimit - 1) .whole none inside.result
  replace hrun := (congrFun hseq _).symm.trans hrun
  obtain ⟨⟨read, left'⟩, -, hpure⟩ := bind_eq_ok_iff.1 hrun
  exact ⟨read, (Prod.mk.inj (Except.ok.inj hpure)).1.symm⟩

/-- The text is a list with the given items. -/
def Holds (text : String) (items : List Source) : Prop :=
  ∃ tokens, tokenize text = .ok tokens ∧ Source.ofTokens tokens = .ok (some (.seq {} items))

theorem Holds.parse_eq_ok_iff {text : String} {items : List Source} (h : Holds text items)
    {v : Value} : Value.parse text = .ok v ↔ ∃ read vs,
      Node.ofSource .whole (.seq {} items) = .ok (.seq none read) ∧
        read.mapM (Value.ofNode true) = .ok vs ∧ v = .seq vs := by
  obtain ⟨tokens, htokens, hs⟩ := h
  have hparse : Value.parse text =
      Node.ofSource .whole (.seq {} items) >>= Value.ofNode true := by
    rw [Value.parse, Yaml.parse, htokens, ok_bind, hs, ok_bind]
    dsimp only
    cases Node.ofSource .whole (.seq {} items) <;> rfl
  have hvalue (read : List Node) : Value.ofNode true (.seq none read) =
      read.mapM (Value.ofNode true) >>= fun vs => .ok (.seq vs) := by
    rw [Value.ofNode, Value.ofItems_eq_mapM]
    rfl
  rw [hparse, bind_eq_ok_iff]
  constructor
  · rintro ⟨node, hnode, hv⟩
    obtain ⟨read, rfl⟩ := Source.exists_of_ofSource_seq hnode
    rw [hvalue] at hv
    obtain ⟨vs, hvs, heq⟩ := bind_eq_ok_iff.1 hv
    exact ⟨read, vs, hnode, hvs, (Except.ok.inj heq).symm⟩
  · rintro ⟨read, vs, hread, hvs, rfl⟩
    exact ⟨_, hread, by rw [hvalue, hvs, ok_bind]⟩

/-- A text that is the list of all items says what texts with these lists say, one after the
other. -/
theorem Linkable.parse_eq {text : String} {texts : List String} {lists : List (List Source)}
    {values : List (List Value)} (h : Linkable lists) (hall : Holds text lists.flatten)
    (hlists : List.Forall₂ Holds texts lists)
    (hvalues : List.Forall₂ (fun text vs => Value.parse text = .ok (.seq vs)) texts values) :
    Value.parse text = .ok (.seq values.flatten) := by
  obtain ⟨reads, hreads, hnodes⟩ : ∃ reads : List (List Node),
      List.Forall₂ (fun items read => Node.ofSource .whole (.seq {} items) = .ok (.seq none read))
        lists reads ∧
      List.Forall₂ (List.Forall₂ fun node v => Value.ofNode true node = .ok v) reads values := by
    clear hall h
    induction hlists generalizing values with
    | nil =>
      obtain rfl := List.forall₂_nil_left_iff.1 hvalues
      exact ⟨[], .nil, .nil⟩
    | cons hitems _ ih =>
      obtain ⟨vs, rest, hparse, hrest, rfl⟩ := List.forall₂_cons_left_iff.1 hvalues
      obtain ⟨reads, hreads, hnodes⟩ := ih hrest
      obtain ⟨read, vs', hread, hvs, heq⟩ := hitems.parse_eq_ok_iff.1 hparse
      obtain rfl := Value.seq.inj heq
      exact ⟨read :: reads, .cons hread hreads, .cons (mapM_eq_ok_iff.1 hvs) hnodes⟩
  exact hall.parse_eq_ok_iff.2 ⟨reads.flatten, values.flatten, h.ofSource_flatten hreads,
    mapM_eq_ok_iff.2 (List.rel_flatten hnodes), rfl⟩

end Yaml
end LayeredConfig
