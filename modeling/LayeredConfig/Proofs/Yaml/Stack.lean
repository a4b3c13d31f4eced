/-
The stack of open constructs inside a block sequence that is the whole document.

What tokens do there does not depend on the items before (`followed`). Where the end of the sequence
is taken, so is another entry, because the constructs that the end takes away are places for nodes
that are left empty (`feed_blockEntry`). So one sequence may go on with the entries of another, and
the document has the items of both (`documentOf_append`).
-/
import LayeredConfig.Yaml.Source
import LayeredConfig.Proofs.Result

namespace LayeredConfig
namespace Yaml

variable {handles : TagHandles} {t : Token} {f : Frame} {s : Step} {n : Source}
  {frames frames' : List Frame}

/-! ## What stands on what -/

/-- A kind of construct. -/
inductive Frame.Kind where
  | node (indentless : Bool)
  | document
  | blockSeq
  | indentlessSeq
  | blockMap
  | flowSeq
  | flowPair
  | flowMap
deriving DecidableEq

namespace Frame

def kind : Frame → Kind
  | .node _ indentless _ => .node indentless
  | .document .. => .document
  | .blockSeq .. => .blockSeq
  | .indentlessSeq .. => .indentlessSeq
  | .blockMap .. => .blockMap
  | .flowSeq .. => .flowSeq
  | .flowPair _ => .flowPair
  | .flowMap .. => .flowMap

@[simp]
theorem kind_put (n : Source) (f : Frame) : (f.put n).kind = f.kind := by
  unfold put
  split <;> rfl

/-- Which construct may directly contain which: nothing stands in a place for a node, and two
constructs stand only in mappings and in bracketed sequences. -/
def Kind.StandsOn : Kind → Kind → Prop
  | _, .node _ => False
  | .node true, around => around = .blockMap
  | .indentlessSeq, around => around = .blockMap
  | .flowPair, around => around = .flowSeq
  | _, _ => True

/-- A collection that is not bound to what it stands in. -/
def Kind.isCollection : Kind → Bool
  | .blockSeq | .blockMap | .flowSeq | .flowMap => true
  | _ => false

theorem Kind.eq_of_flowPair_standsOn {around : Kind} (h : Kind.flowPair.StandsOn around) :
    around = .flowSeq := by
  cases around <;> first | rfl | cases h

theorem Kind.not_standsOn_node {k : Kind} {i : Bool} : ¬k.StandsOn (.node i) := by
  intro h
  cases k <;> cases h

/-- What stands in a block sequence and goes away at the end of the sequence. -/
theorem Kind.eq_of_standsOn_blockSeq {k : Kind} (h : k.StandsOn .blockSeq)
    (hk : (∃ i, k = .node i) ∨ k = .indentlessSeq ∨ k = .flowPair) : k = .node false := by
  rcases hk with ⟨i, rfl⟩ | rfl | rfl
  · cases i with
    | false => rfl
    | true => cases h
  · cases h
  · cases h

theorem Kind.standsOn_of_isCollection {k around : Kind} (hk : k.isCollection = true)
    (haround : ∀ i, around ≠ .node i) : k.StandsOn around := by
  cases around with
  | node i => exact absurd rfl (haround i)
  | _ => cases k <;> trivial

end Frame

open Yaml.Frame (Kind kind_put)

/-- Every construct stands where it may. -/
def Stacked (frames : List Frame) : Prop := (frames.map Frame.kind).IsChain Frame.Kind.StandsOn

theorem Stacked.tail (h : Stacked (f :: frames)) : Stacked frames := by
  cases frames with
  | nil => exact .nil
  | cons g rest => exact (List.isChain_cons_cons.1 h).2

/-- Constructs that may stand where another one has stood. -/
def Replaces (f : Frame) (frames : List Frame) : Prop :=
  ∀ rest, Stacked (f :: rest) → Stacked (frames ++ rest)

namespace Replaces

variable {g g' : Frame}

theorem single (h : ∀ k, f.kind.StandsOn k → g.kind.StandsOn k) : Replaces f [g] := by
  intro rest hrest
  unfold Stacked at hrest ⊢
  simp only [List.cons_append, List.nil_append, List.map_cons] at hrest ⊢
  cases rest with
  | nil => exact .singleton _
  | cons k rest =>
    rw [List.map_cons, List.isChain_cons_cons] at hrest ⊢
    exact hrest.imp_left (h k.kind)

theorem cons (hg : g.kind.StandsOn g'.kind) (h : Replaces f (g' :: frames)) :
    Replaces f (g :: g' :: frames) := by
  intro rest hrest
  exact List.isChain_cons_cons.2 ⟨hg, h rest hrest⟩

end Replaces

/-- A token that is not taken where a node is due. -/
theorem ne_go_of_leave {around : Option Frame} {p : Props} :
    (if !p.isNone then .ok (.done (.empty p) false)
      else if around.any (·.leavesOut t) then .ok (.done .empty (around.any (·.swallows)))
      else .error .grammar : Except Error Step) ≠ .ok (.go frames) := by
  intro h
  split at h
  · exact absurd (Except.ok.inj h) nofun
  · split at h
    · exact absurd (Except.ok.inj h) nofun
    · exact absurd h nofun

/-- A collection stands wherever a node is due. -/
theorem replaces_node {block indentless : Bool} {p : Props} {g : Frame}
    (hg : g.kind.isCollection = true) : Replaces (.node block indentless p) [g] := by
  refine .single fun k hk => Kind.standsOn_of_isCollection hg ?_
  rintro i rfl
  cases indentless <;> exact hk

theorem replaces_of_nodeStep {around : Option Frame} {block indentless : Bool} {p : Props}
    (h : nodeStep handles around block indentless p t = .ok (.go frames)) :
    Replaces (.node block indentless p) frames := by
  unfold nodeStep at h
  dsimp only at h
  split at h
  case h_1 =>
    split at h
    · exact absurd (Except.ok.inj h) nofun
    · exact absurd h ne_go_of_leave
  case h_2 =>
    split at h
    · obtain rfl := Step.go.inj (Except.ok.inj h)
      exact .single fun _ hk => hk
    · exact absurd h ne_go_of_leave
  case h_3 =>
    split at h
    · obtain ⟨tag, -, h⟩ := bind_eq_ok_iff.1 h
      obtain rfl := Step.go.inj (Except.ok.inj h)
      exact .single fun _ hk => hk
    · exact absurd h ne_go_of_leave
  case h_4 => exact absurd (Except.ok.inj h) nofun
  case h_5 =>
    obtain rfl := Step.go.inj (Except.ok.inj h)
    exact replaces_node rfl
  case h_6 =>
    obtain rfl := Step.go.inj (Except.ok.inj h)
    exact replaces_node rfl
  case h_7 =>
    split at h
    · obtain rfl := Step.go.inj (Except.ok.inj h)
      exact replaces_node rfl
    · exact absurd h ne_go_of_leave
  case h_8 =>
    split at h
    · obtain rfl := Step.go.inj (Except.ok.inj h)
      exact replaces_node rfl
    · exact absurd h ne_go_of_leave
  case h_9 =>
    split at h
    case isTrue hindentless =>
      obtain rfl := Step.go.inj (Except.ok.inj h)
      subst hindentless
      refine .cons trivial (.single fun k hk => ?_)
      cases k <;> exact hk
    case isFalse => exact absurd h ne_go_of_leave
  case h_10 => exact absurd h ne_go_of_leave

/-- A construct that is not a place for a node may contain one. -/
theorem replaces_place {g : Frame} {block indentless : Bool} {p : Props} (hkind : f.kind = g.kind)
    (hplace : (Frame.node block indentless p).kind.StandsOn g.kind) :
    Replaces f [.node block indentless p, g] :=
  .cons hplace (.single fun _ hk => hkind ▸ hk)

theorem replaces_of_bareStep {around : Frame}
    (hkind : f.kind = around.kind) (hnode : (Kind.node false).StandsOn around.kind)
    (h : bareStep handles around t = .ok (.go frames)) : Replaces f frames := by
  obtain ⟨s, hs, h⟩ := bind_eq_ok_iff.1 h
  cases s with
  | go inner =>
    obtain rfl := Step.go.inj (Except.ok.inj h)
    intro rest hrest
    rw [List.append_assoc]
    refine replaces_of_nodeStep hs _ (List.isChain_cons_cons.2 ⟨hnode, ?_⟩)
    rw [← hkind]
    exact hrest
  | done node taken =>
    obtain rfl := Step.go.inj (Except.ok.inj h)
    exact .single fun k hk => by rwa [kind_put, ← hkind]

theorem replaces_of_blockMapStep {p : Props} {es es' : List (Source × Source)} {slot : Slot}
    (h : blockMapStep p es t = .ok (.go frames)) : Replaces (.blockMap p es' slot) frames := by
  unfold blockMapStep at h
  split at h
  case h_1 =>
    obtain rfl := Step.go.inj (Except.ok.inj h)
    exact replaces_place rfl rfl
  case h_2 => exact absurd (Except.ok.inj h) nofun
  case h_3 => exact absurd h nofun

theorem replaces_of_flowMapStep {p : Props} {es es' : List (Source × Source)} {slot : Slot}
    (h : flowMapStep p es t = .ok (.go frames)) : Replaces (.flowMap p es' slot) frames := by
  unfold flowMapStep at h
  split at h
  case h_1 => exact absurd (Except.ok.inj h) nofun
  case h_2 =>
    obtain rfl := Step.go.inj (Except.ok.inj h)
    exact .single fun _ hk => hk
  case h_3 => exact absurd h nofun

theorem replaces_of_step {around : Option Frame} (h : step handles around t f = .ok (.go frames)) :
    Replaces f frames := by
  unfold step at h
  split at h
  case h_1 => exact replaces_of_nodeStep h
  case h_2 =>
    split at h
    case h_3 => exact absurd h nofun
    all_goals
      obtain rfl := Step.go.inj (Except.ok.inj h)
      exact .single fun _ hk => hk
  case h_3 =>
    split at h
    case h_1 =>
      obtain rfl := Step.go.inj (Except.ok.inj h)
      exact replaces_place rfl trivial
    case h_2 => exact absurd (Except.ok.inj h) nofun
    case h_3 => exact absurd h nofun
  case h_4 =>
    split at h
    case h_1 =>
      obtain rfl := Step.go.inj (Except.ok.inj h)
      exact replaces_place rfl trivial
    case h_2 => exact absurd (Except.ok.inj h) nofun
  case h_5 =>
    split at h
    case h_1 =>
      obtain rfl := Step.go.inj (Except.ok.inj h)
      exact replaces_place rfl rfl
    case h_2 => exact replaces_of_blockMapStep h
    case h_3 => exact replaces_of_blockMapStep h
  case h_6 =>
    split at h
    case h_1 => exact absurd (Except.ok.inj h) nofun
    case h_2 =>
      obtain rfl := Step.go.inj (Except.ok.inj h)
      exact .single fun _ hk => hk
    case h_3 => exact absurd h nofun
    case h_4 =>
      obtain rfl := Step.go.inj (Except.ok.inj h)
      exact .cons trivial (.cons rfl (.single fun _ hk => hk))
    case h_5 => exact replaces_of_bareStep rfl trivial h
  case h_7 =>
    split at h
    case h_1 =>
      obtain rfl := Step.go.inj (Except.ok.inj h)
      exact replaces_place rfl trivial
    case h_2 => exact absurd (Except.ok.inj h) nofun
    case h_3 => exact absurd h nofun
  case h_8 =>
    split at h
    case h_1 =>
      obtain rfl := Step.go.inj (Except.ok.inj h)
      exact replaces_place rfl trivial
    case h_2 => exact replaces_of_flowMapStep h
    case h_3 => exact replaces_of_flowMapStep h
    case h_4 => exact absurd (Except.ok.inj h) nofun
    case h_5 =>
      obtain rfl := Step.go.inj (Except.ok.inj h)
      exact replaces_place rfl trivial
    case h_6 =>
      refine replaces_of_bareStep ?_ ?_ h
      · rfl
      · trivial

/-- Handing a node on takes away constructs, but does not change their kinds. -/
theorem stacked_deliver (n : Source) (h : Stacked frames) : Stacked (deliver n frames) := by
  fun_induction deliver n frames with
  | case1 => exact h
  | case2 n k rest ih => exact ih h.tail
  | case3 n f rest _ =>
    unfold Stacked at h ⊢
    rwa [List.map_cons, kind_put]

theorem stacked_feedWithin {k : ℕ} (hs : Stacked frames)
    (h : feedWithin handles t k frames = .ok frames') : Stacked frames' := by
  fun_induction feedWithin handles t k frames with
  | case1 k f rest ih =>
    obtain ⟨s, hs', h⟩ := bind_eq_ok_iff.1 h
    cases s with
    | go inner =>
      obtain rfl := Except.ok.inj h
      exact replaces_of_step hs' rest hs
    | done node taken =>
      have htail : Stacked rest := hs.tail
      cases taken with
      | true => exact Except.ok.inj h ▸ stacked_deliver node htail
      | false => exact ih node (stacked_deliver node htail) h
  | case2 => exact absurd h nofun

/-! ## A sequence that is the whole document -/

/-- The sequence with some items, the last one first, in its document. -/
def root (explicit : Bool) (items : List Source) : List Frame :=
  [.blockSeq {} items, .document explicit none]

/-- The document, when the sequence is complete. -/
def complete (explicit : Bool) (items : List Source) : List Frame :=
  [.document explicit (some (.seq {} items.reverse))]

/-- What happens inside does not depend on the items that are there already. -/
theorem step_root (t : Token) (f : Frame) (inner : List Frame) (e e' : Bool)
    (items items' : List Source) :
    step handles (inner ++ root e items).head? t f =
      step handles (inner ++ root e' items').head? t f := by
  cases inner with
  | nil => cases f <;> rfl
  | cons g inner => rfl

theorem exists_deliver (n : Source) (inner : List Frame) :
    ∃ inner' added, ∀ e items,
      deliver n (inner ++ root e items) = inner' ++ root e (added ++ items) := by
  induction inner generalizing n with
  | nil => exact ⟨[], [n], fun _ _ => rfl⟩
  | cons f inner ih =>
    by_cases hpair : ∃ k, f = .flowPair (.inValue k)
    · obtain ⟨k, rfl⟩ := hpair
      exact ih (.map {} [(k, n)])
    · refine ⟨f.put n :: inner, [], fun e items => ?_⟩
      rw [List.cons_append, deliver]
      · rfl
      · exact fun k heq => hpair ⟨k, heq⟩

/-- What a token does to the stack inside the sequence. -/
inductive Fed (handles : TagHandles) (t : Token) (k : ℕ) (inner : List Frame) : Prop where
  | inside (inner' : List Frame) (added : List Source)
      (h : ∀ e items, feedWithin handles t k (inner ++ root e items) =
        .ok (inner' ++ root e (added ++ items)))
  | ends (ht : t = .blockEnd) (added : List Source)
      (h : ∀ e items, feedWithin handles t k (inner ++ root e items) =
        .ok (complete e (added ++ items)))
  | fails (h : ∀ e items, ∃ error, feedWithin handles t k (inner ++ root e items) = .error error)

theorem feedWithin_cons (k : ℕ) (f : Frame) (frames : List Frame) :
    feedWithin handles t (k + 1) (f :: frames) = (step handles frames.head? t f).bind fun
      | .go inner => .ok (inner ++ frames)
      | .done node true => .ok (deliver node frames)
      | .done node false => feedWithin handles t k (deliver node frames) := by
  rw [feedWithin]
  refine bind_congr fun s => ?_
  split <;> rfl

theorem fed (handles : TagHandles) (t : Token) (k : ℕ) (inner : List Frame) :
    Fed handles t k inner := by
  induction k generalizing inner with
  | zero => exact .fails fun _ _ => ⟨_, by cases inner <;> rfl⟩
  | succ k ih =>
    cases inner with
    | nil =>
      by_cases hentry : t = .blockEntry
      · subst hentry
        exact .inside [.node true false {}] [] fun _ _ => rfl
      · by_cases hend : t = .blockEnd
        · subst hend
          exact .ends rfl [] fun _ _ => rfl
        · refine .fails fun e items => ⟨.grammar, ?_⟩
          rw [List.nil_append, root, feedWithin_cons]
          cases t <;> first | rfl | exact absurd rfl hentry | exact absurd rfl hend
    | cons f inner =>
      have hstep : ∀ e items, step handles (inner ++ root e items).head? t f =
          step handles (inner ++ root true []).head? t f :=
        fun e items => step_root t f inner e true items []
      cases hs : step handles (inner ++ root true []).head? t f with
      | error error =>
        refine .fails fun e items => ⟨error, ?_⟩
        rw [List.cons_append, feedWithin_cons, hstep, hs]
        rfl
      | ok s =>
        cases s with
        | go frames =>
          refine .inside (frames ++ inner) [] fun e items => ?_
          rw [List.cons_append, feedWithin_cons, hstep, hs, List.append_assoc]
          rfl
        | done node taken =>
          obtain ⟨inner', added, hdeliver⟩ := exists_deliver node inner
          have hfeed : ∀ e items, feedWithin handles t (k + 1) (f :: inner ++ root e items) =
              if taken then .ok (inner' ++ root e (added ++ items))
              else feedWithin handles t k (inner' ++ root e (added ++ items)) := by
            intro e items
            rw [List.cons_append, feedWithin_cons, hstep, hs, ← hdeliver]
            cases taken <;> rfl
          cases taken with
          | true => exact .inside inner' added hfeed
          | false =>
            cases ih inner' with
            | inside inner'' added' h =>
              refine .inside inner'' (added' ++ added) fun e items => ?_
              rw [List.append_assoc]
              exact (hfeed e items).trans (h e _)
            | ends ht added' h =>
              refine .ends ht (added' ++ added) fun e items => ?_
              rw [List.append_assoc]
              exact (hfeed e items).trans (h e _)
            | fails h =>
              refine .fails fun e items => ?_
              obtain ⟨error, herror⟩ := h e (added ++ items)
              exact ⟨error, (hfeed e items).trans herror⟩

/-- What may follow when the sequence is complete. -/
def Token.isLast : Token → Bool
  | .documentEnd | .streamEnd => true
  | _ => false

theorem feed_complete (t : Token) (e : Bool) (items : List Source) :
    feed handles (complete e items) t =
      if t.isLast then .ok (complete e items) else .error .documents := by
  cases t <;> rfl

theorem foldlM_complete (l : List Token) (e : Bool) (items : List Source) :
    l.foldlM (feed handles) (complete e items) =
      if l.all Token.isLast then .ok (complete e items) else .error .documents := by
  induction l with
  | nil => rfl
  | cons t l ih =>
    rw [List.foldlM_cons, feed_complete]
    by_cases ht : t.isLast = true
    · rw [if_pos ht, ok_bind, ih, List.all_cons, ht, Bool.true_and]
    · rw [if_neg ht, List.all_cons, Bool.eq_false_iff.2 ht, Bool.false_and]
      rfl

/-- What tokens do to the stack inside the sequence. -/
inductive Followed (handles : TagHandles) (l : List Token) (inner : List Frame) : Prop where
  | inside (inner' : List Frame) (added : List Source)
      (h : ∀ e items, l.foldlM (feed handles) (inner ++ root e items) =
        .ok (inner' ++ root e (added ++ items)))
  | ends (before rest : List Token) (hl : l = before ++ .blockEnd :: rest)
      (hrest : rest.all Token.isLast = true) (added : List Source)
      (h : ∀ e items, l.foldlM (feed handles) (inner ++ root e items) =
        .ok (complete e (added ++ items)))
  | fails (h : ∀ e items, ∃ error, l.foldlM (feed handles) (inner ++ root e items) = .error error)

theorem feed_root (t : Token) (inner : List Frame) (e : Bool) (items : List Source) :
    feed handles (inner ++ root e items) t =
      feedWithin handles t (inner.length + 2) (inner ++ root e items) := by
  rw [feed, List.length_append]
  rfl

theorem followed (handles : TagHandles) (l : List Token) (inner : List Frame) :
    Followed handles l inner := by
  induction l generalizing inner with
  | nil => exact .inside inner [] fun _ _ => rfl
  | cons t l ih =>
    have hcons : ∀ e items, (t :: l).foldlM (feed handles) (inner ++ root e items) =
        feedWithin handles t (inner.length + 2) (inner ++ root e items) >>=
          l.foldlM (feed handles) := by
      intro e items
      rw [List.foldlM_cons, feed_root]
    cases fed handles t (inner.length + 2) inner with
    | inside inner' added h =>
      have hcons' : ∀ e items, (t :: l).foldlM (feed handles) (inner ++ root e items) =
          l.foldlM (feed handles) (inner' ++ root e (added ++ items)) := fun e items => by
        rw [hcons, h, ok_bind]
      cases ih inner' with
      | inside inner'' added' h' =>
        refine .inside inner'' (added' ++ added) fun e items => ?_
        rw [List.append_assoc]
        exact (hcons' e items).trans (h' e _)
      | ends before rest hl hrest added' h' =>
        refine .ends (t :: before) rest (congrArg (t :: ·) hl) hrest (added' ++ added)
          fun e items => ?_
        rw [List.append_assoc]
        exact (hcons' e items).trans (h' e _)
      | fails h' =>
        refine .fails fun e items => ?_
        obtain ⟨error, herror⟩ := h' e (added ++ items)
        exact ⟨error, (hcons' e items).trans herror⟩
    | ends ht added h =>
      have hcons' : ∀ e items, (t :: l).foldlM (feed handles) (inner ++ root e items) =
          if l.all Token.isLast then .ok (complete e (added ++ items)) else .error .documents :=
        fun e items => by rw [hcons, h, ok_bind, foldlM_complete]
      by_cases hl : l.all Token.isLast = true
      · exact .ends [] l (congrArg (· :: l) ht) hl added fun e items => by rw [hcons', if_pos hl]
      · exact .fails fun e items => ⟨_, by rw [hcons', if_neg hl]⟩
    | fails h =>
      refine .fails fun e items => ?_
      obtain ⟨error, herror⟩ := h e items
      exact ⟨error, by rw [hcons, herror]; rfl⟩

/-! ## An entry in place of the end -/

theorem length_root_lt (inner : List Frame) (e : Bool) (items : List Source) :
    1 < (inner ++ root e items).length := by
  rw [List.length_append]
  exact Nat.lt_add_left inner.length (Nat.lt_succ_self 1)

theorem root_ne_singleton {inner : List Frame} {e : Bool} {items : List Source} :
    inner ++ root e items ≠ [f] := fun h =>
  Nat.ne_of_gt (length_root_lt inner e items) (congrArg List.length h)

/-- The constructs that go away at the end of a block and leave it to the one around them. -/
theorem kind_of_leaves {around : Option Frame}
    (h : step handles around .blockEnd f = .ok (.done n false)) :
    (∃ i, f.kind = .node i) ∨ f.kind = .indentlessSeq ∨ f.kind = .flowPair := by
  cases f with
  | node block indentless p => exact .inl ⟨indentless, rfl⟩
  | document explicit root => exact absurd h nofun
  | blockSeq p items => exact absurd h nofun
  | indentlessSeq p items => exact .inr (.inl rfl)
  | blockMap p es slot => cases slot <;> exact absurd h nofun
  | flowSeq p items filled => cases filled <;> exact absurd h nofun
  | flowPair slot => exact .inr (.inr rfl)
  | flowMap p es slot => cases slot <;> exact absurd h nofun

/-- A node that is handed on does not end up in a place for a node. -/
theorem exists_cons_deliver {g : Frame} (n : Source) {inner : List Frame} {e : Bool}
    {items : List Source} (h : Stacked (f :: g :: inner ++ root e items)) :
    ∃ g' inner', deliver n (g :: inner ++ root e items) = g' :: inner' ++ root e items ∧
      ∀ i, g'.kind ≠ .node i := by
  obtain ⟨hf, hg⟩ := List.isChain_cons_cons.1 h
  by_cases hpair : ∃ k, g = .flowPair (.inValue k)
  · obtain ⟨k, rfl⟩ := hpair
    -- Such a pair stands in a bracketed sequence, which takes the pair.
    cases inner with
    | nil => exact absurd (List.isChain_cons_cons.1 hg).1 nofun
    | cons c inner =>
      have hc : c.kind = .flowSeq := Kind.eq_of_flowPair_standsOn (List.isChain_cons_cons.1 hg).1
      refine ⟨c.put (.map {} [(k, n)]), inner, ?_, fun i => ?_⟩
      · rw [List.cons_append, List.cons_append, deliver, deliver]
        · rfl
        · rintro k' rfl
          exact absurd hc nofun
      · rw [kind_put, hc]
        exact nofun
  · refine ⟨g.put n, inner, ?_, fun i hi => ?_⟩
    · rw [List.cons_append, deliver]
      · rfl
      · exact fun k heq => hpair ⟨k, heq⟩
    · rw [kind_put] at hi
      exact Kind.not_standsOn_node (hi ▸ hf)

/-- The end of the sequence is taken where an item is complete, or where it is left out. -/
theorem eq_of_feed_blockEnd {k : ℕ} {inner : List Frame} {e : Bool} {items items' : List Source}
    (hs : Stacked (inner ++ root e items))
    (h : feedWithin handles .blockEnd k (inner ++ root e items) = .ok (complete e items')) :
    inner = [] ∨ ∃ block p, inner = [.node block false p] := by
  induction k generalizing inner with
  | zero => exact absurd h (by cases inner <;> nofun)
  | succ k ih =>
    cases inner with
    | nil => exact .inl rfl
    | cons f inner =>
      rw [List.cons_append, feedWithin_cons] at h
      obtain ⟨s, hstep, h⟩ := bind_eq_ok_iff.1 h
      cases s with
      | go frames =>
        have h := Except.ok.inj h
        rw [← List.append_assoc] at h
        exact absurd h root_ne_singleton
      | done node taken =>
        cases taken with
        | true =>
          obtain ⟨inner', added, hdeliver⟩ := exists_deliver node inner
          exact absurd ((hdeliver e items).symm.trans (Except.ok.inj h)) root_ne_singleton
        | false =>
          cases inner with
          | nil =>
            have hf := Kind.eq_of_standsOn_blockSeq (List.isChain_cons_cons.1 hs).1
              (kind_of_leaves hstep)
            cases f with
            | node block indentless p =>
              obtain rfl : indentless = false := Frame.Kind.node.inj hf
              exact .inr ⟨block, p, rfl⟩
            | _ => exact absurd hf nofun
          | cons g inner =>
            obtain ⟨g', inner', hdeliver, hg'⟩ := exists_cons_deliver node hs
            have hstacked : Stacked (g' :: inner' ++ root e items) :=
              hdeliver ▸ stacked_deliver node hs.tail
            have h : feedWithin handles .blockEnd k (deliver node (g :: inner ++ root e items)) =
                .ok (complete e items') := h
            rw [hdeliver] at h
            rcases ih hstacked h with hnil | ⟨block, p, hnode⟩
            · exact absurd hnil nofun
            · obtain ⟨rfl, -⟩ := List.cons.inj hnode
              exact absurd rfl (hg' false)

/-- A place for a node is left empty by the next entry, as by the end of the sequence. -/
theorem feed_place {block : Bool} {p : Props} (e : Bool) (items : List Source)
    (ht : t = .blockEnd ∨ t = .blockEntry) (k : ℕ) :
    feedWithin handles t (k + 1) (.node block false p :: root e items) =
      feedWithin handles t k (root e (.empty p :: items)) := by
  rw [feedWithin_cons]
  obtain ⟨anchor, tag⟩ := p
  rcases ht with rfl | rfl <;> cases anchor <;> cases tag <;> rfl

theorem complete_injective {e : Bool} {items items' : List Source}
    (h : complete e items = complete e items') : items = items' := by
  have hroot := (Frame.document.inj (List.cons.inj h).1).2
  exact List.reverse_injective (Source.seq.inj (Option.some.inj hroot)).2

/-- Where the sequence may end, the next entry may follow. -/
theorem feed_blockEntry {inner : List Frame} {e : Bool} {items items' : List Source}
    (hs : Stacked (inner ++ root e items))
    (h : feed handles (inner ++ root e items) .blockEnd = .ok (complete e items')) :
    feed handles (inner ++ root e items) .blockEntry =
      .ok (.node true false {} :: root e items') := by
  rw [feed_root] at h ⊢
  rcases eq_of_feed_blockEnd hs h with rfl | ⟨block, p, rfl⟩
  · obtain rfl := complete_injective (Except.ok.inj h)
    rfl
  · rw [List.singleton_append, feed_place e items (.inl rfl)] at h
    rw [List.singleton_append, feed_place e items (.inr rfl)]
    obtain rfl := complete_injective (Except.ok.inj h)
    rfl

/-! ## Documents -/

theorem stacked_foldlM {l : List Token} (hs : Stacked frames)
    (h : l.foldlM (feed handles) frames = .ok frames') : Stacked frames' := by
  induction l generalizing frames with
  | nil => exact Except.ok.inj h ▸ hs
  | cons t l ih =>
    obtain ⟨mid, hmid, h⟩ := bind_eq_ok_iff.1 ((List.foldlM_cons ..).symm.trans h)
    exact ih (stacked_feedWithin hs hmid) h

theorem documentOf_blockSequenceStart (handles : TagHandles) (e : Bool) (l : List Token) :
    documentOf handles e (.blockSequenceStart :: l) = (do
      match ← l.foldlM (feed handles) ([] ++ root e []) with
      | [.document _ root] => return root
      | _ => throw .grammar) := rfl

/-- A document that starts with a sequence ends with it. -/
theorem exists_of_documentOf {e : Bool} {l : List Token} {r : Option Source}
    (h : documentOf handles e (.blockSequenceStart :: l) = .ok r) :
    ∃ items, l.foldlM (feed handles) (root e []) = .ok (complete e items) ∧
      r = some (.seq {} items.reverse) := by
  rw [documentOf_blockSequenceStart] at h
  obtain ⟨frames, hfold, h⟩ := bind_eq_ok_iff.1 h
  cases followed handles l [] with
  | inside inner added hin =>
    obtain rfl := Except.ok.inj ((hin e []).symm.trans hfold)
    split at h
    case h_1 heq => exact absurd heq root_ne_singleton
    case h_2 => exact absurd h nofun
  | ends before rest hl hrest added hends =>
    obtain rfl := Except.ok.inj ((hends e []).symm.trans hfold)
    exact ⟨added ++ [], hends e [], (Except.ok.inj h).symm⟩
  | fails hfails =>
    obtain ⟨error, herror⟩ := hfails e []
    exact absurd (herror.symm.trans hfold) nofun

/-- Nothing but the ends of the document and of the stream follows the end of the sequence. -/
theorem exists_blockEnd_of_documentOf {e : Bool} {l : List Token} {r : Option Source}
    (h : documentOf handles e (.blockSequenceStart :: l) = .ok r) :
    ∃ before rest, l = before ++ .blockEnd :: rest ∧ rest.all Token.isLast = true := by
  obtain ⟨items, hfold, -⟩ := exists_of_documentOf h
  cases followed handles l [] with
  | inside inner added hin =>
    exact absurd (Except.ok.inj ((hin e []).symm.trans hfold)) root_ne_singleton
  | ends before rest hl hrest _ _ => exact ⟨before, rest, hl, hrest⟩
  | fails hfails =>
    obtain ⟨error, herror⟩ := hfails e []
    exact absurd (herror.symm.trans hfold) nofun

/-- The end of the stream does not end a sequence. -/
theorem feed_blockEnd_of_foldlM {inner : List Frame} {e : Bool} {items items' : List Source}
    (h : [Token.blockEnd, .streamEnd].foldlM (feed handles) (inner ++ root e items) =
      .ok (complete e items')) :
    feed handles (inner ++ root e items) .blockEnd = .ok (complete e items') := by
  obtain ⟨frames, hframes, hlast⟩ := bind_eq_ok_iff.1 ((List.foldlM_cons ..).symm.trans h)
  rw [hframes]
  rw [feed_root] at hframes
  cases fed handles .blockEnd (inner.length + 2) inner with
  | inside inner' added hin =>
    obtain rfl := Except.ok.inj ((hin e items).symm.trans hframes)
    cases followed handles [.streamEnd] inner' with
    | inside inner'' added' hin' =>
      exact absurd (Except.ok.inj ((hin' e _).symm.trans hlast)) root_ne_singleton
    | ends before rest hl _ _ _ =>
      have hmem : Token.blockEnd ∈ [Token.streamEnd] := hl ▸ List.mem_append_cons_self
      exact absurd hmem (by decide)
    | fails hfails =>
      obtain ⟨error, herror⟩ := hfails e (added ++ items)
      exact absurd (herror.symm.trans hlast) nofun
  | ends _ added hends =>
    obtain rfl := Except.ok.inj ((hends e items).symm.trans hframes)
    exact hlast
  | fails hfails =>
    obtain ⟨error, herror⟩ := hfails e items
    exact absurd (herror.symm.trans hframes) nofun

/-- Up to its end, a sequence may go on with another entry. -/
theorem foldlM_blockEntry {e : Bool} {l : List Token} {items : List Source}
    (h : (l ++ [Token.blockEnd, .streamEnd]).foldlM (feed handles) ([] ++ root e []) =
      .ok (complete e items)) :
    (l ++ [Token.blockEntry]).foldlM (feed handles) ([] ++ root e []) =
      .ok (.node true false {} :: root e items) := by
  rw [List.foldlM_append] at h ⊢
  cases followed handles l [] with
  | inside inner added hin =>
    have hroot : Stacked ([] ++ root e []) := .cons_cons trivial (.singleton _)
    have hstacked := stacked_foldlM hroot (hin e [])
    rw [hin, ok_bind] at h ⊢
    rw [List.foldlM_cons, feed_blockEntry hstacked (feed_blockEnd_of_foldlM h)]
    rfl
  | ends before rest hl hrest added hends =>
    rw [hends, ok_bind, foldlM_complete] at h
    exact absurd h nofun
  | fails hfails =>
    obtain ⟨error, herror⟩ := hfails e []
    rw [herror] at h
    exact absurd h nofun

/-- Two sequences, the second one without its start and the first one without its end. -/
theorem documentOf_append {e e' : Bool} {before after : List Token} {s s' : Source}
    (h : documentOf handles e (.blockSequenceStart :: (before ++ [.blockEnd, .streamEnd])) =
      .ok (some s))
    (h' : documentOf handles e' (.blockSequenceStart :: .blockEntry :: after) = .ok (some s')) :
    ∃ items items', s = .seq {} items ∧ s' = .seq {} items' ∧
      documentOf handles e (.blockSequenceStart :: (before ++ .blockEntry :: after)) =
        .ok (some (.seq {} (items ++ items'))) := by
  obtain ⟨items, hfold, hs⟩ := exists_of_documentOf h
  obtain ⟨items', hfold', hs'⟩ := exists_of_documentOf h'
  have hfold' : after.foldlM (feed handles) ([.node true false {}] ++ root e' []) =
      .ok (complete e' items') := hfold'
  cases followed handles after [.node true false {}] with
  | inside inner added hin =>
    exact absurd (Except.ok.inj ((hin e' []).symm.trans hfold')) root_ne_singleton
  | ends _ rest hl hrest added hends =>
    obtain rfl := complete_injective (Except.ok.inj ((hends e' []).symm.trans hfold'))
    refine ⟨_, _, Option.some.inj hs, Option.some.inj hs', ?_⟩
    rw [documentOf_blockSequenceStart, List.append_cons, List.foldlM_append,
      foldlM_blockEntry hfold, ok_bind]
    refine (congrArg (· >>= _) (hends e items)).trans ?_
    rw [← List.reverse_append, List.append_nil]
    rfl
  | fails hfails =>
    obtain ⟨error, herror⟩ := hfails e' []
    exact absurd (herror.symm.trans hfold') nofun

end Yaml
end LayeredConfig
