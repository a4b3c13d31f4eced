/-
Numbering in two places.

Anchors are numbered in the order in which they start (`Source.nodes`), and an alias gets the number
of an anchor in front of it. A node that is numbered in another place, behind other anchors, gets
other numbers, and that is all: the two numbered nodes are the same up to their links (`Twin`),
whose numbers are related as those that the aliases get in the two places (`exists_number_twins`).
-/
import Mathlib
import LayeredConfig.Yaml.Value
import LayeredConfig.Proofs.Result

namespace LayeredConfig
namespace Yaml

/-! ## Nodes in their order -/

namespace Source

/-- What is written in front of the node. -/
def props : Source → Props
  | .scalar p .. | .seq p _ | .map p _ => p
  | .alias _ => {}

/-- The name of an alias. -/
def alias? : Source → Option String
  | .alias name => some name
  | _ => none

/-- The nodes in a node, itself first, in the order in which they start. -/
def nodes : Source → List Source
  | .scalar p style text => [.scalar p style text]
  | .seq p items => .seq p items :: nodesOfItems items
  | .map p entries => .map p entries :: nodesOfEntries entries
  | .alias name => [.alias name]
where
  nodesOfItems : List Source → List Source
    | [] => []
    | x :: rest => x.nodes ++ nodesOfItems rest
  nodesOfEntries : List (Source × Source) → List Source
    | [] => []
    | (k, v) :: rest => k.nodes ++ v.nodes ++ nodesOfEntries rest

theorem nodesOfItems_append (items items' : List Source) :
    nodes.nodesOfItems (items ++ items') =
      nodes.nodesOfItems items ++ nodes.nodesOfItems items' := by
  induction items with
  | nil => rfl
  | cons x items ih =>
    rw [List.cons_append, nodes.nodesOfItems, nodes.nodesOfItems, ih, List.append_assoc]

theorem nodesOfItems_flatten (lists : List (List Source)) :
    nodes.nodesOfItems lists.flatten = (lists.map nodes.nodesOfItems).flatten := by
  induction lists with
  | nil => rfl
  | cons items lists ih =>
    rw [List.flatten_cons, nodesOfItems_append, ih, List.map_cons, List.flatten_cons]

end Source

namespace AnchorNames

/-- The names after some nodes have started. -/
def after (names : AnchorNames) : List Source → AnchorNames
  | [] => names
  | s :: rest => (names.meet s.props).after rest

/-- The numbers of the anchors of some nodes. -/
def anchors (names : AnchorNames) : List Source → List ℕ
  | [] => []
  | s :: rest =>
    let inside := (names.meet s.props).anchors rest
    if s.props.anchor.isSome then names.length :: inside else inside

/-- The numbers of the aliases among some nodes. -/
def links (names : AnchorNames) : List Source → List (Option ℕ)
  | [] => []
  | s :: rest =>
    let inside := (names.meet s.props).links rest
    match s.alias? with
    | some name => names.lookup name :: inside
    | none => inside

variable {names names' : AnchorNames} {name : String}

theorem after_append (names : AnchorNames) (nodes nodes' : List Source) :
    names.after (nodes ++ nodes') = (names.after nodes).after nodes' := by
  induction nodes generalizing names with
  | nil => rfl
  | cons s nodes ih => exact ih _

theorem anchors_append (names : AnchorNames) (nodes nodes' : List Source) :
    names.anchors (nodes ++ nodes') =
      names.anchors nodes ++ (names.after nodes).anchors nodes' := by
  induction nodes generalizing names with
  | nil => rfl
  | cons s nodes ih =>
    rw [List.cons_append, anchors, anchors, ih]
    split <;> rfl

theorem links_append (names : AnchorNames) (nodes nodes' : List Source) :
    names.links (nodes ++ nodes') = names.links nodes ++ (names.after nodes).links nodes' := by
  induction nodes generalizing names with
  | nil => rfl
  | cons s nodes ih =>
    rw [List.cons_append, links, links, ih]
    cases s.alias? <;> rfl

theorem length_links (names names' : AnchorNames) (nodes : List Source) :
    (names.links nodes).length = (names'.links nodes).length := by
  induction nodes generalizing names names' with
  | nil => rfl
  | cons s nodes ih =>
    rw [links, links]
    cases s.alias? with
    | none => exact ih _ _
    | some name => exact congrArg (· + 1) (ih _ _)

theorem links_eq_nil {nodes : List Source} (h : ∀ s ∈ nodes, s.alias? = none) :
    names.links nodes = [] := by
  induction nodes generalizing names with
  | nil => rfl
  | cons s nodes ih =>
    rw [List.forall_mem_cons] at h
    rw [links, h.1]
    exact ih h.2

theorem mem_keys_meet {p : Props} :
    name ∈ (names.meet p).map (·.1) ↔ name ∈ names.map (·.1) ∨ p.anchor = some name := by
  rw [meet]
  cases p.anchor with
  | none => simp
  | some other =>
    by_cases hname : name = other
    · simp [hname]
    · simp [hname, Ne.symm hname]

theorem meet_subset (h : names.map (·.1) ⊆ names'.map (·.1)) (p : Props) :
    (names.meet p).map (·.1) ⊆ (names'.meet p).map (·.1) := fun _ hname =>
  mem_keys_meet.2 ((mem_keys_meet.1 hname).imp_left fun hname => h hname)

theorem after_subset (h : names.map (·.1) ⊆ names'.map (·.1)) (nodes : List Source) :
    (names.after nodes).map (·.1) ⊆ (names'.after nodes).map (·.1) := by
  induction nodes generalizing names names' with
  | nil => exact h
  | cons s nodes ih => exact ih (meet_subset h s.props)

end AnchorNames

/-! ## Numbering in two places -/

/-- Two numbered nodes that are the same up to the numbers of their links, which are related. -/
inductive Twin (P : ℕ → ℕ → Prop) : Linked → Linked → Prop where
  | scalar (tag : Option String) (style : ScalarStyle) (text : String) :
      Twin P (.scalar tag style text) (.scalar tag style text)
  | seq (tag : Option String) {items items' : List Linked}
      (h : List.Forall₂ (Twin P) items items') : Twin P (.seq tag items) (.seq tag items')
  | map (tag : Option String) {entries entries' : List (Linked × Linked)}
      (hkey : List.Forall₂ (Twin P) (entries.map (·.1)) (entries'.map (·.1)))
      (hvalue : List.Forall₂ (Twin P) (entries.map (·.2)) (entries'.map (·.2))) :
      Twin P (.map tag entries) (.map tag entries')
  | link {n n' : ℕ} (h : P n n') : Twin P (.link n) (.link n')

/-- Two entries whose keys and values are the same up to their links. -/
def TwinEntries (P : ℕ → ℕ → Prop) (e e' : Linked × Linked) : Prop :=
  Twin P e.1 e'.1 ∧ Twin P e.2 e'.2

theorem Twin.of_entries {P : ℕ → ℕ → Prop} (tag : Option String)
    {entries entries' : List (Linked × Linked)}
    (h : List.Forall₂ (TwinEntries P) entries entries') :
    Twin P (.map tag entries) (.map tag entries') := by
  refine .map tag ?_ ?_ <;> rw [List.forall₂_map_left_iff, List.forall₂_map_right_iff]
  · exact h.imp fun _ _ => And.left
  · exact h.imp fun _ _ => And.right

/-- The numbers that an alias among some nodes gets in two places are related. -/
def AllLinks (P : ℕ → ℕ → Prop) (names names' : AnchorNames) : List Source → Prop
  | [] => True
  | s :: rest =>
    (∀ name, s.alias? = some name → ∀ n n', names.lookup name = some n →
      names'.lookup name = some n' → P n n') ∧
    AllLinks P (names.meet s.props) (names'.meet s.props) rest

section

variable {P : ℕ → ℕ → Prop} {names names' : AnchorNames}

theorem allLinks_append {nodes nodes' : List Source} :
    AllLinks P names names' (nodes ++ nodes') ↔
      AllLinks P names names' nodes ∧
        AllLinks P (names.after nodes) (names'.after nodes) nodes' := by
  induction nodes generalizing names names' with
  | nil => exact (and_iff_right trivial).symm
  | cons s nodes ih => exact (and_congr_right' ih).trans and_assoc.symm

theorem allLinks_of_unaliased {nodes : List Source} (h : ∀ s ∈ nodes, s.alias? = none) :
    AllLinks P names names' nodes := by
  induction nodes generalizing names names' with
  | nil => trivial
  | cons s nodes ih =>
    rw [List.forall_mem_cons] at h
    exact ⟨fun name hname => absurd (h.1.symm.trans hname) nofun, ih h.2⟩

theorem exists_lookup_of_mem_keys {name : String} (h : name ∈ names.map (·.1)) :
    ∃ n, names.lookup name = some n := by
  cases hlookup : names.lookup name with
  | some n => exact ⟨n, rfl⟩
  | none =>
    obtain ⟨e, he, rfl⟩ := List.mem_map.1 h
    exact absurd (List.lookup_eq_none_iff.1 hlookup e he) (by simp)

theorem mem_keys_of_lookup {name : String} {n : ℕ} (h : names.lookup name = some n) :
    name ∈ names.map (·.1) := by
  obtain ⟨before, after, rfl, -⟩ := List.lookup_eq_some_iff.1 h
  simp

end

namespace Numbered

variable {α β γ : Type} {names : AnchorNames} {nodes nodes' : List Source}

/-- The names and the anchors are those of some nodes. -/
structure Follows (names : AnchorNames) (nodes : List Source) (r : Numbered α) : Prop where
  anchors : r.anchored.map (·.1) = names.anchors nodes
  met : r.names = names.after nodes

/-- Numberings of the same nodes in two places, with results that are related. The anchored nodes
are the same up to their links. -/
structure Twins (R : α → α → Prop) (P : ℕ → ℕ → Prop) (names names' : AnchorNames)
    (nodes : List Source) (r r' : Numbered α) : Prop where
  result : R r.result r'.result
  anchored : List.Forall₂ (Twin P) (r.anchored.map (·.2)) (r'.anchored.map (·.2))
  follows : r.Follows names nodes
  follows' : r'.Follows names' nodes

variable {R : α → α → Prop} {S : β → β → Prop} {P : ℕ → ℕ → Prop} {names' : AnchorNames}

theorem Follows.node {s : Source} {inside : Numbered α} (l : Linked)
    (h : inside.Follows (names.meet s.props) nodes) :
    Follows names (s :: nodes)
      (⟨l, inside.names, anchoredAt names s.props l inside.anchored⟩ : Numbered Linked) := by
  refine ⟨?_, h.met⟩
  rw [AnchorNames.anchors, anchoredAt, ← h.anchors]
  split <;> rfl

theorem Follows.append {first : Numbered α} {rest : Numbered β} (c : γ)
    (h : first.Follows names nodes) (h' : rest.Follows first.names nodes') :
    Follows names (nodes ++ nodes')
      (⟨c, rest.names, first.anchored ++ rest.anchored⟩ : Numbered γ) := by
  constructor
  · rw [AnchorNames.anchors_append, ← h.met, ← h.anchors, ← h'.anchors, List.map_append]
  · rw [AnchorNames.after_append, ← h.met, h'.met]

namespace Twins

theorem node {s : Source} {inside inside' : Numbered α} {l l' : Linked}
    (h : inside.Twins R P (names.meet s.props) (names'.meet s.props) nodes inside')
    (hl : Twin P l l') : Twins (Twin P) P names names' (s :: nodes)
      ⟨l, inside.names, anchoredAt names s.props l inside.anchored⟩
      ⟨l', inside'.names, anchoredAt names' s.props l' inside'.anchored⟩ := by
  refine ⟨hl, ?_, h.follows.node l, h.follows'.node l'⟩
  dsimp only [anchoredAt]
  split
  · exact .cons hl h.anchored
  · exact h.anchored

theorem append {T : γ → γ → Prop} {first first' : Numbered α} {rest rest' : Numbered β} {c c' : γ}
    (h : first.Twins R P names names' nodes first')
    (h' : rest.Twins S P first.names first'.names nodes' rest') (hc : T c c') :
    Twins T P names names' (nodes ++ nodes') ⟨c, rest.names, first.anchored ++ rest.anchored⟩
      ⟨c', rest'.names, first'.anchored ++ rest'.anchored⟩ := by
  refine ⟨hc, ?_, h.follows.append c h'.follows, h.follows'.append c' h'.follows'⟩
  rw [List.map_append, List.map_append]
  exact List.rel_append h.anchored h'.anchored

/-- What follows is numbered in two places again. -/
theorem met_subset {first first' : Numbered α} (h : first.Twins R P names names' nodes first')
    (hnames : names.map (·.1) ⊆ names'.map (·.1)) :
    first.names.map (·.1) ⊆ first'.names.map (·.1) := by
  rw [h.follows.met, h.follows'.met]
  exact AnchorNames.after_subset hnames nodes

theorem links {first first' : Numbered α} (h : first.Twins R P names names' nodes first')
    (hlinks : AllLinks P names names' (nodes ++ nodes')) :
    AllLinks P first.names first'.names nodes' := by
  rw [h.follows.met, h.follows'.met]
  exact (allLinks_append.1 hlinks).2

end Twins

end Numbered

mutual

theorem exists_number_twins {P : ℕ → ℕ → Prop} : ∀ (s : Source) {names names' : AnchorNames}
    {r : Numbered Linked}, s.number names = .ok r → names.map (·.1) ⊆ names'.map (·.1) →
      AllLinks P names names' s.nodes →
      ∃ r', s.number names' = .ok r' ∧ r.Twins (Twin P) P names names' s.nodes r'
  | .scalar p style text, names, names', r, h, _, _ => by
    obtain rfl := Except.ok.inj h
    have hinside : (⟨(), names.meet p, []⟩ : Numbered Unit).Twins Eq P (names.meet p)
        (names'.meet p) [] ⟨(), names'.meet p, []⟩ := ⟨rfl, .nil, ⟨rfl, rfl⟩, ⟨rfl, rfl⟩⟩
    exact ⟨_, rfl, hinside.node (s := .scalar p style text) (.scalar ..)⟩
  | .seq p items, names, names', r, h, hnames, hlinks => by
    rw [Source.number] at h
    obtain ⟨inside, hinside, h⟩ := bind_eq_ok_iff.1 h
    obtain rfl := Except.ok.inj h
    obtain ⟨inside', hinside', htwins⟩ := exists_numberItems_twins items hinside
      (AnchorNames.meet_subset hnames p) hlinks.2
    refine ⟨_, ?_, htwins.node (s := .seq p items) (.seq p.tag htwins.result)⟩
    rw [Source.number, hinside']
    rfl
  | .map p entries, names, names', r, h, hnames, hlinks => by
    rw [Source.number] at h
    obtain ⟨inside, hinside, h⟩ := bind_eq_ok_iff.1 h
    obtain rfl := Except.ok.inj h
    obtain ⟨inside', hinside', htwins⟩ := exists_numberEntries_twins entries hinside
      (AnchorNames.meet_subset hnames p) hlinks.2
    refine ⟨_, ?_, htwins.node (s := .map p entries) (.of_entries p.tag htwins.result)⟩
    rw [Source.number, hinside']
    rfl
  | .alias name, names, names', r, h, hnames, hlinks => by
    rw [Source.number] at h
    cases hlookup : names.lookup name with
    | none =>
      rw [hlookup] at h
      exact absurd h nofun
    | some n =>
      rw [hlookup] at h
      obtain rfl := Except.ok.inj h
      obtain ⟨n', hlookup'⟩ := exists_lookup_of_mem_keys (hnames (mem_keys_of_lookup hlookup))
      refine ⟨⟨.link n', names', []⟩, ?_, .link (hlinks.1 name rfl n n' hlookup hlookup'), .nil,
        ⟨rfl, rfl⟩, ⟨rfl, rfl⟩⟩
      rw [Source.number, hlookup']

theorem exists_numberItems_twins {P : ℕ → ℕ → Prop} : ∀ (items : List Source)
    {names names' : AnchorNames} {r : Numbered (List Linked)},
      Source.number.numberItems names items = .ok r → names.map (·.1) ⊆ names'.map (·.1) →
      AllLinks P names names' (Source.nodes.nodesOfItems items) →
      ∃ r', Source.number.numberItems names' items = .ok r' ∧
        r.Twins (List.Forall₂ (Twin P)) P names names' (Source.nodes.nodesOfItems items) r'
  | [], names, names', r, h, _, _ => by
    obtain rfl := Except.ok.inj h
    exact ⟨⟨[], names', []⟩, rfl, .nil, .nil, ⟨rfl, rfl⟩, ⟨rfl, rfl⟩⟩
  | x :: rest, names, names', r, h, hnames, hlinks => by
    rw [Source.number.numberItems] at h
    obtain ⟨first, hfirst, h⟩ := bind_eq_ok_iff.1 h
    obtain ⟨others, hothers, h⟩ := bind_eq_ok_iff.1 h
    obtain rfl := Except.ok.inj h
    obtain ⟨first', hfirst', hfirsts⟩ :=
      exists_number_twins x hfirst hnames (allLinks_append.1 hlinks).1
    obtain ⟨others', hothers', hrests⟩ := exists_numberItems_twins rest hothers
      (hfirsts.met_subset hnames) (hfirsts.links hlinks)
    refine ⟨_, ?_, hfirsts.append hrests (.cons hfirsts.result hrests.result)⟩
    rw [Source.number.numberItems, hfirst', ok_bind, hothers', ok_bind]
    rfl

theorem exists_numberEntries_twins {P : ℕ → ℕ → Prop} : ∀ (entries : List (Source × Source))
    {names names' : AnchorNames} {r : Numbered (List (Linked × Linked))},
      Source.number.numberEntries names entries = .ok r → names.map (·.1) ⊆ names'.map (·.1) →
      AllLinks P names names' (Source.nodes.nodesOfEntries entries) →
      ∃ r', Source.number.numberEntries names' entries = .ok r' ∧
        r.Twins (List.Forall₂ (TwinEntries P)) P names names'
          (Source.nodes.nodesOfEntries entries) r'
  | [], names, names', r, h, _, _ => by
    obtain rfl := Except.ok.inj h
    exact ⟨⟨[], names', []⟩, rfl, .nil, .nil, ⟨rfl, rfl⟩, ⟨rfl, rfl⟩⟩
  | (k, v) :: rest, names, names', r, h, hnames, hlinks => by
    rw [Source.number.numberEntries] at h
    obtain ⟨key, hkey, h⟩ := bind_eq_ok_iff.1 h
    obtain ⟨value, hvalue, h⟩ := bind_eq_ok_iff.1 h
    obtain ⟨others, hothers, h⟩ := bind_eq_ok_iff.1 h
    obtain rfl := Except.ok.inj h
    obtain ⟨hentry, -⟩ := allLinks_append.1 hlinks
    obtain ⟨key', hkey', hkeys⟩ := exists_number_twins k hkey hnames (allLinks_append.1 hentry).1
    obtain ⟨value', hvalue', hvalues⟩ :=
      exists_number_twins v hvalue (hkeys.met_subset hnames) (hkeys.links hentry)
    have hfirst : Numbered.Twins (TwinEntries P) P names names' (k.nodes ++ v.nodes)
        ⟨(key.result, value.result), value.names, key.anchored ++ value.anchored⟩
        ⟨(key'.result, value'.result), value'.names, key'.anchored ++ value'.anchored⟩ :=
      hkeys.append hvalues ⟨hkeys.result, hvalues.result⟩
    obtain ⟨others', hothers', hrests⟩ := exists_numberEntries_twins rest hothers
      (hfirst.met_subset hnames) (hfirst.links hlinks)
    refine ⟨_, ?_, hfirst.append hrests (.cons hfirst.result hrests.result)⟩
    rw [Source.number.numberEntries, hkey', ok_bind, hvalue', ok_bind, hothers', ok_bind]
    rfl

end

end Yaml
end LayeredConfig
