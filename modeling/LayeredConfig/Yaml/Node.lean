/-
Documents without aliases. An alias stands for the node with its anchor, so reading a document
replaces it by that node.

Anchors are numbered, and an alias refers to a number: the number its anchor has when the alias
comes. A new name gets the count of the names before it; so does a name that is used again, which
then shares a number with the next new name. Of all nodes with one number the last one in the
document is meant, even by an alias that comes before it.

Two limits keep a small document from standing for an endless one: collections are followed to a
depth of 128, and at most a hundred aliases are followed for each event of the document. Both hold
only for what is looked at. A reader that skips unknown fields passes a shape that says which
fields it knows.
-/
import LayeredConfig.Yaml.Source

namespace LayeredConfig
namespace Yaml

/-- A node, with its tag in full. -/
inductive Node where
  | scalar (tag : Option String) (style : ScalarStyle) (text : String)
  | seq (tag : Option String) (items : List Node)
  | map (tag : Option String) (entries : List (Node × Node))
deriving Repr, Inhabited, BEq

/-- Where a node is left out, an empty plain scalar stands. -/
def Node.empty : Node := .scalar none .plain ""

/-! ## Numbering anchors -/

/-- A node in which aliases are numbers. -/
inductive Linked where
  | scalar (tag : Option String) (style : ScalarStyle) (text : String)
  | seq (tag : Option String) (items : List Linked)
  | map (tag : Option String) (entries : List (Linked × Linked))
  | link (number : Nat)
deriving Repr, Inhabited

/-- The anchor names met so far, each with its number. -/
abbrev AnchorNames := List (String × Nat)

/-- A result of numbering: it comes with the names met and with the anchored nodes inside, in the
order in which they start. -/
structure Numbered (α : Type) where
  result : α
  names : AnchorNames
  anchored : List (Nat × Linked)
deriving Inhabited

/-- Gives the anchor of `props`, if there is one, its number. -/
def AnchorNames.meet (names : AnchorNames) (props : Props) : AnchorNames :=
  match props.anchor with
  | none => names
  | some name => (name, names.length) :: names.filter (·.1 ≠ name)

/-- The nodes anchored in and at a node that starts with `props`. -/
def anchoredAt (names : AnchorNames) (props : Props) (l : Linked) (inside : List (Nat × Linked)) :
    List (Nat × Linked) :=
  if props.anchor.isSome then (names.length, l) :: inside else inside

namespace Source

/-- Numbers the anchors of a node, after those in `names`. -/
def number (names : AnchorNames) : Source → Except Error (Numbered Linked)
  | .scalar p style text =>
    let l := .scalar p.tag style text
    .ok ⟨l, names.meet p, anchoredAt names p l []⟩
  | .seq p items => do
    let inside ← numberItems (names.meet p) items
    let l := .seq p.tag inside.result
    return ⟨l, inside.names, anchoredAt names p l inside.anchored⟩
  | .map p entries => do
    let inside ← numberEntries (names.meet p) entries
    let l := .map p.tag inside.result
    return ⟨l, inside.names, anchoredAt names p l inside.anchored⟩
  | .alias name => match names.lookup name with
    | some n => .ok ⟨.link n, names, []⟩
    | none => .error .alias
where
  numberItems (names : AnchorNames) : List Source → Except Error (Numbered (List Linked))
    | [] => .ok ⟨[], names, []⟩
    | x :: rest => do
      let x ← number names x
      let rest ← numberItems x.names rest
      return ⟨x.result :: rest.result, rest.names, x.anchored ++ rest.anchored⟩
  numberEntries (names : AnchorNames) :
      List (Source × Source) → Except Error (Numbered (List (Linked × Linked)))
    | [] => .ok ⟨[], names, []⟩
    | (k, v) :: rest => do
      let k ← number names k
      let v ← number k.names v
      let rest ← numberEntries v.names rest
      return ⟨(k.result, v.result) :: rest.result, rest.names, k.anchored ++ v.anchored ++ rest.anchored⟩

/-- The events of a node: one for a scalar or an alias, a start and an end for a collection. -/
def events : Source → Nat
  | .scalar .. => 1
  | .seq _ items => eventsOfItems items + 2
  | .map _ entries => eventsOfEntries entries + 2
  | .alias _ => 1
where
  eventsOfItems : List Source → Nat
    | [] => 0
    | x :: rest => x.events + eventsOfItems rest
  eventsOfEntries : List (Source × Source) → Nat
    | [] => 0
    | (k, v) :: rest => k.events + v.events + eventsOfEntries rest

end Source

/-! ## Following aliases -/

/-- Which parts of a document a reader looks at. -/
inductive Shape where
  | whole
  /-- A mapping of which only some keys are known. -/
  | fields (known : List (String × Shape))
  /-- A sequence of such parts. -/
  | items (each : Shape)
deriving Repr, Inhabited

namespace Shape

/-- How the value under a key is looked at; not at all, if the key is not known. -/
def under? : Shape → Node → Option Shape
  | .fields known, .scalar _ _ text => known.lookup text
  | _, _ => some .whole

/-- How the items of a sequence are looked at. -/
def item : Shape → Shape
  | .items each => each
  | _ => .whole

end Shape

/-- How deep collections are followed. -/
def depthLimit : Nat := 128

/-- How many aliases are followed for each event of a document. -/
def linksPerEvent : Nat := 100

/-- The node that a link stands for. The state counts the links that may still be followed. -/
def follow (anchored : List (Nat × Linked)) : Linked → StateT Nat (Except Error) Linked
  | .link n => do
    match ← get with
    | 0 => throw .repetition
    | left + 1 =>
      set left
      match anchored.reverse.lookup n with
      | some l => return l
      | none => throw .alias
  | l => return l

/-- Follows the links in what the shape looks at. -/
def expand (anchored : List (Nat × Linked)) :
    Nat → Shape → Linked → StateT Nat (Except Error) Node
  | 0, _, l => do
    match ← follow anchored l with
    | .scalar tag style text => return .scalar tag style text
    | _ => throw .depth
  | depth + 1, shape, l => do
    match ← follow anchored l with
    | .scalar tag style text => return .scalar tag style text
    | .seq tag items => return .seq tag (← items.mapM (expand anchored depth shape.item))
    | .map tag entries =>
      let entries ← entries.mapM fun (k, v) => do
        let k ← expand anchored depth .whole k
        match shape.under? k with
        | some inner => return (k, ← expand anchored depth inner v)
        | none => return (k, Node.empty)
      return .map tag entries
    | .link _ => throw .alias

/-- The document as a reader with the given shape sees it. -/
def Node.ofSource (shape : Shape) (s : Source) : Except Error Node := do
  let numbered ← s.number []
  let (node, _) ← (expand numbered.anchored depthLimit shape numbered.result).run
    (linksPerEvent * s.events)
  return node

/-- The document of a YAML text; none if the text holds nothing. -/
def parse (shape : Shape) (text : String) : Except Error (Option Node) := do
  match ← Source.ofTokens (← tokenize text) with
  | none => return none
  | some s => return some (← Node.ofSource shape s)

end Yaml
end LayeredConfig
