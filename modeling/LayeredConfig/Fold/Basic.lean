/-
Folding a layer into the fragment that is built up. The steps of a fold change the fragment and its
ledger as they go; a step that fails leaves both as they are then.

Every path of a layer is rebased: in the result it is relative to the directory of the result.
-/
import LayeredConfig.Fold.Field
import LayeredConfig.Fragment.Basic
import LayeredConfig.Path.Rebase

namespace LayeredConfig

/-- A fragment with the directory that it was read from. -/
structure Layer where
  dir : Path
  fragment : Fragment
deriving Repr, Inhabited, BEq

/-- What a fold has built up, with the ledger of what it has met. -/
structure Accumulator where
  fragment : Fragment
  ledger : Ledger
deriving Inhabited

namespace Accumulator

/-- Where a fold starts. -/
def blank : Accumulator := ⟨.blank, .empty⟩

end Accumulator

inductive FoldError where
  /-- A path that cannot be rebased. -/
  | rebase (cause : Path.RebaseError) (field : Field) (value : String) (file : Path)
  /-- A key without a rule for folding it, which must not get lost. -/
  | unsupported (field : String) (file : Path)
deriving DecidableEq, Repr

namespace FoldError

def message : FoldError → String
  | rebase cause field value file =>
    "failed to rewrite " ++ field.key ++ " entry " ++ Text.quoted value ++ " of " ++ file.quoted ++
      ": " ++ cause.message
  | unsupported field file =>
    "field " ++ Text.quoted field ++ " of " ++ file.quoted ++
      " has no merge policy, refusing to drop it"

end FoldError

/-- A step of a fold. -/
abbrev Folding (α : Type) := EStateM FoldError Accumulator α

/-- Where the paths of a layer come from and where they go. -/
structure Site where
  /-- The directory of the result. -/
  root : Path
  /-- The directory of the layer. -/
  dir : Path
deriving Repr, Inhabited

namespace Site

/-- The file of the layer's fragment. -/
def file (s : Site) : Path := s.dir / .ofString Fragment.fileName

/-- A path of the layer, relative to the directory of the result. -/
def rebase (s : Site) (field : Field) (value : String) : Except FoldError String :=
  match s.root.rebase s.dir value with
  | .ok r => .ok r
  | .error e => .error (.rebase e field value s.file)

end Site

namespace Folding

/-- Goes on with the result of a computation that does not change the accumulator. -/
def lift {α : Type} (x : Except FoldError α) : Folding α := fun acc =>
  match x with
  | .ok a => .ok a acc
  | .error e => .error e acc

/-- Meets an identity. The answer is whether this is for the first time. -/
def mark (field : Field) (key : String) : Folding Bool := fun acc =>
  .ok (!acc.ledger.contains field key) { acc with ledger := acc.ledger.add field key }

/-- Changes the fragment. -/
def update (f : Fragment → Fragment) : Folding Unit := fun acc =>
  .ok () { acc with fragment := f acc.fragment }

/-- Goes through some entries in order. Each yields a candidate and its identity; the answer is the
list of the candidates whose identity is met for the first time. -/
def unseen {α β : Type} (field : Field) (candidate : α → Except FoldError (String × β)) :
    List α → Folding (List β)
  | [] => pure []
  | a :: rest => do
    let (key, b) ← lift (candidate a)
    let isNew ← mark field key
    let bs ← unseen field candidate rest
    return if isNew then b :: bs else bs

/-- The paths that are new once they are rebased. -/
def unseenPaths (site : Site) (field : Field) (values : List String) : Folding (List String) :=
  unseen field (fun v => (site.rebase field v).map fun r => (r, r)) values

/-- The first entry of each identity that is new. -/
def firstOfEach {α : Type} (field : Field) (identity : α → String) (entries : List α) :
    Folding (List α) :=
  unseen field (fun a => .ok (identity a, a)) entries

end Folding
end LayeredConfig
