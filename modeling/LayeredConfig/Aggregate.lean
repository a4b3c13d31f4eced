/-
Combining the patches of a fragment: one file of operations for each target, where a target is
known by its name and kind. The combined file holds the contents of the files of its patches, one
after the other; a file that does not exist contributes nothing. All files are read before the
first is written, because a combined file may take the place of a file that is read.
-/
import LayeredConfig.FileTree.Access
import LayeredConfig.Fragment.Basic

namespace LayeredConfig

inductive AggregateError where
  | notRead (path : Path) (cause : FileError)
  | notWritten (path : Path) (cause : FileError)
deriving DecidableEq, Repr, Inhabited

def AggregateError.message : AggregateError → String
  | .notRead path _ => "failed to read patch file " ++ path.quoted
  | .notWritten path _ => "failed to write aggregated patch file " ++ path.quoted

/-- The patches of one target, and what their files hold. -/
structure PatchGroup where
  target : PatchTarget
  contents : String
deriving Repr, Inhabited

namespace PatchGroup

/-- Whether a target is the one of the group. -/
def isOf (g : PatchGroup) (t : PatchTarget) : Bool := g.target.name = t.name && g.target.kind = t.kind

/-- Adds to the group of a target, which is opened at the end if there is none. -/
def add (t : PatchTarget) (contents : String) : List PatchGroup → List PatchGroup
  | [] => [⟨t, contents⟩]
  | g :: rest =>
    if g.isOf t then { g with contents := g.contents ++ contents } :: rest
    else g :: add t contents rest

/-- The text with a line feed at its end, if it is not empty. -/
def closed (s : String) : String := if s = "" ∨ s.endsWith "\n" then s else s ++ "\n"

/-- What a patch contributes to its group. -/
def contribution (t : FileTree) (dir : Path) (p : JsonPatch) : Except AggregateError String :=
  let path := dir / .ofString p.path
  match t.read path with
  | .ok s => .ok (closed s)
  | .error .notFound => .ok ""
  | .error e => .error (.notRead path e)

/-- The groups of some patches, in the order of their first patches. -/
def collect (t : FileTree) (dir : Path) (patches : List JsonPatch) :
    Except AggregateError (List PatchGroup) :=
  patches.foldlM (fun groups p => do return add p.target (← contribution t dir p) groups) []

/-! ## Names of combined files -/

/-- The names that a combined file may have, the plain one first. -/
def candidate (stem : String) (n : Nat) : String :=
  if n = 0 then stem ++ ".yaml" else stem ++ "-" ++ toString (n + 1) ++ ".yaml"

/-- The first candidate that is not taken. One more candidate than there are taken names is
enough. -/
def freshName (taken : List String) (stem : String) : String :=
  (((List.range (taken.length + 1)).map (candidate stem)).find? (· ∉ taken)).getD ""

def stem (g : PatchGroup) : String := g.target.name ++ "-" ++ g.target.kind

/-- Writes each group into a file of its own. The answer is the list of combined patches. -/
def writeAll (dir : Path) (taken : List String) :
    List PatchGroup → Files AggregateError (List JsonPatch)
  | [] => pure []
  | g :: rest => do
    let name := freshName taken g.stem
    let path := dir / .ofString name
    (Files.write path g.contents).explain (.notWritten path)
    return { target := g.target, path := name } :: (← writeAll dir (name :: taken) rest)

end PatchGroup

namespace Fragment

/-- Combines the patches of a fragment that is written to `dir`. -/
def aggregate (dir : Path) (f : Fragment) : Files AggregateError Fragment := do
  let groups ← Files.ask fun t => PatchGroup.collect t dir f.jsonPatches
  return { f with jsonPatches := ← PatchGroup.writeAll dir [] groups }

end Fragment
end LayeredConfig
