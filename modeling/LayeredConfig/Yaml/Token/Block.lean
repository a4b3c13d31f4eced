/-
Block scalars: whole lines below a `|` or a `>`. The header may say how deep the lines are indented
and what becomes of the breaks at the end; without a number the first line that is not empty sets
the indentation. Lines end up in the scalar without their indentation. After `>` a single break
between two lines that do not start with a blank is a space.
-/
import LayeredConfig.Yaml.Token.Inline

namespace LayeredConfig
namespace Yaml

/-! ## The header -/

/-- What becomes of the line breaks at the end: none, one or all are kept. -/
inductive Chomping where
  | strip
  | clip
  | keep
deriving DecidableEq, Repr, Inhabited

def Chomping.ofChar? : Char → Option Chomping
  | '+' => some .keep
  | '-' => some .strip
  | _ => none

structure BlockHeader where
  chomping : Chomping := .clip
  /-- How much deeper than their surroundings the lines are indented, if the header says so. -/
  depth : Option Nat := none
deriving Repr, Inhabited

def headerDepth? (c : Char) : Option Nat :=
  if '0' ≤ c ∧ c ≤ '9' then some (c.toNat - '0'.toNat) else none

/-- The header of a block scalar: chomping and one digit of depth in either order, both optional. -/
def blockHeader (text : List Char) (p : Position) : Taken BlockHeader :=
  match text with
  | [] => ⟨{}, [], p⟩
  | c :: r =>
    if (Chomping.ofChar? c).isSome then
      let depth := r.head?.bind headerDepth?
      let n := if depth.isSome then 1 else 0
      ⟨⟨(Chomping.ofChar? c).getD .clip, depth⟩, r.drop n, p.move (n + 1)⟩
    else if (headerDepth? c).isSome then
      let chomping := r.head?.bind Chomping.ofChar?
      let n := if chomping.isSome then 1 else 0
      ⟨⟨chomping.getD .clip, headerDepth? c⟩, r.drop n, p.move (n + 1)⟩
    else ⟨{}, text, p⟩

/-! ## The lines -/

/-- A block scalar that is being read. Lists have their last character first. -/
structure BlockLines where
  /-- The column at which the lines start; zero as long as it is open. -/
  indent : Nat
  /-- The widest indentation seen while it was open. -/
  widest : Nat := 0
  /-- The break of the last line that was not empty, and the breaks of empty lines after it. -/
  ended : List Char := []
  empty : List Char := []
  /-- Whether that last line started with a blank. -/
  blankStart : Bool := false
  read : List Char := []
deriving Repr

namespace BlockLines

/-- Puts the breaks before a line that starts with `c` into the scalar. -/
def startLine (folded : Bool) (b : BlockLines) (c : Char) : BlockLines :=
  let joined := folded && b.ended == ['\n'] && !b.blankStart && !isBlank c
  let read := if joined then (if b.empty.isEmpty then ' ' :: b.read else b.read) else b.ended ++ b.read
  { b with read := b.empty ++ read, ended := [], empty := [], blankStart := isBlank c }

/-- The indentation, once a line that is not empty has been reached. -/
def settle (least : Nat) (b : BlockLines) : BlockLines :=
  if b.indent = 0 then { b with indent := max b.widest least } else b

/-- The scalar, after its last line. -/
def finish (chomping : Chomping) (b : BlockLines) : String :=
  textOf <| match chomping with
    | .strip => b.read
    | .clip => b.ended ++ b.read
    | .keep => b.empty ++ b.ended ++ b.read

end BlockLines

/-- Reads the lines of a block scalar. `inLine` says that the start of a line has been passed. The
scalar ends before the first line that is indented less. -/
def blockLines (folded : Bool) (least : Nat) :
    Bool → List Char → Position → BlockLines → Except Error (Taken BlockLines)
  | _, [], p, b => .ok ⟨b, [], p⟩
  | true, c :: r, p, b =>
    if isBreak c then blockLines folded least false r p.newLine { b with ended := [c] }
    else blockLines folded least true r p.next { b with read := c :: b.read }
  | false, c :: r, p, b =>
    let indenting := b.indent = 0 ∨ p.column < b.indent
    if indenting ∧ c = ' ' then blockLines folded least false r p.next b
    else
      let b := { b with widest := max b.widest p.column }
      if indenting ∧ c = '\t' then .error .tab
      else if isBreak c then blockLines folded least false r p.newLine { b with empty := c :: b.empty }
      else
        let b := b.settle least
        if p.column = b.indent then
          let b := b.startLine folded c
          blockLines folded least true r p.next { b with read := c :: b.read }
        else .ok ⟨b, c :: r, p⟩

/-- The block scalar after a `|` or, if `folded`, a `>`. `parent` is the indentation around it. -/
def blockScalar (folded : Bool) (parent : Option Nat) (text : List Char) (p : Position) :
    Except Error (Taken String) := do
  let header := blockHeader text p
  if header.result.depth = some 0 then throw .token
  let (text, p) ← endLine header.rest header.pos
  let indent := match header.result.depth with
    | none => 0
    | some d => parent.getD 0 + d
  let least := max 1 (parent.elim 0 (· + 1))
  let lines ← blockLines folded least false text p { indent }
  return ⟨lines.result.finish header.result.chomping, lines.rest, lines.pos⟩

end Yaml
end LayeredConfig
