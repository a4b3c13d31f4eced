/-
Which events are logged. A filter is a list of directives, each of which sets the most detailed
level for the events of some target. A directive may also ask for a span around the event, or for
fields of certain names. For an event the directive decides that is most specific: the one with
the longest target, and of these the one with the most fields.
-/
import LayeredConfig.Text.Shown

namespace LayeredConfig
namespace Logging

/-- How much is logged, from nothing to everything. -/
inductive Level where
  | off
  | error
  | warn
  | info
  | debug
  | trace
deriving DecidableEq, Repr, Inhabited

namespace Level

def rank : Level → Nat
  | off => 0
  | error => 1
  | warn => 2
  | info => 3
  | debug => 4
  | trace => 5

def names : List (String × Level) :=
  [("off", off), ("error", error), ("warn", warn), ("info", info), ("debug", debug),
   ("trace", trace)]

def all : List Level := [off, error, warn, info, debug, trace]

/-- Digits, with or without a plus in front. -/
def number? (s : List Char) : Option Nat :=
  let ds := match s with
    | '+' :: r => r
    | s => s
  if ds.isEmpty || !ds.all Char.isDigit then none
  else some (ds.foldl (fun n c => 10 * n + (c.toNat - '0'.toNat)) 0)

/-- A level by its number or its name, in letters of either case. -/
def parse? (s : List Char) : Option Level :=
  match (number? s).bind (all[·]?) with
  | some l => some l
  | none =>
    if s = [] then some error else names.lookup (String.ofList (s.map Char.toLower))

end Level

/-- A condition on the events inside a span or with certain fields, and the level for them. -/
structure Directive where
  level : Level := .trace
  target : Option String := none
  span : Option String := none
  /-- Names of fields, each with whether a value is asked for as well. -/
  fields : List (String × Bool) := []
deriving DecidableEq, Repr, Inhabited

/-! ## Reading directives

White space around a directive is skipped in looking for its marks, but its names are cut out of the
text as it stands, at the same distance from the start. So with white space in front no name is what
it seems, and a level cannot be read at all. -/

/-- A character as it is looked at and as it is kept. -/
abbrev Letter := Char × Char

/-- The text that is kept. -/
def kept (s : List Letter) : String := String.ofList (s.map (·.2))

def isSpace (c : Char) : Bool :=
  let n := c.toNat
  (0x09 ≤ n && n ≤ 0x0d) || n ∈ [0x20, 0x85, 0xa0, 0x1680, 0x2028, 0x2029, 0x202f, 0x205f, 0x3000] ||
    (0x2000 ≤ n && n ≤ 0x200a)

/-- The text without the white space around it. -/
def trim (s : List Char) : List Char :=
  ((s.dropWhile isSpace).reverse.dropWhile isSpace).reverse

/-- Whether a directive without a span may start with the character. -/
def opensTarget (c : Char) : Bool :=
  c == '-' || c == ':' || c == '_' || c.isAlphanum || (c.toNat ≥ 0x80 && Text.isShown c)

/-- What stands before the first character of `marks`, that character, and what follows it. -/
def splitAtMark (marks : List Char) : List Letter → Option (List Letter × Char × List Letter)
  | [] => none
  | c :: rest =>
    if c.1 ∈ marks then some ([], c.1, rest)
    else (splitAtMark marks rest).map fun (before, mark, after) => (c :: before, mark, after)

/-- A directive as it is written: what has been read of it, and the end of the text, which is kept
but not looked at. -/
structure Draft where
  directive : Directive := {}
  tail : List Char
deriving Repr

namespace Draft

/-- The level after a `=`; nothing there stands for every level. -/
def withLevel? (d : Draft) (s : List Letter) : Option Directive :=
  match s.map (·.2) ++ d.tail with
  | [] => some { d.directive with level := .trace }
  | text => (Level.parse? text).map fun level => { d.directive with level }

/-- What follows a span: nothing, or a level. -/
def afterSpan? (d : Draft) : List Letter → Option Directive
  | [] => some d.directive
  | c :: rest => if c.1 = '=' then d.withLevel? rest else none

/-- A field, which may have a value. -/
def field? (s : List Letter) : Option (String × Bool) :=
  match s.map (·.2) with
  | [] => none
  | text =>
    let name := text.takeWhile (· ≠ '=')
    some (String.ofList name, name.length ≠ text.length)

/-- A span, from its name on: `name]`, or `name{field}]`. -/
def withSpan? (d : Draft) (s : List Letter) : Option Directive := do
  let (name, mark, rest) ← splitAtMark [']', '\x7b'] s
  if mark = ']' then
    afterSpan? { d with directive := { d.directive with span := some (kept name) } } rest
  else
    let span := if name = [] then none else some (kept name)
    let (inside, _, rest) ← splitAtMark ['\x7d'] rest
    let field ← field? inside
    let c :: rest := rest | none
    if c.1 ≠ ']' then none
    afterSpan? { d with directive := { d.directive with span, fields := [field] } } rest

/-- A directive that starts with a target or is a level. -/
def withTarget? (d : Draft) (s : List Letter) : Option Directive :=
  match splitAtMark ['=', '['] s with
  | some (target, mark, rest) =>
    let d := { d with directive := { d.directive with target := some (kept target) } }
    if mark = '=' then d.withLevel? rest else d.withSpan? rest
  | none =>
    let text := s.map (·.2) ++ d.tail
    match Level.parse? text with
    | some level => some { d.directive with level }
    | none => some { d.directive with target := some (String.ofList text) }

end Draft

/-- Reads a directive: a level, a target, or a target or span with a level. -/
def Directive.parse? (s : List Char) : Option Directive :=
  let inner := trim s
  let draft : Draft := { tail := s.drop inner.length }
  match inner.zip s with
  | [] => none
  | c :: rest =>
    if c.1 = '[' then draft.withSpan? rest
    else if opensTarget c.1 then draft.withTarget? (c :: rest)
    else none

/-- The pieces of a text between commas that are not empty. -/
def pieces (s : List Char) : List (List Char) :=
  (s.splitBy fun a b => a ≠ ',' && b ≠ ',').filter fun piece => piece ≠ [','] && piece ≠ []

/-- Reads a filter: directives with commas between them. -/
def parseFilter? (s : String) : Option (List Directive) := (pieces s.toList).mapM Directive.parse?

/-! ## Filtering -/

/-- What is known of an event that happens outside of any span. -/
structure Event where
  level : Level
  target : String
  fields : List String
deriving Repr

namespace Directive

/-- Whether the directive can decide on events outside of any span. -/
def isStatic (d : Directive) : Bool := d.span.isNone && d.fields.all (!·.2)

def isAbout (d : Directive) (e : Event) : Bool :=
  d.isStatic && d.target.all (fun t => e.target.startsWith t) &&
    d.fields.all (fun f => f.1 ∈ e.fields)

/-- How long the target is; none at all is shorter than an empty one. -/
def targetSize (d : Directive) : Nat := d.target.elim 0 (·.utf8ByteSize + 1)

def fieldNames (d : Directive) : List String := d.fields.map (·.1)

/-- Whether `b` is at least as specific as `a`. Where targets and fields do not decide, the order
of the names of the fields does. -/
def le (a b : Directive) : Bool :=
  if a.targetSize ≠ b.targetSize then a.targetSize < b.targetSize
  else if a.fields.length ≠ b.fields.length then a.fields.length < b.fields.length
  else !(b.fieldNames < a.fieldNames)

end Directive

/-- The directive that decides on an event. Of equally specific ones it is the last. -/
def deciding? (filter : List Directive) (e : Event) : Option Directive :=
  (filter.filter (·.isAbout e)).foldl (fun best d => match best with
    | none => some d
    | some b => if b.le d then some d else some b) none

/-- Whether an event is logged. -/
def isLogged (filter : List Directive) (e : Event) : Bool :=
  (deciding? filter e).any fun d => e.level.rank ≤ d.level.rank

end Logging
end LayeredConfig
