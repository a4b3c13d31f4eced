/-
The document that a list of tokens spells, with its anchors and aliases as written.

The tokens are fed one by one to a stack of open constructs. Each construct knows which tokens it
takes; one that it does not take may close it, and then goes to the construct around it. A place
where a node is due is a construct too, because an anchor or a tag may come first, and because a
node may be left out: then an empty plain scalar stands there.
-/
import LayeredConfig.Yaml.Token.Scan

namespace LayeredConfig
namespace Yaml

/-- What may be written in front of a node. -/
structure Props where
  anchor : Option String := none
  tag : Option String := none
deriving DecidableEq, Repr, Inhabited

def Props.isNone (p : Props) : Bool := p.anchor.isNone && p.tag.isNone

/-- A node as written. -/
inductive Source where
  | scalar (props : Props) (style : ScalarStyle) (text : String)
  | seq (props : Props) (items : List Source)
  | map (props : Props) (entries : List (Source × Source))
  | alias (name : String)
deriving Repr, Inhabited

namespace Source

def empty (props : Props := {}) : Source := .scalar props .plain ""

end Source

/-! ## Constructs -/

/-- Where an open mapping stands. -/
inductive Slot where
  /-- A key may follow, or the end. -/
  | ready
  /-- A key is being read, or the only part of an entry that shows no mark of a key. -/
  | inKey
  | inBare
  | keyed (key : Source)
  | inValue (key : Source)
  /-- Inside brackets: an entry is complete, so a comma or the end follows. -/
  | filled
deriving Repr, Inhabited

/-- An open construct. Items and entries have the last one first. -/
inductive Frame where
  /-- A node is due: in block style or not, and a sequence may start without indentation or not. -/
  | node (block indentless : Bool) (props : Props)
  | document (explicit : Bool) (root : Option Source)
  | blockSeq (props : Props) (items : List Source)
  | indentlessSeq (props : Props) (items : List Source)
  | blockMap (props : Props) (entries : List (Source × Source)) (slot : Slot)
  | flowSeq (props : Props) (items : List Source) (filled : Bool)
  /-- A mapping of one entry that stands in a flow sequence without braces. -/
  | flowPair (slot : Slot)
  | flowMap (props : Props) (entries : List (Source × Source)) (slot : Slot)
deriving Repr, Inhabited

namespace Frame

/-- Takes a finished node into an open construct. -/
def put (n : Source) : Frame → Frame
  | .document explicit _ => .document explicit (some n)
  | .blockSeq p items => .blockSeq p (n :: items)
  | .indentlessSeq p items => .indentlessSeq p (n :: items)
  | .blockMap p es (.inValue k) => .blockMap p ((k, n) :: es) .ready
  | .blockMap p es _ => .blockMap p es (.keyed n)
  | .flowSeq p items _ => .flowSeq p (n :: items) true
  | .flowPair _ => .flowPair (.keyed n)
  | .flowMap p es (.inValue k) => .flowMap p ((k, n) :: es) .filled
  | .flowMap p es .inBare => .flowMap p ((n, .empty) :: es) .filled
  | .flowMap p es _ => .flowMap p es (.keyed n)
  | f => f

/-- Whether the token shows that the node due in a construct has been left out. -/
def leavesOut : Frame → Token → Bool
  | .document explicit _, t => explicit && match t with
    | .directive _ | .documentStart | .documentEnd | .streamEnd => true
    | _ => false
  | .blockSeq .., t => t == .blockEntry || t == .blockEnd
  | .indentlessSeq .., t => t == .blockEntry || t == .key || t == .value || t == .blockEnd
  | .blockMap .., t => t == .key || t == .value || t == .blockEnd
  | .flowPair .inKey, t => t == .value || t == .flowEntry || t == .flowSequenceEnd
  | .flowPair _, t => t == .flowEntry || t == .flowSequenceEnd
  | .flowMap _ _ .inKey, t => t == .value || t == .flowEntry || t == .flowMappingEnd
  | .flowMap _ _ (.inValue _), t => t == .flowEntry || t == .flowMappingEnd
  | _, _ => false

/-- A key between a question mark and nothing, in a pair without braces, takes the token after it
along. -/
def swallows : Frame → Bool
  | .flowPair .inKey => true
  | _ => false

end Frame

/-- What a token does to the innermost construct. -/
inductive Step where
  /-- It is replaced by others, the innermost first. -/
  | go (frames : List Frame)
  /-- It is complete; `taken` says whether the token belongs to it. -/
  | done (node : Source) (taken : Bool)
deriving Repr, Inhabited

/-- The tag directives in force: handles and what they stand for. -/
abbrev TagHandles := List (String × String)

def TagHandles.standard : TagHandles := [("!", "!"), ("!!", "tag:yaml.org,2002:")]

/-- A tag in full. -/
def resolveTag (handles : TagHandles) (handle suffix : String) : Except Error String :=
  if handle = "" then .ok suffix
  else match handles.lookup handle with
    | some start => .ok (start ++ suffix)
    | none => .error .tagHandle

/-- A token where a node is due. `around` is the construct around the node. -/
def nodeStep (handles : TagHandles) (around : Option Frame) (block indentless : Bool) (p : Props)
    (t : Token) : Except Error Step :=
  let leave : Except Error Step :=
    if !p.isNone then .ok (.done (.empty p) false)
    else if around.any (·.leavesOut t) then .ok (.done .empty (around.any (·.swallows)))
    else .error .grammar
  match t with
  | .alias name => if p.isNone then .ok (.done (.alias name) true) else leave
  | .anchor name =>
    if p.anchor.isNone then .ok (.go [.node block indentless { p with anchor := some name }]) else leave
  | .tag handle suffix =>
    if p.tag.isNone then do
      let tag ← resolveTag handles handle suffix
      return .go [.node block indentless { p with tag := some tag }]
    else leave
  | .scalar style text => .ok (.done (.scalar p style text) true)
  | .flowSequenceStart => .ok (.go [.flowSeq p [] false])
  | .flowMappingStart => .ok (.go [.flowMap p [] .ready])
  | .blockSequenceStart => if block then .ok (.go [.blockSeq p []]) else leave
  | .blockMappingStart => if block then .ok (.go [.blockMap p [] .ready]) else leave
  | .blockEntry =>
    if indentless then .ok (.go [.node true false {}, .indentlessSeq p []]) else leave
  | _ => leave

/-- The first token of a node without a mark in front, in brackets. -/
def bareStep (handles : TagHandles) (around : Frame) (t : Token) : Except Error Step := do
  match ← nodeStep handles none false false {} t with
  | .go frames => return .go (frames ++ [around])
  | .done node _ => return .go [around.put node]

/-- A token where a block mapping may go on with a key. -/
def blockMapStep (p : Props) (es : List (Source × Source)) : Token → Except Error Step
  | .key => .ok (.go [.node true true {}, .blockMap p es .inKey])
  | .blockEnd => .ok (.done (.map p es.reverse) true)
  | _ => .error .grammar

/-- A token after an entry of a mapping in braces. -/
def flowMapStep (p : Props) (es : List (Source × Source)) : Token → Except Error Step
  | .flowMappingEnd => .ok (.done (.map p es.reverse) true)
  | .flowEntry => .ok (.go [.flowMap p es .ready])
  | _ => .error .grammar

/-- A token, and what it does to the innermost construct. -/
def step (handles : TagHandles) (around : Option Frame) (t : Token) : Frame → Except Error Step
  | .node block indentless p => nodeStep handles around block indentless p t
  | .document explicit root => match t with
    | .documentEnd | .streamEnd => .ok (.go [.document explicit root])
    | _ => .error .documents
  | .blockSeq p items => match t with
    | .blockEntry => .ok (.go [.node true false {}, .blockSeq p items])
    | .blockEnd => .ok (.done (.seq p items.reverse) true)
    | _ => .error .grammar
  | .indentlessSeq p items => match t with
    | .blockEntry => .ok (.go [.node true false {}, .indentlessSeq p items])
    | _ => .ok (.done (.seq p items.reverse) false)
  | .blockMap p es slot => match slot, t with
    | .keyed k, .value => .ok (.go [.node true true {}, .blockMap p es (.inValue k)])
    | .keyed k, t => blockMapStep p ((k, .empty) :: es) t
    | _, t => blockMapStep p es t
  | .flowSeq p items filled => match filled, t with
    | _, .flowSequenceEnd => .ok (.done (.seq p items.reverse) true)
    | true, .flowEntry => .ok (.go [.flowSeq p items false])
    | true, _ => .error .grammar
    | false, .key => .ok (.go [.node false false {}, .flowPair .inKey, .flowSeq p items false])
    | false, t => bareStep handles (.flowSeq p items false) t
  | .flowPair slot => match slot, t with
    | .keyed k, .value => .ok (.go [.node false false {}, .flowPair (.inValue k)])
    | .keyed k, _ => .ok (.done (.map {} [(k, .empty)]) false)
    | _, _ => .error .grammar
  | .flowMap p es slot => match slot, t with
    | .keyed k, .value => .ok (.go [.node false false {}, .flowMap p es (.inValue k)])
    | .keyed k, t => flowMapStep p ((k, .empty) :: es) t
    | .filled, t => flowMapStep p es t
    | _, .flowMappingEnd => .ok (.done (.map p es.reverse) true)
    | _, .key => .ok (.go [.node false false {}, .flowMap p es .inKey])
    | _, t => bareStep handles (.flowMap p es .inBare) t

/-! ## The stack -/

/-- Hands a finished node to the construct around it. A pair is complete with its value. -/
def deliver (n : Source) : List Frame → List Frame
  | [] => []
  | .flowPair (.inValue k) :: rest => deliver (.map {} [(k, n)]) rest
  | f :: rest => f.put n :: rest

/-- Feeds a token to at most `n` constructs, from the innermost outwards. -/
def feedWithin (handles : TagHandles) (t : Token) : Nat → List Frame → Except Error (List Frame)
  | n + 1, f :: rest => do
    match ← step handles rest.head? t f with
    | .go frames => return frames ++ rest
    | .done node true => return deliver node rest
    | .done node false => feedWithin handles t n (deliver node rest)
  | _, _ => .error .grammar

/-- Feeds a token to the stack. A construct that a token leaves is gone, so no more than all of
them can be asked. -/
def feed (handles : TagHandles) (frames : List Frame) (t : Token) : Except Error (List Frame) :=
  feedWithin handles t frames.length frames

/-! ## Documents -/

def Token.directive? : Token → Option Directive
  | .directive d => some d
  | _ => none

/-- Reads the directives before a document. A version may be given once and must be one that is
understood; a handle may be declared once. -/
def handlesOf (ds : List Directive) : Except Error TagHandles := do
  let versions := ds.filterMap fun | .version major minor => some (major, minor) | _ => none
  let handles := ds.filterMap fun | .tag handle start => some (handle, start) | _ => none
  if versions.length > 1 ∨ ¬versions.all (fun v => v = (1, 1) ∨ v = (1, 2)) then throw .directive
  if ¬(handles.map (·.1)).Nodup then throw .directive
  return handles ++ TagHandles.standard

/-- Feeds tokens to a document whose first node is due. -/
def documentOf (handles : TagHandles) (explicit : Bool) (tokens : List Token) :
    Except Error (Option Source) := do
  match ← tokens.foldlM (feed handles) [.node true false {}, .document explicit none] with
  | [.document _ root] => return root
  | _ => throw .grammar

/-- The document of a stream; none if the stream is empty. -/
def Source.ofTokens (tokens : List Token) : Except Error (Option Source) := do
  let ds := (tokens.takeWhile (·.directive?.isSome)).filterMap Token.directive?
  match tokens.dropWhile (·.directive?.isSome) with
  | .documentStart :: rest => documentOf (← handlesOf ds) true rest
  | rest =>
    if ¬ds.isEmpty then throw .grammar
    match rest with
    | [.streamEnd] => return none
    | rest => documentOf TagHandles.standard false rest

end Yaml
end LayeredConfig
