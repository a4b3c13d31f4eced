/-
How many blocks are open in a document.

A token that starts a block puts one construct for a block on the stack, the end of a block takes
one away, and no other token does either (`counts_of_step`). So when as many blocks have ended as
have started, the sequence that is the whole document has ended too (`all_isLast_of_level`).
-/
import LayeredConfig.Proofs.Yaml.Stack
import LayeredConfig.Proofs.Yaml.Token.Action

namespace LayeredConfig
namespace Yaml

variable {handles : TagHandles} {t : Token} {f : Frame} {s : Step} {frames frames' : List Frame}

/-! ## One step -/

/-- A construct for a block collection with a start and an end of its own. -/
def Frame.isBlock (f : Frame) : Bool :=
  match f.kind with
  | .blockSeq | .blockMap => true
  | _ => false

/-- How many of the constructs are for blocks. -/
def depth (frames : List Frame) : ℕ := frames.countP Frame.isBlock

/-- What a token does to a construct is counted: the blocks that it starts and ends. -/
def Counts (t : Token) (f : Frame) : Step → Prop
  | .go frames => depth frames + [t].count .blockEnd = depth [f] + [t].countP Token.isStart
  | .done _ true => [t].count .blockEnd = depth [f] + [t].countP Token.isStart
  | .done _ false => depth [f] = 0

theorem depth_append (frames frames' : List Frame) :
    depth (frames ++ frames') = depth frames + depth frames' := List.countP_append

@[simp]
theorem isBlock_put (n : Source) (f : Frame) : (f.put n).isBlock = f.isBlock := by
  rw [Frame.isBlock, Frame.kind_put, Frame.isBlock]

theorem depth_put (n : Source) (f : Frame) : depth [f.put n] = depth [f] := by
  rw [depth, depth, List.countP_singleton, List.countP_singleton, isBlock_put]

theorem counts_of_swallows {around : Option Frame} {block indentless : Bool} {p : Props}
    {n : Source} (hleaves : around.any (·.leavesOut t) = true)
    (hswallows : around.any (·.swallows) = true) :
    Counts t (.node block indentless p) (.done n true) := by
  match around, hleaves, hswallows with
  | some (.flowPair .inKey), hleaves, _ =>
    have ht : t = .value ∨ t = .flowEntry ∨ t = .flowSequenceEnd := by
      simpa [Frame.leavesOut, or_assoc] using hleaves
    rcases ht with rfl | rfl | rfl <;> rfl

/-- A node that is left out takes no token that starts or ends a block. -/
theorem counts_of_leave {around : Option Frame} {p : Props} {block indentless : Bool}
    (h : (if !p.isNone then .ok (.done (.empty p) false)
      else if around.any (·.leavesOut t) then .ok (.done .empty (around.any (·.swallows)))
      else .error .grammar : Except Error Step) = .ok s) :
    Counts t (.node block indentless p) s := by
  split at h
  · obtain rfl := Except.ok.inj h
    rfl
  · split at h
    case isTrue hleaves =>
      obtain rfl := Except.ok.inj h
      cases hswallows : around.any (·.swallows) with
      | false => rfl
      | true => exact counts_of_swallows hleaves hswallows
    case isFalse => exact absurd h nofun

theorem counts_of_nodeStep {around : Option Frame} {block indentless : Bool} {p : Props}
    (h : nodeStep handles around block indentless p t = .ok s) :
    Counts t (.node block indentless p) s := by
  unfold nodeStep at h
  dsimp only at h
  split at h
  case h_3 =>
    split at h
    · obtain ⟨tag, -, h⟩ := bind_eq_ok_iff.1 h
      obtain rfl := Except.ok.inj h
      rfl
    · exact counts_of_leave h
  case h_4 | h_5 | h_6 =>
    obtain rfl := Except.ok.inj h
    rfl
  case h_10 => exact counts_of_leave h
  all_goals
    split at h
    · obtain rfl := Except.ok.inj h
      rfl
    · exact counts_of_leave h

/-- A node without properties is not left out where nothing around it allows that. -/
theorem nodeStep_ne_left {n : Source} :
    nodeStep handles none false false {} t ≠ .ok (.done n false) := by
  cases t with
  | tag handle suffix =>
    intro h
    obtain ⟨tag, -, h⟩ := bind_eq_ok_iff.1 h
    exact absurd (Except.ok.inj h) nofun
  | _ => simp [nodeStep, Props.isNone]

theorem counts_of_bareStep {around : Frame} (hf : f.isBlock = around.isBlock)
    (h : bareStep handles around t = .ok s) : Counts t f s := by
  have hdepth : depth [f] = depth [around] := by
    rw [depth, depth, List.countP_singleton, List.countP_singleton, hf]
  obtain ⟨s', hs', h⟩ := bind_eq_ok_iff.1 h
  have hcounts := counts_of_nodeStep hs'
  match s', h, hcounts with
  | .go frames, h, hcounts =>
    obtain rfl := Except.ok.inj h
    have hcounts : depth frames + _ = 0 + _ := hcounts
    show depth (frames ++ [around]) + _ = _
    rw [depth_append, hdepth]
    omega
  | .done n true, h, hcounts =>
    obtain rfl := Except.ok.inj h
    have hcounts : _ = 0 + _ := hcounts
    show depth [around.put n] + _ = _
    rw [depth_put, hdepth, hcounts, Nat.zero_add]
  | .done n false, _, _ => exact absurd hs' nodeStep_ne_left

theorem counts_of_blockMapStep {p p' : Props} {es es' : List (Source × Source)} {slot : Slot}
    (h : blockMapStep p es t = .ok s) : Counts t (.blockMap p' es' slot) s := by
  unfold blockMapStep at h
  split at h
  case h_3 => exact absurd h nofun
  all_goals
    obtain rfl := Except.ok.inj h
    rfl

theorem counts_of_flowMapStep {p p' : Props} {es es' : List (Source × Source)} {slot : Slot}
    (h : flowMapStep p es t = .ok s) : Counts t (.flowMap p' es' slot) s := by
  unfold flowMapStep at h
  split at h
  case h_3 => exact absurd h nofun
  all_goals
    obtain rfl := Except.ok.inj h
    rfl

theorem counts_of_step {around : Option Frame} (h : step handles around t f = .ok s) :
    Counts t f s := by
  unfold step at h
  split at h
  case h_1 => exact counts_of_nodeStep h
  case h_5 =>
    split at h
    case h_1 =>
      obtain rfl := Except.ok.inj h
      rfl
    all_goals exact counts_of_blockMapStep h
  case h_6 =>
    split at h
    case h_3 => exact absurd h nofun
    case h_5 => exact counts_of_bareStep rfl h
    all_goals
      obtain rfl := Except.ok.inj h
      rfl
  case h_8 =>
    split at h
    case h_2 | h_3 => exact counts_of_flowMapStep h
    case h_6 =>
      refine counts_of_bareStep ?_ h
      rfl
    all_goals
      obtain rfl := Except.ok.inj h
      rfl
  case h_2 | h_3 | h_7 =>
    split at h
    case h_3 => exact absurd h nofun
    all_goals
      obtain rfl := Except.ok.inj h
      rfl
  case h_4 =>
    split at h
    all_goals
      obtain rfl := Except.ok.inj h
      rfl

/-! ## Tokens -/

theorem depth_deliver (n : Source) (frames : List Frame) :
    depth (deliver n frames) = depth frames := by
  fun_induction deliver n frames with
  | case1 => rfl
  | case2 n k rest ih => exact ih
  | case3 n f rest _ =>
    rw [depth, depth, List.countP_cons, List.countP_cons, isBlock_put]

theorem depth_feedWithin {k : ℕ} (h : feedWithin handles t k frames = .ok frames') :
    depth frames' + [t].count .blockEnd = depth frames + [t].countP Token.isStart := by
  fun_induction feedWithin handles t k frames with
  | case1 k f rest ih =>
    obtain ⟨s, hs, h⟩ := bind_eq_ok_iff.1 h
    have hcounts := counts_of_step hs
    have hcons : depth (f :: rest) = depth [f] + depth rest := depth_append [f] rest
    rw [hcons]
    cases s with
    | go inner =>
      obtain rfl := Except.ok.inj h
      have hcounts : depth inner + _ = _ := hcounts
      rw [depth_append]
      omega
    | done node taken =>
      cases taken with
      | true =>
        obtain rfl := Except.ok.inj h
        have hcounts : [t].count .blockEnd = _ := hcounts
        rw [depth_deliver]
        omega
      | false =>
        have hcounts : depth [f] = 0 := hcounts
        rw [ih node h, depth_deliver, hcounts, Nat.zero_add]
  | case2 => cases h

theorem depth_foldlM {l : List Token} (h : l.foldlM (feed handles) frames = .ok frames') :
    depth frames' + l.count .blockEnd = depth frames + l.countP Token.isStart := by
  induction l generalizing frames with
  | nil =>
    obtain rfl := Except.ok.inj h
    rfl
  | cons t l ih =>
    obtain ⟨mid, hmid, h⟩ := bind_eq_ok_iff.1 ((List.foldlM_cons ..).symm.trans h)
    have hfirst := depth_feedWithin hmid
    have hrest := ih h
    have hcount : ([t] ++ l).count Token.blockEnd = [t].count .blockEnd + l.count .blockEnd :=
      List.count_append
    have hcountP : ([t] ++ l).countP Token.isStart =
        [t].countP Token.isStart + l.countP Token.isStart := List.countP_append
    rw [List.singleton_append] at hcount hcountP
    omega

/-- When as many blocks have ended as have started, only the ends of the document and of the stream
follow. -/
theorem all_isLast_of_level {e : Bool} {before rest : List Token} {r : Option Source}
    (h : documentOf handles e (.blockSequenceStart :: (before ++ rest)) = .ok r)
    (hlevel : before.countP Token.isStart + 1 = before.count .blockEnd) :
    rest.all Token.isLast = true := by
  obtain ⟨items, hfold, -⟩ := exists_of_documentOf h
  rw [List.foldlM_append] at hfold
  cases followed handles before [] with
  | inside inner added hin =>
    have hdepth := depth_foldlM (hin e [])
    have hinner : depth (inner ++ root e (added ++ [])) = depth inner + 1 := depth_append ..
    have hroot : depth ([] ++ root e []) = 1 := rfl
    omega
  | ends _ _ _ _ added hends =>
    have hends := hends e []
    rw [List.nil_append] at hends
    rw [hends, ok_bind, foldlM_complete] at hfold
    by_contra hrest
    rw [if_neg hrest] at hfold
    exact absurd hfold nofun
  | fails hfails =>
    obtain ⟨error, herror⟩ := hfails e []
    rw [List.nil_append] at herror
    rw [herror] at hfold
    exact absurd hfold nofun

end Yaml
end LayeredConfig
