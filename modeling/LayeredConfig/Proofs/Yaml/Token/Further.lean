/-
Reading a token where more text follows, further down in a stream.

What is read depends on the column and on the characters up to the end of the token, and sometimes
on one or two after it. So a text that ends a line is read the same way if the next line starts with
an entry or a comment (`Ahead`) that is not further right than the blocks around: nothing in the
text can go on there. At most the blanks in front of it are passed (`Taken.onward`). Each of the
readers is shown to keep to that.
-/
import LayeredConfig.Yaml.Token.Block
import LayeredConfig.Yaml.Token.Property
import LayeredConfig.Proofs.Result

namespace LayeredConfig
namespace Yaml

variable {text after r : List Char} {c : Char} {p q : Position} {i l : ℕ}

/-! ## Places further down -/

/-- The same column, `l` lines and `i` characters further down. -/
def Position.further (i l : ℕ) (p : Position) : Position := ⟨p.index + i, p.line + l, p.column⟩

namespace Position

@[simp]
theorem further_column (i l : ℕ) (p : Position) : (p.further i l).column = p.column := rfl

@[simp]
theorem further_move (i l n : ℕ) (p : Position) :
    (p.further i l).move n = (p.move n).further i l := by
  simp [further, move, Nat.add_right_comm]

@[simp]
theorem further_next (i l : ℕ) (p : Position) : (p.further i l).next = p.next.further i l :=
  p.further_move i l 1

@[simp]
theorem further_newLine (i l : ℕ) (p : Position) :
    (p.further i l).newLine = p.newLine.further i l := by
  simp [further, newLine, Nat.add_right_comm]

end Position

/-- What is taken where `after` follows, further down. -/
def Taken.further {α : Type} (after : List Char) (i l : ℕ) (t : Taken α) : Taken α :=
  { t with rest := t.rest ++ after, pos := t.pos.further i l }

/-! ## What may follow -/

/-- How many blanks stand at the front of a text. -/
def lead (text : List Char) : ℕ := (text.takeWhile (· = ' ')).length

theorem lead_replicate_append (n : ℕ) (hc : c ≠ ' ') :
    lead (List.replicate n ' ' ++ c :: r) = n := by
  simp [lead, List.takeWhile_append_of_pos, List.takeWhile_cons_of_neg, hc]

/-- What is taken where the text ends with a line. Then the blanks at the front of `after` have been
passed. -/
def Taken.onward {α : Type} (after : List Char) (i l : ℕ) (t : Taken α) : Taken α :=
  if t.rest = [] then
    { t with
      rest := (t.rest ++ after).drop (lead after)
      pos := (t.pos.further i l).move (lead after) }
  else t.further after i l

theorem Taken.onward_result {α : Type} (after : List Char) (i l : ℕ) (t : Taken α) :
    (t.onward after i l).result = t.result := by
  unfold onward
  split <;> rfl

theorem Taken.onward_of_ne_nil {α : Type} {t : Taken α} (h : t.rest ≠ []) :
    t.onward after i l = t.further after i l := if_neg h

theorem Taken.onward_nil {α : Type} (i l : ℕ) (t : Taken α) :
    t.onward [] i l = t.further [] i l := by
  rw [onward]
  split
  case isTrue h => rw [further, h]; rfl
  case isFalse => rfl

/-- The text starts with an entry or a comment, whatever its indentation. -/
def StartsLine (after : List Char) : Prop :=
  ∃ n c r, after = List.replicate n ' ' ++ c :: r ∧ (c = '-' ∨ c = '#')

/-- Nothing follows, or the text ends a line and something that starts one follows. -/
def Before (text after : List Char) : Prop :=
  after = [] ∨ StartsLine after ∧ text.getLast? = some '\n'

namespace Before

theorem nil (text : List Char) : Before text [] := .inl rfl

theorem cons (h : Before (c :: r) after) (hr : r ≠ []) : Before r after := by
  refine h.imp_right (And.imp_right fun hend => ?_)
  rwa [List.getLast?_cons_of_ne_nil hr] at hend

/-- A character other than a line feed is not the last one. -/
theorem tail (h : Before (c :: r) after) (hc : c ≠ '\n') : Before r after := by
  refine h.imp_right (And.imp_right fun hend => ?_)
  cases r with
  | nil => simp [hc] at hend
  | cons d r => simpa using hend

theorem ne_nil (h : Before text after) : after = [] ∨ text ≠ [] := by
  refine h.imp_right fun hline hnil => ?_
  have hend := hline.2
  rw [hnil] at hend
  exact absurd hend nofun

theorem eq_nil (h : Before [] after) : after = [] := h.ne_nil.resolve_right fun hne => hne rfl

theorem head?_append (h : Before text after) : (text ++ after).head? = text.head? := by
  rcases h.ne_nil with rfl | hne
  · rw [List.append_nil]
  · exact List.head?_append_of_ne_nil _ hne

theorem atSpace_append (h : Before text after) : atSpace (text ++ after) = atSpace text := by
  rcases h.ne_nil with rfl | hne
  · rw [List.append_nil]
  · obtain ⟨c, r, rfl⟩ := List.exists_cons_of_ne_nil hne
    rfl

theorem dropWhile (h : Before text after) {f : Char → Bool} (hf : f '\n' = false) :
    Before (text.dropWhile f) after := by
  induction text with
  | nil => exact h
  | cons c r ih =>
    by_cases hc : f c = true
    · have hne : c ≠ '\n' := by
        rintro rfl
        exact absurd (hc.symm.trans hf) nofun
      rw [List.dropWhile_cons_of_pos hc]
      exact ih (h.tail hne)
    · rwa [List.dropWhile_cons_of_neg hc]

theorem takeWhile_append (h : Before text after) {f : Char → Bool} (hf : f '\n' = false) :
    (text ++ after).takeWhile f = text.takeWhile f ∧
      (text ++ after).dropWhile f = text.dropWhile f ++ after := by
  induction text with
  | nil =>
    obtain rfl := h.eq_nil
    exact ⟨rfl, rfl⟩
  | cons c r ih =>
    by_cases hc : f c = true
    · have hne : c ≠ '\n' := by
        rintro rfl
        exact absurd (hc.symm.trans hf) nofun
      obtain ⟨htake, hdrop⟩ := ih (h.tail hne)
      rw [List.cons_append, List.takeWhile_cons_of_pos hc, List.takeWhile_cons_of_pos hc, htake,
        List.dropWhile_cons_of_pos hc, List.dropWhile_cons_of_pos hc, hdrop]
      exact ⟨rfl, rfl⟩
    · rw [List.cons_append, List.takeWhile_cons_of_neg hc, List.takeWhile_cons_of_neg hc,
        List.dropWhile_cons_of_neg hc, List.dropWhile_cons_of_neg hc]
      exact ⟨rfl, rfl⟩

end Before

theorem atDocumentMark_iff :
    atDocumentMark text = true ↔
      ∃ c r, (c = '-' ∨ c = '.') ∧ text = [c, c, c] ++ r ∧ atSpace r = true := by
  constructor
  · intro h
    unfold atDocumentMark at h
    split at h
    · exact ⟨'-', _, .inl rfl, rfl, h⟩
    · exact ⟨'.', _, .inr rfl, rfl, h⟩
    · exact absurd h nofun
  · rintro ⟨c, r, rfl | rfl, rfl, h⟩ <;> exact h

/-- What stands in one line at the front stands in the text itself. -/
theorem Before.of_append (h : Before text after) (hne : text ≠ []) {w : List Char}
    (hw : '\n' ∉ w) (heq : text ++ after = w ++ r) :
    ∃ rest, text = w ++ rest ∧ r = rest ++ after ∧ Before rest after := by
  induction w generalizing text with
  | nil => exact ⟨text, rfl, heq.symm, h⟩
  | cons c w ih =>
    obtain ⟨d, text, rfl⟩ := List.exists_cons_of_ne_nil hne
    obtain ⟨rfl, hrest⟩ := List.cons.inj heq
    have htail := h.tail (List.ne_of_not_mem_cons hw).symm
    rcases htail.ne_nil with rfl | hne
    · exact ⟨r, by simpa using hrest, by simp, .nil r⟩
    · obtain ⟨rest, rfl, hr, hbefore⟩ := ih htail hne (List.not_mem_of_not_mem_cons hw) hrest
      exact ⟨rest, rfl, hr, hbefore⟩

theorem Before.exists_eq_cons (h : Before text after) (heq : text ++ after = c :: r) :
    ∃ rest, text = c :: rest := by
  have hhead := h.head?_append
  rw [heq] at hhead
  exact List.head?_eq_some_iff.1 hhead.symm

theorem Before.atDocumentMark_append (h : Before text after) :
    atDocumentMark (text ++ after) = atDocumentMark text := by
  rcases h.ne_nil with rfl | hne
  · rw [List.append_nil]
  · rw [Bool.eq_iff_iff, atDocumentMark_iff, atDocumentMark_iff]
    constructor
    · rintro ⟨c, r, hc, heq, hspace⟩
      have hw : '\n' ∉ [c, c, c] := by
        rcases hc with rfl | rfl <;> decide
      obtain ⟨rest, rfl, rfl, hrest⟩ := h.of_append hne hw heq
      exact ⟨c, rest, hc, rfl, hrest.atSpace_append ▸ hspace⟩
    · rintro ⟨c, r, hc, rfl, hspace⟩
      have hrest : Before r after := by
        rcases hc with rfl | rfl <;>
          exact ((h.tail (by decide)).tail (by decide)).tail (by decide)
      exact ⟨c, r ++ after, hc, rfl, hrest.atSpace_append ▸ hspace⟩

/-- The same, if it has not come to the end of a text that ends in a line break. -/
def Ahead (text : List Char) (p : Position) (after : List Char) : Prop :=
  Before text after ∨ StartsLine after ∧ text = [] ∧ p.column = 0

theorem Before.ahead (h : Before text after) (p : Position) : Ahead text p after := .inl h

theorem Ahead.before (h : Ahead (c :: r) p after) : Before (c :: r) after :=
  h.resolve_right nofun

theorem Before.nil_or {α : Prop} (h : Before text after) (hnil : text = []) : after = [] ∨ α :=
  .inl (h.ne_nil.resolve_right fun hne => hne hnil)

/-- The blanks in front of the entry or the comment. -/
theorem StartsLine.exists_eq (h : StartsLine after) :
    ∃ c r, after = List.replicate (lead after) ' ' ++ c :: r ∧ after.drop (lead after) = c :: r ∧
      isBreak c = false ∧ isBlank c = false := by
  obtain ⟨n, c, r, rfl, hc⟩ := h
  have hblank : c ≠ ' ' := by rcases hc with rfl | rfl <;> decide
  rw [lead_replicate_append n hblank, List.drop_left' List.length_replicate]
  exact ⟨c, r, rfl, rfl, by rcases hc with rfl | rfl <;> rfl, by rcases hc with rfl | rfl <;> rfl⟩

theorem StartsLine.ne_nil (h : StartsLine after) : after ≠ [] := by
  obtain ⟨n, c, r, rfl, -⟩ := h
  exact List.append_ne_nil_of_right_ne_nil _ (List.cons_ne_nil c r)

theorem ne_lineFeed (h : ¬isBreak c = true) : c ≠ '\n' := by
  rintro rfl
  exact h rfl

theorem Before.newLine (h : Before (c :: r) after) : Ahead r p.newLine after := by
  by_cases hr : r = []
  · exact h.imp .inl fun hline => ⟨hline.1, hr, rfl⟩
  · exact .inl (h.cons hr)

/-! ## Quoted scalars -/

variable {gap : Gap} {read : List Char} {t : Taken String}

theorem singleQuoted_cons (hc : c ≠ '\'') :
    singleQuoted (c :: r) p gap read =
      if isBreak c then singleQuoted r p.newLine (gap.lineBreak c) read
      else if isBlank c then singleQuoted r p.next (gap.blank c) read
      else if p.column = 0 ∧ atDocumentMark (c :: r) then .error .token
      else singleQuoted r p.next .none (c :: gap.close read) := by
  rw [singleQuoted]
  · exact fun _ heq _ => hc heq
  · exact hc

theorem singleQuoted_further (h : singleQuoted text p gap read = .ok t)
    (hb : text ≠ [] → Before text after) :
    singleQuoted (text ++ after) (p.further i l) gap read = .ok (t.further after i l) ∧
      Before t.rest after := by
  fun_induction singleQuoted text p gap read with
  | case1 => exact absurd h nofun
  | case2 r p gap read ih =>
    have hr := ((hb nofun).tail (by decide)).tail (by decide)
    simpa [singleQuoted] using ih h fun _ => hr
  | case3 r p gap read hne =>
    obtain rfl := Except.ok.inj h
    have hr := (hb nofun).tail (by decide)
    have hne' : ∀ r', r ++ after = '\'' :: r' → False := fun r' heq =>
      (hr.exists_eq_cons heq).elim hne
    simpa [singleQuoted, hne', Taken.further] using hr
  | case4 c r p gap read _ hne hc ih =>
    rw [List.cons_append, singleQuoted_cons hne, if_pos hc, Position.further_newLine]
    exact ih h (hb nofun).cons
  | case5 c r p gap read _ hne hc hblank ih =>
    rw [List.cons_append, singleQuoted_cons hne, if_neg hc, if_pos hblank, Position.further_next]
    exact ih h (hb nofun).cons
  | case6 => exact absurd h nofun
  | case7 c r p gap read _ hne hc hblank hmark ih =>
    rw [← (hb nofun).atDocumentMark_append, List.cons_append] at hmark
    rw [List.cons_append, singleQuoted_cons hne, if_neg hc, if_neg hblank,
      Position.further_column, if_neg hmark, Position.further_next]
    exact ih h (hb nofun).cons

/-- A double quote or a backslash is read differently from other characters. -/
theorem doubleQuoted_cons (hquote : c ≠ '"') (hescape : c ≠ '\\') :
    doubleQuoted (c :: r) p gap read =
      if isBreak c then doubleQuoted r p.newLine (gap.lineBreak c) read
      else if isBlank c then doubleQuoted r p.next (gap.blank c) read
      else if p.column = 0 ∧ atDocumentMark (c :: r) then .error .token
      else doubleQuoted r p.next .none (c :: gap.close read) := by
  rw [doubleQuoted]
  · exact hquote
  · exact hescape

/-- After a backslash, the letters that announce digits are read differently from other
characters. -/
theorem doubleQuoted_escape (hx : c ≠ 'x') (hu : c ≠ 'u') (hU : c ≠ 'U') :
    doubleQuoted ('\\' :: c :: r) p gap read =
      if isBreak c then doubleQuoted r p.next.newLine (.lines none []) (gap.close read)
      else (simpleEscape? c).elim (.error .token) fun c =>
        doubleQuoted r (p.move 2) .none (c :: gap.close read) := by
  rw [doubleQuoted]
  · cases simpleEscape? c <;> rfl
  · exact fun _ _ _ heq _ => hx heq
  · exact fun _ _ _ _ _ heq _ => hu heq
  · exact fun _ _ _ _ _ _ _ _ _ heq _ => hU heq

theorem doubleQuoted_further (h : doubleQuoted text p gap read = .ok t)
    (hb : text ≠ [] → Before text after) :
    doubleQuoted (text ++ after) (p.further i l) gap read = .ok (t.further after i l) ∧
      Before t.rest after := by
  fun_induction doubleQuoted text p gap read with
  | case1 => exact absurd h nofun
  | case2 r p gap read =>
    obtain rfl := Except.ok.inj h
    simpa [doubleQuoted, Taken.further] using (hb nofun).tail (by decide)
  | case3 p gap read a b r c hc ih =>
    simpa [doubleQuoted, hc] using ih h fun hr =>
      ((((hb nofun).cons nofun).cons nofun).cons nofun).cons hr
  | case4 => exact absurd h nofun
  | case5 p gap read a b c d r e hc ih =>
    simpa [doubleQuoted, hc] using ih h fun hr =>
      ((((((hb nofun).cons nofun).cons nofun).cons nofun).cons nofun).cons nofun).cons hr
  | case6 => exact absurd h nofun
  | case7 p gap read a b c d e f g h' r k hc ih =>
    simpa [doubleQuoted, hc] using ih h fun hr =>
      ((((((((((hb nofun).cons nofun).cons nofun).cons nofun).cons nofun).cons nofun).cons
        nofun).cons nofun).cons nofun).cons nofun).cons hr
  | case8 => exact absurd h nofun
  | case9 p gap read c r _ _ _ hc ih =>
    have hne : ∀ d, isBreak d = false → c ≠ d := fun d hd heq => absurd hc (by simp [heq, hd])
    rw [List.cons_append, List.cons_append,
      doubleQuoted_escape (hne 'x' rfl) (hne 'u' rfl) (hne 'U' rfl), if_pos hc,
      Position.further_next, Position.further_newLine]
    exact ih h fun hr => ((hb nofun).cons nofun).cons hr
  | case10 p gap read c r _ _ _ hc d hd ih =>
    have hne : ∀ e, simpleEscape? e = none → c ≠ e := fun e he heq => by simp [heq, he] at hd
    rw [List.cons_append, List.cons_append,
      doubleQuoted_escape (hne 'x' rfl) (hne 'u' rfl) (hne 'U' rfl), if_neg hc, hd,
      Option.elim_some, Position.further_move]
    exact ih h fun hr => ((hb nofun).cons nofun).cons hr
  | case11 => exact absurd h nofun
  | case12 => exact absurd h nofun
  | case13 c r p gap read hquote hescape hc ih =>
    rw [List.cons_append, doubleQuoted_cons hquote hescape, if_pos hc, Position.further_newLine]
    exact ih h (hb nofun).cons
  | case14 c r p gap read hquote hescape hc hblank ih =>
    rw [List.cons_append, doubleQuoted_cons hquote hescape, if_neg hc, if_pos hblank,
      Position.further_next]
    exact ih h (hb nofun).cons
  | case15 => exact absurd h nofun
  | case16 c r p gap read hquote hescape hc hblank hmark ih =>
    rw [← (hb nofun).atDocumentMark_append, List.cons_append] at hmark
    rw [List.cons_append, doubleQuoted_cons hquote hescape, if_neg hc, if_neg hblank,
      Position.further_column, if_neg hmark, Position.further_next]
    exact ih h (hb nofun).cons

/-! ## Anchors and tags -/

/-- A line feed is no part of a word. -/
theorem isWord_lineFeed : isWord '\n' = false := by decide

theorem takeWord_further (hb : Before text after) :
    takeWord (text ++ after) (p.further i l) = (takeWord text p).further after i l ∧
      Before (takeWord text p).rest after := by
  obtain ⟨htake, hdrop⟩ := hb.takeWhile_append isWord_lineFeed
  refine ⟨?_, hb.dropWhile isWord_lineFeed⟩
  rw [takeWord, takeWord, Taken.further, htake, hdrop, Position.further_move]

theorem anchorName_further (h : anchorName text p = .ok t) (hb : Before text after) :
    anchorName (text ++ after) (p.further i l) = .ok (t.further after i l) ∧
      Before t.rest after := by
  obtain ⟨hword, hrest⟩ := takeWord_further hb (p := p) (i := i) (l := l)
  simp only [anchorName] at h ⊢
  by_cases hw : (takeWord text p).result.isEmpty = true ∨
      ¬(atSpace (takeWord text p).rest = true ∨ (takeWord text p).rest.head?.any endsAnchor = true)
  · rw [if_pos hw] at h
    exact absurd h nofun
  · rw [if_neg hw] at h
    obtain rfl := Except.ok.inj h
    refine ⟨?_, hrest⟩
    rw [hword]
    simp only [Taken.further, hrest.atSpace_append, hrest.head?_append, if_neg hw]

/-- A line feed is neither a digit nor a part of a tag. -/
theorem ne_lineFeed_of_hexValue? {n : ℕ} (h : hexValue? c = some n) : c ≠ '\n' := by
  rintro rfl
  have hnone : hexValue? '\n' = none := by decide
  exact absurd (hnone.symm.trans h) nofun

theorem tagSpelling_cons {verbatim : Bool} {pending : Option Escaped} (hc : c ≠ '%') :
    tagSpelling verbatim (c :: r) p pending read =
      if pending.isSome ∨ c = '%' then .error .token
      else if isWord c ∨ isTagMark c ∨ verbatim ∧ isVerbatimMark c then
        tagSpelling verbatim r p.next none (c :: read)
      else .ok ⟨read.reverse, c :: r, p⟩ := by
  rw [tagSpelling]
  exact fun _ _ _ heq _ => hc heq

theorem tagSpelling_further {verbatim : Bool} {pending : Option Escaped} {t : Taken (List Char)}
    (h : tagSpelling verbatim text p pending read = .ok t) (hb : Before text after) :
    tagSpelling verbatim (text ++ after) (p.further i l) pending read =
        .ok (t.further after i l) ∧ Before t.rest after := by
  fun_induction tagSpelling verbatim text p pending read with
  | case1 => exact absurd h nofun
  | case2 a b r p pending read hi lo hlo hhi bits hbyte ih =>
    have hr := ((hb.tail (by decide)).tail (ne_lineFeed_of_hexValue? hhi)).tail
      (ne_lineFeed_of_hexValue? hlo)
    simpa [tagSpelling, hhi, hlo, hbyte] using ih h hr
  | case3 a b r p pending read hi lo hlo hhi e he hbyte ih =>
    have hr := ((hb.tail (by decide)).tail (ne_lineFeed_of_hexValue? hhi)).tail
      (ne_lineFeed_of_hexValue? hlo)
    simpa [tagSpelling, hhi, hlo, hbyte] using ih h hr
  | case4 => exact absurd h nofun
  | case5 => exact absurd h nofun
  | case6 c r p pending read _ hc hmark ih =>
    have hne : c ≠ '\n' := by
      rintro rfl
      revert hmark
      cases verbatim <;> decide
    rw [List.cons_append, tagSpelling_cons (not_or.1 hc).2, if_neg hc, if_pos hmark,
      Position.further_next]
    exact ih h (hb.tail hne)
  | case7 c r p pending read _ hc hmark =>
    obtain rfl := Except.ok.inj h
    rw [List.cons_append, tagSpelling_cons (not_or.1 hc).2, if_neg hc, if_neg hmark]
    exact ⟨rfl, hb⟩
  | case8 => exact absurd h nofun
  | case9 p pending read hpending =>
    obtain rfl := Except.ok.inj h
    obtain rfl := hb.eq_nil
    exact ⟨by simp [tagSpelling, hpending, Taken.further], hb⟩

theorem tagUri_further {verbatim : Bool} (h : tagUri verbatim text p = .ok t)
    (hb : Before text after) :
    tagUri verbatim (text ++ after) (p.further i l) = .ok (t.further after i l) ∧
      Before t.rest after := by
  obtain ⟨uri, huri, h⟩ := bind_eq_ok_iff.1 h
  obtain ⟨huri', hrest⟩ := tagSpelling_further (i := i) (l := l) huri hb
  rw [tagUri, huri']
  by_cases hempty : uri.result.isEmpty = true
  · rw [if_pos hempty] at h
    exact absurd h nofun
  · rw [if_neg hempty] at h
    obtain rfl := Except.ok.inj h
    refine ⟨?_, hrest⟩
    rw [ok_bind, Taken.further, if_neg hempty]
    rfl

/-- The check of what follows a tag. -/
def tagEnd (inFlow : Bool) (tag : Taken (String × String)) :
    Except Error (Taken (String × String)) :=
  if atSpace tag.rest ∨ inFlow ∧ tag.rest.head? = some ',' then .ok tag else .error .token

theorem tagEnd_further {inFlow : Bool} {tag t : Taken (String × String)}
    (h : tagEnd inFlow tag = .ok t) (hb : Before tag.rest after) :
    tagEnd inFlow (tag.further after i l) = .ok (t.further after i l) ∧ Before t.rest after := by
  rw [tagEnd] at h ⊢
  split at h
  case isTrue hspace =>
    obtain rfl := Except.ok.inj h
    refine ⟨if_pos ?_, hb⟩
    rwa [Taken.further, hb.atSpace_append, hb.head?_append]
  case isFalse => exact absurd h nofun

theorem tagProperty_angle (inFlow : Bool) (r : List Char) (p : Position) :
    tagProperty inFlow ('<' :: r) p = (do
      let uri ← tagUri true r p.next
      match uri.rest with
      | '>' :: r => tagEnd inFlow ⟨("", uri.result), r, uri.pos.next⟩
      | _ => throw .token) := by
  rfl

theorem tagProperty_handle {inFlow : Bool} (h : text.head? ≠ some '<')
    (hr : (takeWord text p).rest = '!' :: r) :
    tagProperty inFlow text p = (do
      let uri ← tagUri false r (takeWord text p).pos.next
      tagEnd inFlow ⟨(String.ofList ('!' :: (takeWord text p).result ++ ['!']), uri.result),
        uri.rest, uri.pos⟩) := by
  unfold tagProperty
  split
  case h_1 => exact absurd rfl h
  case h_2 =>
    dsimp only
    rw [hr]
    rfl

theorem tagProperty_suffix {inFlow : Bool} (h : text.head? ≠ some '<')
    (hr : ∀ r, (takeWord text p).rest ≠ '!' :: r) :
    tagProperty inFlow text p = (do
      let uri ← tagSpelling false (takeWord text p).rest (takeWord text p).pos none
        (takeWord text p).result.reverse
      tagEnd inFlow ⟨if uri.result.isEmpty then ("", "!") else ("!", String.ofList uri.result),
        uri.rest, uri.pos⟩) := by
  unfold tagProperty
  split
  case h_1 => exact absurd rfl h
  case h_2 =>
    dsimp only
    split
    case h_1 heq => exact absurd heq (hr _)
    case h_2 =>
      refine bind_congr fun uri => ?_
      split <;> rfl

theorem tagProperty_further {inFlow : Bool} {t : Taken (String × String)}
    (h : tagProperty inFlow text p = .ok t) (hb : Before text after) :
    tagProperty inFlow (text ++ after) (p.further i l) = .ok (t.further after i l) ∧
      Before t.rest after := by
  by_cases hangle : text.head? = some '<'
  · obtain ⟨r, rfl⟩ := List.head?_eq_some_iff.1 hangle
    rw [tagProperty_angle] at h
    obtain ⟨uri, huri, h⟩ := bind_eq_ok_iff.1 h
    obtain ⟨huri', hrest⟩ := tagUri_further (i := i) (l := l) huri (hb.tail (by decide))
    split at h
    case h_1 rest heq =>
      rw [heq] at hrest
      rw [List.cons_append, tagProperty_angle, Position.further_next, huri', ok_bind]
      simp only [Taken.further, heq, List.cons_append, Position.further_next]
      exact tagEnd_further h (hrest.tail (by decide))
    case h_2 => exact absurd h nofun
  · obtain ⟨hword, hrest⟩ := takeWord_further hb (p := p) (i := i) (l := l)
    have hangle' : (text ++ after).head? ≠ some '<' := hb.head?_append ▸ hangle
    by_cases hmark : ∃ r, (takeWord text p).rest = '!' :: r
    · obtain ⟨r, hr⟩ := hmark
      rw [hr] at hrest
      rw [tagProperty_handle hangle hr] at h
      obtain ⟨uri, huri, h⟩ := bind_eq_ok_iff.1 h
      obtain ⟨huri', hrest'⟩ := tagUri_further (i := i) (l := l) huri (hrest.tail (by decide))
      rw [tagProperty_handle hangle' (r := r ++ after) (by rw [hword, Taken.further, hr]; rfl),
        hword, Taken.further, Position.further_next, huri']
      exact tagEnd_further h hrest'
    · have hr : ∀ r, (takeWord text p).rest ≠ '!' :: r := not_exists.1 hmark
      have hr' : ∀ r, (takeWord (text ++ after) (p.further i l)).rest ≠ '!' :: r := by
        rw [hword]
        exact fun r heq => (hrest.exists_eq_cons heq).elim hr
      rw [tagProperty_suffix hangle hr] at h
      obtain ⟨uri, huri, h⟩ := bind_eq_ok_iff.1 h
      obtain ⟨huri', hrest'⟩ := tagSpelling_further (i := i) (l := l) huri hrest
      rw [tagProperty_suffix hangle' hr', hword, Taken.further, huri']
      exact tagEnd_further h hrest'

/-! ## Plain scalars -/

theorem Gap.hasLine_lineBreak (c : Char) (gap : Gap) : (gap.lineBreak c).hasLine = true := by
  cases gap <;> rfl

theorem plainScalar_cons (inFlow : Bool) (indent : ℕ) (hc : isBreak c = false)
    (hblank : isBlank c = false) :
    plainScalar inFlow indent (c :: r) p gap read =
      if ¬gap.isNone ∧ (¬inFlow ∧ p.column < indent ∨ p.column = 0 ∧ atDocumentMark (c :: r) ∨
        c = '#') then
        .ok ⟨(textOf read, gap.hasLine), c :: r, p⟩
      else if inFlow ∧ c = ':' ∧ r.head?.any isStrayAfterColon then .error .indicator
      else if c = ':' ∧ atSpace r ∨ inFlow ∧ isFlowIndicator c then
        .ok ⟨(textOf read, gap.hasLine), c :: r, p⟩
      else plainScalar inFlow indent r p.next .none (c :: gap.close read) := by
  rw [plainScalar, if_neg (by simp [hc]), if_neg (by simp [hblank])]

theorem Gap.blank_of_hasLine (hgap : gap.hasLine = true) : gap.blank c = gap := by
  cases gap with
  | lines => rfl
  | none | blanks => exact absurd hgap nofun

theorem plainScalar_blanks {inFlow : Bool} {indent : ℕ} (hgap : gap.hasLine = true) (n : ℕ) :
    plainScalar inFlow indent (List.replicate n ' ' ++ text) p gap read =
      plainScalar inFlow indent text (p.move n) gap read := by
  induction n generalizing p with
  | zero => rfl
  | succ n ih =>
    rw [List.replicate_succ, List.cons_append, plainScalar, if_neg (by decide),
      if_pos (by decide), if_neg (by simp), gap.blank_of_hasLine hgap, ih]
    simp [Position.next, Position.move, Nat.add_assoc, Nat.add_comm 1]

/-- A plain scalar does not go on in a line that starts further left, unless in brackets. -/
theorem plainScalar_startsLine {indent : ℕ} (h : StartsLine after) (hgap : gap.hasLine = true)
    (hp : p.column = 0) (hindent : lead after < indent) :
    plainScalar false indent after p gap read =
      .ok ⟨(textOf read, true), after.drop (lead after), p.move (lead after)⟩ := by
  obtain ⟨c, r, heq, hdrop, hbreak, hblank⟩ := h.exists_eq
  have hnone : gap.isNone = false := by
    cases gap <;> trivial
  have hcolumn : (p.move (lead after)).column < indent := by
    rwa [Position.move, hp, Nat.zero_add]
  rw [hdrop]
  nth_rewrite 1 [heq]
  rw [plainScalar_blanks hgap, plainScalar_cons false indent hbreak hblank,
    if_pos ⟨by simp [hnone], .inl ⟨by simp, hcolumn⟩⟩, hgap]

theorem plainScalar_further {inFlow : Bool} {indent : ℕ} {t : Taken (String × Bool)}
    (h : plainScalar inFlow indent text p gap read = .ok t) (hb : Ahead text p after)
    (hgap : text = [] → after = [] ∨ gap.hasLine = true)
    (hopen : t.rest = [] → after = [] ∨ inFlow = false ∧ lead after < indent) :
    plainScalar inFlow indent (text ++ after) (p.further i l) gap read =
        .ok (t.onward after i l) ∧
      Ahead t.rest t.pos after ∧ (t.rest = [] → after = [] ∨ t.result.2 = true) := by
  fun_induction plainScalar inFlow indent text p gap read with
  | case1 p gap read =>
    obtain rfl := Except.ok.inj h
    refine ⟨?_, hb, hgap⟩
    rcases hb with hb | ⟨hline, -, hp⟩
    · obtain rfl := hb.eq_nil
      rw [Taken.onward_nil]
      rfl
    · have hne : after ≠ [] := hline.ne_nil
      obtain ⟨rfl, hindent⟩ := (hopen rfl).resolve_left hne
      have hline' := (hgap rfl).resolve_left hne
      rw [List.nil_append, plainScalar_startsLine (p := p.further i l) hline hline' hp hindent,
        Taken.onward, if_pos rfl, hline']
      rfl
  | case2 c r p gap read hc ih =>
    rw [List.cons_append, plainScalar, if_pos hc, Position.further_newLine]
    exact ih h hb.before.newLine fun _ => .inr (gap.hasLine_lineBreak c)
  | case3 => exact absurd h nofun
  | case4 c r p gap read hc hblank htab ih =>
    have hr := hb.before.tail (ne_lineFeed hc)
    rw [List.cons_append, plainScalar, if_neg hc, if_pos hblank, Position.further_column,
      if_neg htab, Position.further_next]
    exact ih h (hr.ahead _) hr.nil_or
  | case5 c r p gap read hc hblank hend =>
    obtain rfl := Except.ok.inj h
    have hr := hb.before.tail (ne_lineFeed hc)
    refine ⟨?_, hb, nofun⟩
    rw [Taken.onward_of_ne_nil (List.cons_ne_nil c r), List.cons_append,
      plainScalar_cons inFlow indent (by simpa using hc) (by simpa using hblank), ← List.cons_append, hb.before.atDocumentMark_append, Position.further_column, if_pos hend]
    rfl
  | case6 => exact absurd h nofun
  | case7 c r p gap read hc hblank hend hstray hstop =>
    obtain rfl := Except.ok.inj h
    have hr := hb.before.tail (ne_lineFeed hc)
    refine ⟨?_, hb, nofun⟩
    rw [Taken.onward_of_ne_nil (List.cons_ne_nil c r), List.cons_append,
      plainScalar_cons inFlow indent (by simpa using hc) (by simpa using hblank), ← List.cons_append, hb.before.atDocumentMark_append, Position.further_column, if_neg hend,
      hr.head?_append, if_neg hstray, hr.atSpace_append, if_pos hstop]
    rfl
  | case8 c r p gap read hc hblank hend hstray hstop ih =>
    have hr := hb.before.tail (ne_lineFeed hc)
    rw [List.cons_append,
      plainScalar_cons inFlow indent (by simpa using hc) (by simpa using hblank), ← List.cons_append, hb.before.atDocumentMark_append, Position.further_column, if_neg hend,
      hr.head?_append, if_neg hstray, hr.atSpace_append, if_neg hstop, Position.further_next]
    exact ih h (hr.ahead _) hr.nil_or

/-! ## Ends of lines -/

theorem dropBlanks_further (hb : Before text after) :
    dropBlanks (text ++ after) (p.further i l) =
        ((dropBlanks text p).1 ++ after, (dropBlanks text p).2.further i l) ∧
      Before (dropBlanks text p).1 after := by
  fun_induction dropBlanks text p with
  | case1 c r p hc ih =>
    rw [List.cons_append, dropBlanks, if_pos hc, Position.further_next]
    refine ih (hb.tail ?_)
    rintro rfl
    exact absurd hc (by decide)
  | case2 c r p hc =>
    rw [List.cons_append, dropBlanks, if_neg hc]
    exact ⟨rfl, hb⟩
  | case3 p =>
    obtain rfl := hb.eq_nil
    exact ⟨rfl, hb⟩

theorem dropLine_further (hb : Before text after) :
    dropLine (text ++ after) (p.further i l) =
        ((dropLine text p).1 ++ after, (dropLine text p).2.further i l) ∧
      Before (dropLine text p).1 after := by
  fun_induction dropLine text p with
  | case1 c r p hc =>
    rw [List.cons_append, dropLine, if_pos hc]
    exact ⟨rfl, hb⟩
  | case2 c r p hc ih =>
    rw [List.cons_append, dropLine, if_neg hc, Position.further_next]
    exact ih (hb.tail (ne_lineFeed hc))
  | case3 p =>
    obtain rfl := hb.eq_nil
    exact ⟨rfl, hb⟩

/-- The last step of dropping the end of a line. -/
theorem endLine_break (h : (match text with
      | [] => .ok ([], p)
      | c :: r => if isBreak c then .ok (r, p.newLine) else .error .token :
        Except Error (List Char × Position)) = .ok (r, q)) (hb : Before text after) :
    (match text ++ after with
      | [] => .ok ([], p.further i l)
      | c :: r => if isBreak c then .ok (r, (p.further i l).newLine) else .error .token :
        Except Error (List Char × Position)) = .ok (r ++ after, q.further i l) ∧
      Ahead r q after := by
  cases text with
  | nil =>
    obtain ⟨rfl, rfl⟩ := Prod.mk.inj (Except.ok.inj h)
    obtain rfl := hb.eq_nil
    exact ⟨rfl, .inl hb⟩
  | cons c rest =>
    by_cases hc : isBreak c = true
    · dsimp only [List.cons_append] at h ⊢
      rw [if_pos hc] at h ⊢
      obtain ⟨rfl, rfl⟩ := Prod.mk.inj (Except.ok.inj h)
      rw [Position.further_newLine]
      exact ⟨rfl, hb.newLine⟩
    · dsimp only at h
      rw [if_neg hc] at h
      exact absurd h nofun

theorem endLine_further (h : endLine text p = .ok (r, q)) (hb : Before text after) :
    endLine (text ++ after) (p.further i l) = .ok (r ++ after, q.further i l) ∧
      Ahead r q after := by
  obtain ⟨hblanks, hrest⟩ := dropBlanks_further hb (p := p) (i := i) (l := l)
  rw [endLine] at h ⊢
  rw [hblanks]
  generalize dropBlanks text p = blanks at h hrest ⊢
  obtain ⟨text, p⟩ := blanks
  dsimp only at h hrest ⊢
  rw [hrest.head?_append]
  by_cases hcomment : (text.head? == some '#') = true
  · obtain ⟨hline, hrest'⟩ := dropLine_further hrest (p := p) (i := i) (l := l)
    rw [if_pos hcomment] at h ⊢
    rw [hline]
    exact endLine_break h hrest'
  · rw [if_neg hcomment] at h ⊢
    exact endLine_break h hrest

/-! ## Block scalars -/

/-- The second part of a header is one character, if it is there. -/
theorem digit_further {α : Type} (hb : Before text after) (f : Char → Option α)
    (hf : f '\n' = none) (mk : Option α → BlockHeader) (p : Position) :
    (⟨mk (text.head?.bind f), (text ++ after).drop (if (text.head?.bind f).isSome then 1 else 0),
        (p.further i l).move ((if (text.head?.bind f).isSome then 1 else 0) + 1)⟩ :
        Taken BlockHeader) =
      (⟨mk (text.head?.bind f), text.drop (if (text.head?.bind f).isSome then 1 else 0),
        p.move ((if (text.head?.bind f).isSome then 1 else 0) + 1)⟩ :
        Taken BlockHeader).further after i l ∧
      Before (text.drop (if (text.head?.bind f).isSome then 1 else 0)) after := by
  rw [Taken.further, Position.further_move]
  cases text with
  | nil =>
    obtain rfl := hb.eq_nil
    exact ⟨by simp, hb⟩
  | cons c r =>
    by_cases hc : (f c).isSome = true
    · have hne : c ≠ '\n' := by
        rintro rfl
        simp [hf] at hc
      simpa [hc] using hb.tail hne
    · simpa [hc] using hb

theorem blockHeader_further (hb : Before text after) :
    blockHeader (text ++ after) (p.further i l) = (blockHeader text p).further after i l ∧
      Before (blockHeader text p).rest after := by
  cases text with
  | nil =>
    obtain rfl := hb.eq_nil
    exact ⟨rfl, hb⟩
  | cons c r =>
    rw [List.cons_append, blockHeader, blockHeader]
    by_cases hchomping : (Chomping.ofChar? c).isSome = true
    · have hr : Before r after := hb.tail (by rintro rfl; exact absurd hchomping (by decide))
      rw [if_pos hchomping, if_pos hchomping, hr.head?_append]
      exact digit_further hr headerDepth? (by decide)
        (fun depth => ⟨(Chomping.ofChar? c).getD .clip, depth⟩) p
    · rw [if_neg hchomping, if_neg hchomping]
      by_cases hdepth : (headerDepth? c).isSome = true
      · have hr : Before r after := hb.tail (by rintro rfl; exact absurd hdepth (by decide))
        rw [if_pos hdepth, if_pos hdepth, hr.head?_append]
        exact digit_further hr Chomping.ofChar? (by decide)
          (fun chomping => ⟨chomping.getD .clip, headerDepth? c⟩) p
      · rw [if_neg hdepth, if_neg hdepth]
        exact ⟨rfl, hb⟩

namespace BlockLines

/-- The lines with the widest indentation brought up to `column`. -/
def widen (column : ℕ) (b : BlockLines) : BlockLines := { b with widest := max b.widest column }

theorem finish_settle_widen (least column : ℕ) (b : BlockLines) (chomping : Chomping) :
    ((b.widen column).settle least).finish chomping = b.finish chomping := by
  unfold settle
  split <;> rfl

end BlockLines

theorem blockLines_cons (folded : Bool) (least : ℕ) (c : Char) (r : List Char) (p : Position)
    (b : BlockLines) :
    blockLines folded least false (c :: r) p b =
      if (b.indent = 0 ∨ p.column < b.indent) ∧ c = ' ' then
        blockLines folded least false r p.next b
      else if (b.indent = 0 ∨ p.column < b.indent) ∧ c = '\t' then .error .tab
      else if isBreak c then
        blockLines folded least false r p.newLine { b.widen p.column with empty := c :: b.empty }
      else if p.column = ((b.widen p.column).settle least).indent then
        blockLines folded least true r p.next
          { ((b.widen p.column).settle least).startLine folded c with
            read := c :: (((b.widen p.column).settle least).startLine folded c).read }
      else .ok ⟨(b.widen p.column).settle least, c :: r, p⟩ := by
  rw [blockLines]
  rfl

theorem blockLines_blanks {folded : Bool} {least : ℕ} {b : BlockLines} {n : ℕ}
    (h : b.indent = 0 ∨ p.column + n ≤ b.indent) :
    blockLines folded least false (List.replicate n ' ' ++ text) p b =
      blockLines folded least false text (p.move n) b := by
  induction n generalizing p with
  | zero => rfl
  | succ n ih =>
    have hnext : b.indent = 0 ∨ p.next.column + n ≤ b.indent := by
      simpa [Position.next, Position.move, Nat.add_assoc, Nat.add_comm 1] using h
    rw [List.replicate_succ, List.cons_append, blockLines_cons,
      if_pos ⟨h.imp_right fun h => by omega, rfl⟩, ih hnext]
    simp [Position.next, Position.move, Nat.add_assoc, Nat.add_comm 1]

theorem BlockLines.lt_indent_settle {n least : ℕ} {b : BlockLines} (hleast : n < least)
    (h : b.indent = 0 ∨ n < b.indent) : n < (b.settle least).indent := by
  unfold settle
  split
  case isTrue => exact Nat.lt_of_lt_of_le hleast (Nat.le_max_right _ _)
  case isFalse hne => exact h.resolve_left hne

/-- The lines of a scalar are indented, so it ends before a line that starts further left. -/
theorem blockLines_startsLine (folded : Bool) {least : ℕ} {b : BlockLines} (h : StartsLine after)
    (hp : p.column = 0) (hleast : lead after < least) (hb : b.indent = 0 ∨ lead after < b.indent) :
    blockLines folded least false after p b = .ok ⟨(b.widen (lead after)).settle least,
      after.drop (lead after), p.move (lead after)⟩ := by
  obtain ⟨c, r, heq, hdrop, hbreak, hblank⟩ := h.exists_eq
  have hcolumn : (p.move (lead after)).column = lead after := by
    rw [Position.move, hp, Nat.zero_add]
  have hindent : lead after ≠ ((b.widen (lead after)).settle least).indent :=
    Nat.ne_of_lt (BlockLines.lt_indent_settle hleast hb)
  have hspace : c ≠ ' ' := by rintro rfl; exact absurd hblank nofun
  have htab : c ≠ '\t' := by rintro rfl; exact absurd hblank nofun
  rw [hdrop]
  nth_rewrite 1 [heq]
  rw [blockLines_blanks (hb.imp_right fun hb => by omega), blockLines_cons, hcolumn,
    if_neg fun h => hspace h.2, if_neg fun h => htab h.2, if_neg (by simp [hbreak]),
    if_neg hindent]

theorem blockLines_further {folded : Bool} {least : ℕ} {inLine : Bool} {b : BlockLines}
    {t : Taken BlockLines} (h : blockLines folded least inLine text p b = .ok t)
    (hb : Ahead text p after) (hline : inLine = true → Before text after)
    (hopen : t.rest = [] →
      after = [] ∨ lead after < least ∧ (b.indent = 0 ∨ lead after < b.indent)) :
    ∃ b', blockLines folded least inLine (text ++ after) (p.further i l) b =
        .ok ((⟨b', t.rest, t.pos⟩ : Taken BlockLines).onward after i l) ∧
      (∀ chomping, b'.finish chomping = t.result.finish chomping) ∧ Ahead t.rest t.pos after := by
  fun_induction blockLines folded least inLine text p b with
  | case1 inLine p b =>
    obtain rfl := Except.ok.inj h
    rcases hb with hb | ⟨hstart, -, hp⟩
    · obtain rfl := hb.eq_nil
      refine ⟨b, ?_, fun _ => rfl, .inl hb⟩
      rw [Taken.onward_nil, List.append_nil, blockLines]
      rfl
    · have hfalse : inLine = false :=
        Bool.eq_false_iff.2 fun htrue => hstart.ne_nil (hline htrue).eq_nil
      obtain ⟨hleast, hindent⟩ := (hopen rfl).resolve_left hstart.ne_nil
      refine ⟨_, ?_, b.finish_settle_widen least (lead after), .inr ⟨hstart, rfl, hp⟩⟩
      rw [hfalse, List.nil_append,
        blockLines_startsLine (p := p.further i l) folded hstart hp hleast hindent, Taken.onward, if_pos rfl]
      rfl
  | case2 c r p b hc ih =>
    rw [List.cons_append, blockLines, if_pos hc, Position.further_newLine]
    exact ih h hb.before.newLine nofun hopen
  | case3 c r p b hc ih =>
    have hr := hb.before.tail (ne_lineFeed hc)
    rw [List.cons_append, blockLines, if_neg hc, Position.further_next]
    exact ih h (hr.ahead _) (fun _ => hr) hopen
  | case4 c r p b _ hblank ih =>
    have hr := hb.before.tail (hblank.2 ▸ by decide : c ≠ '\n')
    rw [List.cons_append, blockLines_cons, Position.further_column, if_pos hblank,
      Position.further_next]
    exact ih h (hr.ahead _) nofun hopen
  | case5 => exact absurd h nofun
  | case6 c r p b _ hblank _ htab hc ih =>
    rw [List.cons_append, blockLines_cons, Position.further_column, if_neg hblank, if_neg htab,
      if_pos hc, Position.further_newLine]
    exact ih h hb.before.newLine nofun hopen
  | case7 c r p b _ hblank _ htab hc _ hcolumn _ ih =>
    have hr := hb.before.tail (ne_lineFeed hc)
    have hcolumn' : p.column = ((b.widen p.column).settle least).indent := hcolumn
    rw [List.cons_append, blockLines_cons, Position.further_column, if_neg hblank, if_neg htab,
      if_neg hc, if_pos hcolumn', Position.further_next]
    refine ih h (hr.ahead _) (fun _ => hr) fun hnil => (hopen hnil).imp_right fun hleast => ?_
    exact ⟨hleast.1, .inr (BlockLines.lt_indent_settle hleast.1 hleast.2)⟩
  | case8 c r p b _ hblank _ htab hc _ hcolumn =>
    obtain rfl := Except.ok.inj h
    have hcolumn' : ¬p.column = ((b.widen p.column).settle least).indent := hcolumn
    rw [List.cons_append, blockLines_cons, Position.further_column, if_neg hblank, if_neg htab,
      if_neg hc, if_neg hcolumn']
    refine ⟨_, ?_, fun _ => rfl, hb⟩
    rw [Taken.onward_of_ne_nil (List.cons_ne_nil c r)]
    rfl

theorem blockScalar_further {folded : Bool} {parent : Option ℕ}
    (h : blockScalar folded parent text p = .ok t) (hb : Before text after)
    (hopen : t.rest = [] → after = [] ∨ ∃ n ∈ parent, lead after ≤ n) :
    blockScalar folded parent (text ++ after) (p.further i l) = .ok (t.onward after i l) ∧
      Ahead t.rest t.pos after := by
  obtain ⟨hheader, hrest⟩ := blockHeader_further hb (p := p) (i := i) (l := l)
  unfold blockScalar at h ⊢
  rw [hheader]
  generalize blockHeader text p = header at h hrest ⊢
  by_cases hdepth : header.result.depth = some 0
  · simp [hdepth] at h
  · simp only [Taken.further, if_neg hdepth] at h ⊢
    obtain ⟨⟨rest, q⟩, hend, h⟩ := bind_eq_ok_iff.1 h
    obtain ⟨hend', hahead⟩ := endLine_further (i := i) (l := l) hend hrest
    obtain ⟨lines, hlines, h⟩ := bind_eq_ok_iff.1 h
    obtain rfl := Except.ok.inj h
    obtain ⟨b, hlines', hfinish, hahead'⟩ := blockLines_further (i := i) (l := l) hlines hahead
      (fun hin => Bool.noConfusion hin) fun hnil => (hopen hnil).imp_right (by
        rintro ⟨n, rfl, hn⟩
        refine ⟨Nat.lt_of_lt_of_le (Nat.lt_succ_of_le hn) (Nat.le_max_right _ _), ?_⟩
        cases hd : header.result.depth with
        | none => exact .inl rfl
        | some d =>
          have hpos : d ≠ 0 := by
            rintro rfl
            exact hdepth hd
          exact .inr (by simp only [Option.getD_some]; omega))
    refine ⟨?_, hahead'⟩
    rw [hend', ok_bind]
    dsimp only
    rw [hlines', ok_bind]
    refine (if_neg hdepth).trans (congrArg Except.ok ?_)
    rw [← hfinish]
    unfold Taken.onward
    dsimp only
    split <;> rfl

end Yaml
end LayeredConfig
