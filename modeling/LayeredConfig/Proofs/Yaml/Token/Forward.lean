/-
Reading goes forward.

Where a reader stops, it stands further down than before or, in the same line, not further left. So
the places where it may stand are ordered by their lines, and within a line by their columns.
-/
import Mathlib
import LayeredConfig.Yaml.Token.Scan
import LayeredConfig.Proofs.Yaml.Token.Further

namespace LayeredConfig
namespace Yaml

/-- The line and the column of a position, in the order of the text. -/
def Position.place (p : Position) : ℕ ×ₗ ℕ := toLex (p.line, p.column)

namespace Position

theorem le_move (p : Position) (n : ℕ) : p.place ≤ (p.move n).place :=
  Prod.Lex.toLex_le_toLex.2 (.inr ⟨rfl, Nat.le_add_right p.column n⟩)

theorem le_next (p : Position) : p.place ≤ p.next.place := p.le_move 1

theorem le_newLine (p : Position) : p.place ≤ p.newLine.place :=
  Prod.Lex.toLex_le_toLex.2 (.inl (Nat.lt_succ_self p.line))

end Position

variable {text : List Char} {p : Position} {gap : Gap} {read : List Char}

/-! ## Quoted and plain scalars -/

theorem le_singleQuoted {t : Taken String} (h : singleQuoted text p gap read = .ok t) :
    p.place ≤ t.pos.place := by
  fun_induction singleQuoted text p gap read with
  | case1 | case6 => cases h
  | case2 r p gap read ih => exact (p.le_move 2).trans (ih h)
  | case3 r p =>
    obtain rfl := Except.ok.inj h
    exact p.le_next
  | case4 c r p gap read _ _ _ ih => exact p.le_newLine.trans (ih h)
  | case5 c r p gap read _ _ _ _ ih | case7 c r p gap read _ _ _ _ _ ih =>
    exact p.le_next.trans (ih h)

theorem le_doubleQuoted {t : Taken String} (h : doubleQuoted text p gap read = .ok t) :
    p.place ≤ t.pos.place := by
  fun_induction doubleQuoted text p gap read with
  | case1 | case4 | case6 | case8 | case11 | case12 | case15 => cases h
  | case2 r p =>
    obtain rfl := Except.ok.inj h
    exact p.le_next
  | case3 p gap read a b r c hc ih => exact (p.le_move 4).trans (ih h)
  | case5 p gap read a b c d r e hc ih => exact (p.le_move 6).trans (ih h)
  | case7 p gap read a b c d e f g h' r k hc ih => exact (p.le_move 10).trans (ih h)
  | case9 p gap read c r _ _ _ hc ih => exact (p.le_next.trans p.next.le_newLine).trans (ih h)
  | case10 p gap read c r _ _ _ hc d hd ih => exact (p.le_move 2).trans (ih h)
  | case13 c r p gap read hquote hescape hc ih => exact p.le_newLine.trans (ih h)
  | case14 c r p gap read hquote hescape hc hblank ih => exact p.le_next.trans (ih h)
  | case16 c r p gap read hquote hescape hc hblank hmark ih => exact p.le_next.trans (ih h)

theorem le_plainScalar {inFlow : Bool} {indent : ℕ} {t : Taken (String × Bool)}
    (h : plainScalar inFlow indent text p gap read = .ok t) : p.place ≤ t.pos.place := by
  fun_induction plainScalar inFlow indent text p gap read with
  | case3 | case6 => cases h
  | case1 | case5 | case7 =>
    obtain rfl := Except.ok.inj h
    exact le_rfl
  | case2 c r p gap read hc ih => exact p.le_newLine.trans (ih h)
  | case4 c r p gap read hc hblank htab ih => exact p.le_next.trans (ih h)
  | case8 c r p gap read hc hblank hend hstray hstop ih => exact p.le_next.trans (ih h)

/-! ## Anchors and tags -/

theorem le_takeWord (text : List Char) (p : Position) : p.place ≤ (takeWord text p).pos.place :=
  p.le_move _

theorem le_anchorName {t : Taken String} (h : anchorName text p = .ok t) :
    p.place ≤ t.pos.place := by
  unfold anchorName at h
  dsimp only at h
  split at h
  case isTrue => cases h
  case isFalse =>
    obtain rfl := Except.ok.inj h
    exact le_takeWord text p

theorem le_tagSpelling {verbatim : Bool} {pending : Option Escaped} {t : Taken (List Char)}
    (h : tagSpelling verbatim text p pending read = .ok t) : p.place ≤ t.pos.place := by
  fun_induction tagSpelling verbatim text p pending read with
  | case1 | case4 | case5 | case8 => cases h
  | case2 a b r p pending read hi lo hlo hhi bits hbyte ih => exact (p.le_move 3).trans (ih h)
  | case3 a b r p pending read hi lo hlo hhi e he hbyte ih => exact (p.le_move 3).trans (ih h)
  | case6 c r p pending read _ hc hmark ih => exact p.le_next.trans (ih h)
  | case7 | case9 =>
    obtain rfl := Except.ok.inj h
    exact le_rfl

theorem le_tagUri {verbatim : Bool} {t : Taken String} (h : tagUri verbatim text p = .ok t) :
    p.place ≤ t.pos.place := by
  obtain ⟨uri, huri, h⟩ := bind_eq_ok_iff.1 h
  by_cases hempty : uri.result.isEmpty = true
  · rw [if_pos hempty] at h
    cases h
  · rw [if_neg hempty] at h
    obtain rfl := Except.ok.inj h
    exact le_tagSpelling huri

theorem eq_of_tagEnd {inFlow : Bool} {tag t : Taken (String × String)}
    (h : tagEnd inFlow tag = .ok t) : tag = t := by
  rw [tagEnd] at h
  split at h
  case isTrue => exact Except.ok.inj h
  case isFalse => cases h

theorem le_tagProperty {inFlow : Bool} {t : Taken (String × String)}
    (h : tagProperty inFlow text p = .ok t) : p.place ≤ t.pos.place := by
  have hword := le_takeWord text p
  by_cases hangle : text.head? = some '<'
  · obtain ⟨r, rfl⟩ := List.head?_eq_some_iff.1 hangle
    rw [tagProperty_angle] at h
    obtain ⟨uri, huri, h⟩ := bind_eq_ok_iff.1 h
    split at h
    case h_1 =>
      obtain rfl := eq_of_tagEnd h
      exact (p.le_next.trans (le_tagUri huri)).trans uri.pos.le_next
    case h_2 => cases h
  · by_cases hmark : ∃ r, (takeWord text p).rest = '!' :: r
    · obtain ⟨r, hr⟩ := hmark
      rw [tagProperty_handle hangle hr] at h
      obtain ⟨uri, huri, h⟩ := bind_eq_ok_iff.1 h
      obtain rfl := eq_of_tagEnd h
      exact hword.trans ((Position.le_next _).trans (le_tagUri huri))
    · rw [tagProperty_suffix hangle (not_exists.1 hmark)] at h
      obtain ⟨uri, huri, h⟩ := bind_eq_ok_iff.1 h
      obtain rfl := eq_of_tagEnd h
      exact hword.trans (le_tagSpelling huri)

/-! ## Block scalars -/

theorem le_dropBlanks (text : List Char) (p : Position) :
    p.place ≤ (dropBlanks text p).2.place := by
  fun_induction dropBlanks text p with
  | case1 c r p hc ih => exact p.le_next.trans ih
  | case2 | case3 => exact le_rfl

theorem le_dropLine (text : List Char) (p : Position) : p.place ≤ (dropLine text p).2.place := by
  fun_induction dropLine text p with
  | case2 c r p hc ih => exact p.le_next.trans ih
  | case1 | case3 => exact le_rfl

theorem le_endLine {r : List Char} {q : Position} (h : endLine text p = .ok (r, q)) :
    p.place ≤ q.place := by
  have hblanks := le_dropBlanks text p
  rw [endLine] at h
  generalize dropBlanks text p = blanks at h hblanks
  obtain ⟨text, p'⟩ := blanks
  dsimp only at h hblanks
  have hcomment :
      p'.place ≤ (if text.head? == some '#' then dropLine text p' else (text, p')).2.place := by
    split
    · exact le_dropLine text p'
    · exact le_rfl
  generalize (if text.head? == some '#' then dropLine text p' else (text, p')) = comment
    at h hcomment
  obtain ⟨text, p''⟩ := comment
  refine (hblanks.trans hcomment).trans ?_
  cases text with
  | nil =>
    obtain ⟨-, rfl⟩ := Prod.mk.inj (Except.ok.inj h)
    exact le_rfl
  | cons c r =>
    dsimp only at h
    split at h
    case isTrue =>
      obtain ⟨-, rfl⟩ := Prod.mk.inj (Except.ok.inj h)
      exact p''.le_newLine
    case isFalse => cases h

theorem le_blockHeader (text : List Char) (p : Position) :
    p.place ≤ (blockHeader text p).pos.place := by
  unfold blockHeader
  split
  · exact le_rfl
  · split
    · exact p.le_move _
    · split
      · exact p.le_move _
      · exact le_rfl

theorem le_blockLines {folded inLine : Bool} {least : ℕ} {b : BlockLines} {t : Taken BlockLines}
    (h : blockLines folded least inLine text p b = .ok t) : p.place ≤ t.pos.place := by
  fun_induction blockLines folded least inLine text p b with
  | case1 =>
    obtain rfl := Except.ok.inj h
    exact le_rfl
  | case2 c r p b hc ih => exact p.le_newLine.trans (ih h)
  | case3 c r p b hc ih => exact p.le_next.trans (ih h)
  | case4 c r p b _ hblank ih => exact p.le_next.trans (ih h)
  | case5 => cases h
  | case6 c r p b _ hblank _ htab hc ih => exact p.le_newLine.trans (ih h)
  | case7 c r p b _ hblank _ htab hc _ hcolumn _ ih => exact p.le_next.trans (ih h)
  | case8 =>
    obtain rfl := Except.ok.inj h
    exact le_rfl

theorem le_blockScalar {folded : Bool} {parent : Option ℕ} {t : Taken String}
    (h : blockScalar folded parent text p = .ok t) : p.place ≤ t.pos.place := by
  have hheader := le_blockHeader text p
  unfold blockScalar at h
  generalize blockHeader text p = header at h hheader
  by_cases hdepth : header.result.depth = some 0
  · simp [hdepth] at h
  · simp only [if_neg hdepth] at h
    obtain ⟨⟨rest, q⟩, hend, h⟩ := bind_eq_ok_iff.1 h
    obtain ⟨lines, hlines, h⟩ := bind_eq_ok_iff.1 h
    obtain rfl := Except.ok.inj h
    exact hheader.trans ((le_endLine hend).trans (le_blockLines hlines))

/-! ## White space -/

theorem Scanner.le_skipSpace (inFlow keyAllowed comment : Bool) (text : List Char) (p : Position) :
    p.place ≤ (Scanner.skipSpace inFlow keyAllowed comment text p).2.2.place := by
  fun_induction Scanner.skipSpace inFlow keyAllowed comment text p with
  | case1 | case5 => exact le_rfl
  | case2 keyAllowed comment c r p hc ih => exact p.le_newLine.trans ih
  | case3 keyAllowed comment c r p hc hcomment ih => exact p.le_next.trans ih
  | case4 keyAllowed comment c r p hc hcomment hblank ih => exact p.le_next.trans ih

end Yaml
end LayeredConfig
