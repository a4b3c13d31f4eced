/-
Where the list in a text starts, and what is read when another list follows it.

The tokens of the second list come without the start of its sequence behind those of the first,
which come without the end of theirs (`Fresh.run_append`). The mark of a document may stand in front
of the first list (`Opening`), but not in front of the second.
-/
import Mathlib
import LayeredConfig.Proofs.Yaml.Token.Joined

namespace LayeredConfig
namespace Yaml
namespace Scanner

variable {s w : Scanner} {text after r r' : List Char} {n m c : ℕ} {head : List Token}

/-! ## The start of a stream -/

theorem fresh_start (text : List Char) : (start text).Fresh := by
  unfold start
  split
  · split <;> exact ⟨rfl, rfl, rfl, rfl, rfl, rfl⟩
  · exact ⟨rfl, rfl, rfl, rfl, rfl, rfl⟩

theorem start_append (h : text ≠ []) :
    start (text ++ after) = (start text).within ⟨[], 0, 0, after⟩ := by
  obtain ⟨c, r, rfl⟩ := List.exists_cons_of_ne_nil h
  rw [List.cons_append, start, start]
  split <;> simp [within, Position.further]

theorem start_of_startsLine (h : StartsLine text) : start text = { rest := text } := by
  obtain ⟨n, c, r, rfl, hc⟩ := h
  have hmark : ∀ d ∈ List.head? (List.replicate n ' ' ++ c :: r), d ≠ byteOrderMark := by
    cases n with
    | zero => rcases hc with rfl | rfl <;> simp [byteOrderMark]
    | succ n => simp [List.replicate_succ, byteOrderMark]
  cases htext : List.replicate n ' ' ++ c :: r with
  | nil => rfl
  | cons d rest => exact if_neg (hmark d (by rw [htext]; rfl))

theorem waits_start (hend : text.getLast? = some '\n') (hafter : StartsLine after) :
    (start text).Waits after := by
  have hb : Before text after := .inr ⟨hafter, hend⟩
  unfold start
  split
  · split
    case isTrue hc => exact .inl (hb.tail (hc ▸ by decide))
    case isFalse => exact .inl hb
  · exact absurd hend nofun

/-! ## One list below another -/

theorem counted_entered (c : ℕ) (r : List Char) (p : Position) : (entered c r p).Counted := rfl

/-- After the first entry, more of the same text follows. -/
theorem inside_entered (hr : Before r after) (p : Position) :
    ((entered c r p).within (.onto [.blockSequenceStart])).Inside c after := by
  rw [Setting.onto, entered_within]
  have hheld : ∀ k, [(none : Option KeyCandidate)].getLast? ≠ some (some k) := by simp
  exact ⟨rfl, rfl, rfl, ⟨[], rfl, fun _ hi => absurd hi List.not_mem_nil⟩,
    fun k hk => absurd hk (hheld k), .inl hr, _, _, rfl, rfl⟩

/-- What follows where a text waits for more is not the entry that comes next. -/
theorem AtEntry.before (h : s.AtEntry c r) (hwaits : s.Waits after) :
    (s.within ⟨[], 0, 0, after⟩).toNextToken = s.toNextToken.within ⟨[], 0, 0, after⟩ ∧
      Before r after := by
  obtain ⟨hspace, hb⟩ := within_toNextToken (x := ⟨[], 0, 0, after⟩) hwaits fun hnil =>
    absurd (h.rest.symm.trans hnil) nofun
  rw [h.rest] at hb
  exact ⟨hspace, hb.tail (by decide)⟩

theorem AtEntry.within (h : s.AtEntry c r) (hwaits : s.Waits after) :
    (s.within ⟨[], 0, 0, after⟩).AtEntry c (r ++ after) := by
  obtain ⟨hspace, hb⟩ := h.before hwaits
  refine ⟨?_, (within_candidate _ _).trans h.candidate, ?_, ?_, ?_, ?_⟩
  · rw [Scanner.within, h.outer]
    rfl
  · rw [hspace]
    exact congrArg (· ++ after) h.rest
  · exact hb.atSpace_append.trans h.space
  · rw [hspace]
    exact h.column
  · rw [hspace]
    exact h.keyAllowed

namespace Fresh

theorem counted (hs : s.Fresh) : s.Counted := by
  rw [Counted, hs.count, hs.tokens]
  rfl

theorem within_onto (hs : s.Fresh) : s.within (.onto []) = s := by
  obtain ⟨rest, pos, tokens, count, indents, candidate, outer, keyAllowed, finished⟩ := s
  obtain ⟨rfl, rfl, rfl, rfl, rfl, rfl⟩ := hs
  exact Scanner.within_onto [] _

/-- A run enters the sequence. -/
theorem run_entry (hs : s.Fresh) (hentry : s.AtEntry c r) (h : run n s = .ok w) :
    ∃ m, n = m + 1 ∧ run m ((entered c r s.toNextToken.pos.next).within
      (.onto [.blockSequenceStart])) = .ok w := by
  cases n with
  | zero => exact absurd h nofun
  | succ n =>
    rw [run_succ n hs.unfinished, hs.next_entry hentry] at h
    exact ⟨n, rfl, h⟩

theorem tokens_of_run (hs : s.Fresh) (hentry : s.AtEntry c r) (h : run n s = .ok w) :
    ∃ ts, w.tokens = ts ++ [.blockEntry, .blockSequenceStart] := by
  obtain ⟨m, rfl, hrun⟩ := hs.run_entry hentry h
  have hcount : ({ rest := r, pos := s.toNextToken.pos.next, indents := [c] } : Scanner).Counted :=
    rfl
  have hentered : (entered c r s.toNextToken.pos.next).within (.onto [.blockSequenceStart]) =
      Scanner.within (.onto [.blockEntry, .blockSequenceStart])
        { rest := r, pos := s.toNextToken.pos.next, indents := [c] } := rfl
  rw [hentered, onto_run hcount] at hrun
  obtain ⟨v, -, rfl⟩ := map_eq_ok_iff.1 hrun
  exact ⟨v.tokens, rfl⟩

/-- Reading a list and another below it in the same column: what ends with the first list is left
out, and so is the start of the second. -/
theorem run_append {w' : Scanner} (hs : s.Fresh) (hwaits : s.Waits after)
    (hafter : StartsLine after) (hlead : lead after ≤ c) (hentry : s.AtEntry c r)
    (hentry' : (start after).AtEntry c r') (h : run n s = .ok w)
    (h' : run m (start after) = .ok w') (hw : Whole w.tokens)
    (hmarks : ∀ t ∈ w'.tokens, t.isMark = false) :
    ∃ ts ts' u k, w.tokens = .streamEnd :: .blockEnd :: ts ∧
      w'.tokens = ts' ++ [.blockSequenceStart] ∧ k + 2 ≤ n + m ∧
      run k (s.within ⟨[], 0, 0, after⟩) = .ok u ∧ u.tokens = ts' ++ ts := by
  obtain ⟨-, hr⟩ := hentry.before hwaits
  obtain ⟨n, rfl, hrun⟩ := hs.run_entry hentry h
  obtain ⟨m, rfl, hrun'⟩ := (fresh_start after).run_entry hentry' h'
  -- The first list up to its end.
  obtain ⟨hnext, -⟩ := within_next (x := ⟨[], 0, 0, after⟩) (c := c) hs.counted hwaits
    (fun hnil => absurd (hentry.rest.symm.trans hnil) nofun) (hs.next_entry hentry)
    (fun t ht => hw.unmarked t (subset_of_run hrun ht))
    fun hnil => hr.nil_or (List.append_eq_nil_iff.1 hnil).1
  have hentered := inside_entered (c := c) hr s.toNextToken.pos.next
  rw [onward_of_before (by rw [Setting.onto, entered_within]; exact hr)] at hnext
  obtain ⟨e, k, he, hk, hsame⟩ := exists_ends (x := ⟨[], 0, 0, after⟩) hentered hlead hrun hw
  -- The entry with which the second list starts.
  obtain ⟨hnextEntry, i, l, hpos⟩ :=
    he.atEntry hafter.ne_nil (start_of_startsLine hafter ▸ hentry')
  rw [← start_of_startsLine hafter] at hpos
  obtain ⟨ts, htokens, hnext'⟩ := he.next_entry rfl hnextEntry
    ((congrArg Position.next hpos).trans (Position.further_next i l _))
  -- The rest of the second list.
  rw [onto_run (counted_entered c r' _)] at hrun'
  obtain ⟨v, hv, rfl⟩ := map_eq_ok_iff.1 hrun'
  have hv' := within_run (x := ⟨ts, i, l, []⟩) rfl (counted_entered c r' _) hv fun t ht =>
    hmarks t (List.mem_append_left _ ht)
  refine ⟨ts, v.tokens, v.within ⟨ts, i, l, []⟩, k + (m + 1) + 1, htokens, rfl, by omega, ?_, rfl⟩
  rw [run_succ _ (by exact hs.unfinished), hnext, ok_bind, hsame,
    run_succ m (by exact he.inside.unfinished), hnext', ok_bind, hv']

end Fresh

/-! ## The mark with which a document starts -/

/-- Where that mark comes next. -/
structure AtMark (r : List Char) (s : Scanner) : Prop where
  rest : s.toNextToken.rest = '-' :: '-' :: '-' :: r
  space : atSpace r = true
  column : s.toNextToken.pos.column = 0

/-- Behind that mark. -/
def marked (r : List Char) (p : Position) : Scanner := { rest := r, pos := p, keyAllowed := false }

theorem fresh_marked (r : List Char) (p : Position) : (marked r p).Fresh :=
  ⟨rfl, rfl, rfl, rfl, rfl, rfl⟩

theorem Fresh.next_mark (hs : s.Fresh) (h : s.AtMark r) :
    s.next = .ok ((marked r (s.toNextToken.pos.move 3)).within (.onto [.documentStart])) := by
  obtain ⟨rest, pos, tokens, count, indents, candidate, outer, keyAllowed, finished⟩ := s
  obtain ⟨rfl, rfl, rfl, rfl, rfl, rfl⟩ := hs
  obtain ⟨hrest, hspace, hcolumn⟩ := h
  rw [next, toNextToken]
  rw [toNextToken] at hrest hcolumn
  generalize skipSpace _ _ _ _ _ = skipped at hrest hcolumn ⊢
  obtain ⟨allowed, rest, ⟨i, l, c⟩⟩ := skipped
  obtain rfl : rest = _ := hrest
  obtain rfl : c = 0 := hcolumn
  have hmark : atDocumentMark ('-' :: '-' :: '-' :: r) = true := hspace
  have hat : Action.at? false 0 '-' ('-' :: '-' :: r) = some (.document true) := by
    simp [Action.at?, hmark]
  show readToken { rest := '-' :: '-' :: '-' :: r, pos := ⟨i, l, 0⟩, keyAllowed := allowed } = _
  rw [readToken_eq rfl]
  show (Option.map _ (Action.at? false 0 '-' ('-' :: '-' :: r))).getD _ = _
  rw [hat, Scanner.within_onto]
  rfl

theorem AtMark.before (h : s.AtMark r) (hwaits : s.Waits after) :
    (s.within ⟨[], 0, 0, after⟩).toNextToken = s.toNextToken.within ⟨[], 0, 0, after⟩ ∧
      Before r after := by
  obtain ⟨hspace, hb⟩ := within_toNextToken (x := ⟨[], 0, 0, after⟩) hwaits fun hnil =>
    absurd (h.rest.symm.trans hnil) nofun
  rw [h.rest] at hb
  exact ⟨hspace, ((hb.tail (by decide)).tail (by decide)).tail (by decide)⟩

theorem AtMark.within (h : s.AtMark r) (hwaits : s.Waits after) :
    (s.within ⟨[], 0, 0, after⟩).AtMark (r ++ after) := by
  obtain ⟨hspace, hb⟩ := h.before hwaits
  refine ⟨?_, ?_, ?_⟩
  · rw [hspace]
    exact congrArg (· ++ after) h.rest
  · exact hb.atSpace_append.trans h.space
  · rw [hspace]
    exact h.column

/-- Where the reading of a list starts: at the start of the text, or behind the mark with which
its document starts. -/
inductive Opening (text : List Char) : List Token → Scanner → Prop where
  | bare : Opening text [] (start text)
  | marked {r : List Char} (h : (start text).AtMark r) :
      Opening text [.documentStart] (marked r ((start text).toNextToken.pos.move 3))

namespace Opening

theorem fresh (h : Opening text head s) : s.Fresh := by
  cases h with
  | bare => exact fresh_start text
  | marked => exact fresh_marked _ _

theorem waits (h : Opening text head s) (hend : text.getLast? = some '\n')
    (hafter : StartsLine after) : s.Waits after := by
  cases h with
  | bare => exact waits_start hend hafter
  | marked hmark => exact .inl (hmark.before (waits_start hend hafter)).2

theorem append (h : Opening text head s) (hend : text.getLast? = some '\n')
    (hafter : StartsLine after) : Opening (text ++ after) head (s.within ⟨[], 0, 0, after⟩) := by
  have hne : text ≠ [] := by
    rintro rfl
    exact absurd hend nofun
  cases h with
  | bare => exact start_append hne ▸ .bare
  | @marked r hmark =>
    have hwaits := waits_start hend hafter
    have hpos : (Scanner.marked r ((start text).toNextToken.pos.move 3)).within
        ⟨[], 0, 0, after⟩ =
          Scanner.marked (r ++ after) ((start (text ++ after)).toNextToken.pos.move 3) := by
      rw [start_append hne, (hmark.before hwaits).1]
      rfl
    rw [hpos]
    exact .marked (start_append hne ▸ hmark.within hwaits)

/-- The tokens before the list, and the rest of the run. -/
theorem run_eq (h : Opening text head s) (n : ℕ) :
    run (n + head.length) (start text) = (run n s).map (Scanner.within (.onto head)) := by
  cases h with
  | bare =>
    rw [← onto_run (fresh_start text).counted, (fresh_start text).within_onto]
    rfl
  | marked hmark =>
    rw [List.length_singleton, run_succ n (fresh_start text).unfinished,
      (fresh_start text).next_mark hmark]
    exact onto_run (fresh_marked _ _).counted n

theorem exists_of_run (h : Opening text head s) (hrun : run n (start text) = .ok w) :
    ∃ m w', n = m + head.length ∧ run m s = .ok w' ∧ w'.within (.onto head) = w := by
  obtain ⟨m, rfl⟩ : ∃ m, n = m + head.length := by
    cases n with
    | zero => exact absurd hrun nofun
    | succ n =>
      cases h with
      | bare => exact ⟨n + 1, rfl⟩
      | marked => exact ⟨n, rfl⟩
  rw [h.run_eq m] at hrun
  obtain ⟨w', hw', rfl⟩ := map_eq_ok_iff.1 hrun
  exact ⟨m, w', rfl, hw', rfl⟩

theorem reverse_eq (h : Opening text head s) : head.reverse = head := by
  cases h <;> rfl

end Opening

end Scanner
end Yaml
end LayeredConfig
