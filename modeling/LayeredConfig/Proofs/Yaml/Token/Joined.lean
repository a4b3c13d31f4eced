/-
The tokens of a text that has been put below another.

Up to its end, a text is read as on its own (`within_next`). There the two ways part: at the end of
a stream all blocks are closed and the stream is ended, while an entry in the column of the list
closes all blocks but the sequence that stands there (`Ends.next_entry`). That sequence is still
open then: what follows its end would stand behind it among the tokens (`Behind.of_run`).
-/
import Mathlib
import LayeredConfig.Proofs.Yaml.Token.Within

namespace LayeredConfig
namespace Yaml
namespace Scanner

variable {x : Setting} {s mid u w : Scanner} {t : Token} {c : ℕ} {later earlier : List Token}

/-! ## White space -/

section

variable {inFlow keyAllowed comment allowed : Bool} {text after r : List Char} {p q : Position}
  {i l : ℕ}

theorem skipSpace_further (hb : Ahead text p after)
    (hr : (skipSpace inFlow keyAllowed comment text p).2.1 = [] → after = []) :
    skipSpace inFlow keyAllowed comment (text ++ after) (p.further i l) =
        ((skipSpace inFlow keyAllowed comment text p).1,
          (skipSpace inFlow keyAllowed comment text p).2.1 ++ after,
          (skipSpace inFlow keyAllowed comment text p).2.2.further i l) ∧
      Before (skipSpace inFlow keyAllowed comment text p).2.1 after := by
  fun_induction skipSpace inFlow keyAllowed comment text p with
  | case1 keyAllowed comment p =>
    obtain rfl := hr rfl
    exact ⟨rfl, .nil _⟩
  | case2 keyAllowed comment c r p hc ih =>
    rw [List.cons_append, skipSpace, if_pos hc, Position.further_newLine]
    exact ih hb.before.newLine hr
  | case3 keyAllowed comment c r p hc hcomment ih =>
    rw [List.cons_append, skipSpace, if_neg hc, if_pos hcomment, Position.further_next]
    exact ih ((hb.before.tail (ne_lineFeed hc)).ahead _) hr
  | case4 keyAllowed comment c r p hc hcomment hblank ih =>
    rw [List.cons_append, skipSpace, if_neg hc, if_neg hcomment, if_pos hblank,
      Position.further_next]
    exact ih ((hb.before.tail (ne_lineFeed hc)).ahead _) hr
  | case5 keyAllowed comment c r p hc hcomment hblank =>
    rw [List.cons_append, skipSpace, if_neg hc, if_neg hcomment, if_neg hblank]
    exact ⟨rfl, hb.before⟩

theorem skipSpace_blanks (n : ℕ) : skipSpace inFlow keyAllowed false
    (List.replicate n ' ' ++ text) p = skipSpace inFlow keyAllowed false text (p.move n) := by
  induction n generalizing p with
  | zero => rfl
  | succ n ih =>
    rw [List.replicate_succ, List.cons_append, skipSpace, if_neg (by decide), if_neg (by simp),
      if_pos (.inl rfl), ih]
    simp [Position.next, Position.move, Nat.add_assoc, Nat.add_comm 1]

/-- White space up to the end of a text that ends a line goes on in what follows. -/
theorem skipSpace_through (hend : (skipSpace false keyAllowed comment text p).2.1 = [])
    (hb : Ahead text p after) (hafter : after ≠ [])
    (hnil : text = [] → keyAllowed = true ∧ comment = false) :
    skipSpace false keyAllowed comment (text ++ after) p =
        skipSpace false true false after (skipSpace false keyAllowed comment text p).2.2 ∧
      (skipSpace false keyAllowed comment text p).2.2.column = 0 := by
  fun_induction skipSpace false keyAllowed comment text p with
  | case1 keyAllowed comment p =>
    obtain ⟨rfl, rfl⟩ := hnil rfl
    rcases hb with hb | ⟨-, -, hp⟩
    · exact absurd hb.eq_nil hafter
    · exact ⟨rfl, hp⟩
  | case2 keyAllowed comment c r p hc ih =>
    rw [List.cons_append, skipSpace, if_pos hc]
    exact ih hend hb.before.newLine fun _ => ⟨by simp, rfl⟩
  | case3 keyAllowed comment c r p hc hcomment ih =>
    have hr := hb.before.tail (ne_lineFeed hc)
    rw [List.cons_append, skipSpace, if_neg hc, if_pos hcomment]
    exact ih hend (hr.ahead _) fun hnil => absurd hnil (hr.ne_nil.resolve_left hafter)
  | case4 keyAllowed comment c r p hc hcomment hblank ih =>
    have hr := hb.before.tail (ne_lineFeed hc)
    rw [List.cons_append, skipSpace, if_neg hc, if_neg hcomment, if_pos hblank]
    exact ih hend (hr.ahead _) fun hnil => absurd hnil (hr.ne_nil.resolve_left hafter)
  | case5 => exact absurd hend nofun

end

/-! ## A step -/

theorem Waits.ahead {after : List Char} (h : s.Waits after) : Ahead s.rest s.pos after :=
  h.imp_right fun ⟨hstart, hnil, hp, _⟩ => ⟨hstart, hnil, hp⟩

theorem toNextToken_of_skipSpace {keyAllowed : Bool} {rest : List Char} {pos : Position}
    (h : skipSpace s.inFlow s.keyAllowed false s.rest s.pos = (keyAllowed, rest, pos)) :
    s.toNextToken = { s with keyAllowed, rest, pos } := by
  rw [toNextToken, h]

theorem replicate_lead_append_drop (text : List Char) :
    List.replicate (lead text) ' ' ++ text.drop (lead text) = text := by
  have hblanks : text.takeWhile (· = ' ') = List.replicate (lead text) ' ' :=
    List.eq_replicate_iff.2 ⟨rfl, fun c hc => by simpa using List.mem_takeWhile_imp hc⟩
  have htake : text.takeWhile (· = ' ') = text.take (lead text) :=
    List.prefix_iff_eq_take.1 (List.takeWhile_prefix _)
  rw [← hblanks, htake, List.take_append_drop]

/-- Blanks at the front of what is read next make no difference. -/
theorem toNextToken_onward (x : Setting) (s : Scanner) :
    (s.onward x).toNextToken = (s.within x).toNextToken := by
  rw [onward]
  split
  case isTrue hnil =>
    have hrest : (s.within x).rest = x.after := by rw [within, hnil]; rfl
    have hskip : skipSpace (s.within x).inFlow (s.within x).keyAllowed false
        ((s.within x).skip (lead x.after)).rest ((s.within x).skip (lead x.after)).pos =
          skipSpace (s.within x).inFlow (s.within x).keyAllowed false (s.within x).rest
            (s.within x).pos := by
      show skipSpace _ _ _ ((s.within x).rest.drop (lead x.after)) _ = _
      rw [hrest, skip, ← skipSpace_blanks, replicate_lead_append_drop]
    rw [toNextToken_of_skipSpace hskip, toNextToken_of_skipSpace rfl]
    rfl
  case isFalse => rfl

theorem within_toNextToken (hw : s.Waits x.after) (hr : s.toNextToken.rest = [] → x.after = []) :
    (s.within x).toNextToken = s.toNextToken.within x ∧ Before s.toNextToken.rest x.after := by
  obtain ⟨hskip, hb⟩ := skipSpace_further (i := x.index) (l := x.line) hw.ahead hr
  refine ⟨?_, hb⟩
  unfold toNextToken
  rw [within_inFlow]
  simp only [within, hskip]

theorem within_readToken (hcount : s.Counted) (hb : Before s.rest x.after)
    (h : s.readToken = .ok u) (hmarks : ∀ t ∈ u.tokens, t.isMark = false)
    (hopen : u.rest = [] →
      x.after = [] ∨ u.inFlow = false ∧ ∃ n ∈ s.indents.head?, lead x.after ≤ n) :
    (s.within x).readToken = .ok (u.onward x) ∧ u.Waits x.after := by
  cases hc : s.rest with
  | nil =>
    rw [hc] at hb
    have hafter := hb.eq_nil
    have hrest : (s.within x).rest = [] := by rw [within, hc, hafter]; rfl
    rw [readToken, hc] at h
    rw [readToken, hrest]
    exact waits_of_before ⟨(within_endToken x s).trans (congrArg (Except.map _) h), .inl hafter⟩
  | cons c r =>
    have hne : c ≠ '\n' := by
      rintro rfl
      cases (readToken_lineFeed hc).symm.trans h
    rw [hc] at hb
    have hr := hb.tail hne
    have hrest : (s.within x).rest = c :: (r ++ x.after) := by rw [within, hc]; rfl
    obtain ⟨a, ha, hperform⟩ := exists_of_readToken hc h
    obtain ⟨hperform', hw⟩ := within_perform hcount hc (hc ▸ hb) hr hperform hmarks hopen
    refine ⟨?_, hw⟩
    rw [readToken_eq hrest, within_inFlow, at?_append hb hr]
    exact ha.symm ▸ hperform'

theorem closeBlocks_inFlow (column : Option ℕ) (s : Scanner) :
    (s.closeBlocks column).inFlow = s.inFlow := by
  unfold closeBlocks
  split <;> rfl

/-- What is done before a token is read. -/
theorem grows_of_dropLapsed (h : s.toNextToken.dropLapsed = .ok mid)
    (hc : s.inFlow = true ∨ c ≤ s.toNextToken.pos.column) :
    s.toNextToken.Grows c (mid.closeBlocks (some mid.pos.column)) := by
  have hgrows := Grows.dropLapsed (c := c) h
  refine hgrows.trans (.closeBlocks ?_)
  obtain ⟨-, rfl⟩ := dropLapsed_eq_ok h
  simpa [inFlow, toNextToken] using hc

theorem within_next (hcount : s.Counted) (hw : s.Waits x.after)
    (hr : s.toNextToken.rest = [] → x.after = []) (h : s.next = .ok u)
    (hmarks : ∀ t ∈ u.tokens, t.isMark = false)
    (hopen : u.rest = [] → x.after = [] ∨ u.inFlow = false ∧ s.Rooted c ∧ lead x.after ≤ c ∧
      (s.inFlow = true ∨ c ≤ s.toNextToken.pos.column)) :
    (s.within x).next = .ok (u.onward x) ∧ u.Waits x.after := by
  obtain ⟨hspace, hb⟩ := within_toNextToken hw hr
  obtain ⟨s₁, hs₁, h⟩ := bind_eq_ok_iff.1 h
  have hgrows := grows_of_dropLapsed hs₁ (c := 0) (.inr (Nat.zero_le _))
  rw [next, hspace, within_dropLapsed, hs₁, map_ok, ok_bind, within_closeBlocks]
  refine within_readToken (hgrows.counted hcount) (hgrows.rest ▸ hb) h hmarks fun hnil =>
    (hopen hnil).imp_right (And.imp_right fun ⟨hroot, hlead, hc⟩ => ?_)
  obtain ⟨n, hn, hle⟩ := ((grows_of_dropLapsed hs₁ hc).rooted hroot).exists_head
  exact ⟨n, hn, hlead.trans hle⟩

/-- Before the end of the text, a step is an action. -/
theorem performs_of_next (h : s.next = .ok u) (hrest : s.toNextToken.rest ≠ [])
    (hc : s.inFlow = true ∨ c ≤ s.toNextToken.pos.column) : s.Performs c u := by
  obtain ⟨s₁, hs₁, h⟩ := bind_eq_ok_iff.1 h
  have hgrows := grows_of_dropLapsed hs₁ hc
  obtain ⟨d, r, hd⟩ := List.exists_cons_of_ne_nil (hgrows.rest ▸ hrest)
  obtain ⟨a, -, ha⟩ := exists_of_readToken hd h
  have hc' : (s₁.closeBlocks (some s₁.pos.column)).inFlow = true ∨
      c ≤ (s₁.closeBlocks (some s₁.pos.column)).pos.column := by
    obtain ⟨-, hs₁⟩ := dropLapsed_eq_ok hs₁
    have hflow : (s₁.closeBlocks (some s₁.pos.column)).inFlow = s.inFlow := by
      rw [closeBlocks_inFlow, hs₁]
      simp [inFlow, toNextToken]
    rwa [hflow, hgrows.pos]
  have hperforms := (performs_of_perform hc' ha).of_grows hgrows
  have hplace : s.pos.place ≤ s.toNextToken.pos.place := le_skipSpace _ _ _ _ _
  refine ⟨hperforms.finished, hperforms.subset, hperforms.counted, hperforms.cases.imp_right ?_⟩
  rintro ⟨t, ht, hputs⟩
  exact ⟨t, ht, hputs.finished, hplace.trans hputs.place, hputs.tokens, hputs.counted, hputs.level,
    hputs.rooted, fun hs => hputs.held fun k hk => (hs k hk).trans hplace,
    fun h => hputs.behind ⟨h.counted, h.tokens, h.candidates⟩⟩

theorem any_kept {p : Position} {k : Option KeyCandidate} (h : lost p k = false) :
    (kept p k).any (·.required) = k.any (·.required) := by
  cases k with
  | none => rfl
  | some k =>
    by_cases hk : KeyCandidate.lapsed p k = true
    · have hrequired : k.required = false := by simpa [lost, hk] using h
      simp [kept, hk, hrequired]
    · simp [kept, hk]

theorem closeBlocks_of_inFlow (column : Option ℕ) (h : s.inFlow = true) :
    s.closeBlocks column = s := if_pos h

theorem closeBlocks_of_block (column : Option ℕ) (h : s.inFlow = false) :
    s.closeBlocks column = { s with
      indents := s.indents.drop (closedBy column s.indents)
      tokens := List.replicate (closedBy column s.indents) .blockEnd ++ s.tokens
      count := s.count + closedBy column s.indents } :=
  if_neg (by simp [h])

theorem closeBlocks_candidate (column : Option ℕ) (s : Scanner) :
    (s.closeBlocks column).candidate = s.candidate := by
  unfold closeBlocks
  split <;> rfl

theorem closeBlocks_outer (column : Option ℕ) (s : Scanner) :
    (s.closeBlocks column).outer = s.outer := by
  unfold closeBlocks
  split <;> rfl

theorem closedBy_none (indents : List ℕ) : closedBy none indents = indents.length := by
  induction indents with
  | nil => rfl
  | cons i indents ih => exact congrArg (· + 1) ih

theorem closeBlocks_none_tokens (s : Scanner) :
    (s.closeBlocks none).tokens =
      (if s.inFlow then [] else List.replicate s.indents.length .blockEnd) ++ s.tokens := by
  unfold closeBlocks
  split
  case isTrue => rfl
  case isFalse => exact congrArg (List.replicate · _ ++ _) (closedBy_none s.indents)

/-- Closing the blocks right of a column first makes no difference. -/
theorem closeBlocks_twice (column : ℕ) (s : Scanner) (p : Position) :
    ({ s.closeBlocks (some column) with pos := p } : Scanner).closeBlocks none =
      ({ s with pos := p } : Scanner).closeBlocks none := by
  by_cases hflow : s.inFlow = true
  · rw [closeBlocks_of_inFlow _ hflow]
  · have hblock : s.inFlow = false := by simpa using hflow
    have hle := closedBy_le (some column) s.indents
    rw [closeBlocks_of_block _ hblock, closeBlocks_of_block _ (by exact hblock),
      closeBlocks_of_block _ (by exact hblock)]
    simp only [closedBy_none, List.length_drop, List.drop_drop, ← List.append_assoc,
      List.replicate_append_replicate, Nat.add_assoc, Nat.add_sub_cancel' hle,
      Nat.sub_add_cancel hle]

/-- At the end of the text everything is closed. -/
theorem next_at_end (h : s.next = .ok u) (hrest : s.toNextToken.rest = []) :
    s.candidate.any (·.required) = false ∧ u.finished = true ∧
      u.tokens = .streamEnd :: ((if s.inFlow then [] else
        List.replicate s.indents.length .blockEnd) ++ s.tokens) := by
  obtain ⟨s₁, hs₁, h⟩ := bind_eq_ok_iff.1 h
  have hgrows := grows_of_dropLapsed hs₁ (c := 0) (.inr (Nat.zero_le _))
  have hnil : (s₁.closeBlocks (some s₁.pos.column)).rest = [] := hgrows.rest.trans hrest
  rw [readToken, hnil] at h
  obtain ⟨s₂, hs₂, h⟩ := bind_eq_ok_iff.1 h
  obtain rfl := Except.ok.inj h
  rw [closeBlocks_twice] at hs₂
  obtain ⟨hrequired, rfl⟩ := dropCandidate_eq_ok hs₂
  rw [closeBlocks_candidate] at hrequired
  obtain ⟨⟨hlost, -⟩, hs₁⟩ := dropLapsed_eq_ok hs₁
  have hflow : s₁.inFlow = s.inFlow := by simp [hs₁, inFlow, toNextToken]
  have hcandidate : s₁.candidate = kept s.toNextToken.pos s.candidate := by rw [hs₁]; rfl
  refine ⟨(any_kept hlost).symm.trans (hcandidate ▸ hrequired), rfl, ?_⟩
  refine congrArg (Token.streamEnd :: ·) ((closeBlocks_none_tokens _).trans ?_)
  show (if s₁.inFlow = true then [] else List.replicate s₁.indents.length .blockEnd) ++ s₁.tokens = _
  rw [hflow, hs₁]
  rfl

theorem onto_next {tokens : List Token} (hcount : s.Counted) :
    (s.within (.onto tokens)).next = s.next.map (within (.onto tokens)) := by
  have hspace : (s.within (.onto tokens)).toNextToken = s.toNextToken.within (.onto tokens) := by
    unfold toNextToken
    rw [within_inFlow]
    simp only [within_onto]
  rw [next, hspace, within_dropLapsed]
  refine bind_within fun s₁ hs₁ => ?_
  have hgrows := grows_of_dropLapsed hs₁ (c := 0) (.inr (Nat.zero_le _))
  rw [within_closeBlocks]
  exact onto_readToken (hgrows.counted hcount)

/-! ## A run -/

variable {n m : ℕ}

theorem run_succ (n : ℕ) (h : s.finished = false) : run (n + 1) s = s.next >>= run n := by
  rw [run, h]
  rfl

theorem run_of_finished (n : ℕ) (h : s.finished = true) : run (n + 1) s = .ok s := by
  rw [run, h]
  rfl

theorem within_run_of_finished (x : Setting) (n : ℕ) (h : s.finished = true) :
    run n (s.within x) = (run n s).map (within x) := by
  cases n with
  | zero => rfl
  | succ n => rw [run_of_finished n h, run_of_finished n (by exact h), map_ok]

/-- Once a run has come to its end, more steps make no difference. -/
theorem run_mono (h : run n s = .ok w) (hle : n ≤ m) : run m s = .ok w := by
  induction n generalizing s m with
  | zero => exact absurd h nofun
  | succ n ih =>
    obtain ⟨m, rfl⟩ := Nat.exists_eq_add_of_le' (Nat.le_trans (Nat.le_add_left 1 n) hle)
    by_cases hs : s.finished = true
    · rw [run_of_finished n hs] at h
      rwa [run_of_finished m hs]
    · have hs' : s.finished = false := by simpa using hs
      rw [run_succ n hs'] at h
      obtain ⟨u, hu, h⟩ := bind_eq_ok_iff.1 h
      rw [run_succ m hs', hu]
      exact ih h (Nat.le_of_succ_le_succ hle)

theorem next_cases (h : s.next = .ok u) :
    s.toNextToken.rest = [] ∧ u.finished = true ∨ s.toNextToken.rest ≠ [] ∧ s.Performs 0 u := by
  by_cases hrest : s.toNextToken.rest = []
  · exact .inl ⟨hrest, (next_at_end h hrest).2.1⟩
  · exact .inr ⟨hrest, performs_of_next h hrest (.inr (Nat.zero_le _))⟩

/-- Tokens stay. -/
theorem subset_of_run (h : run n s = .ok w) : s.tokens ⊆ w.tokens := by
  induction n generalizing s with
  | zero => exact absurd h nofun
  | succ n ih =>
    by_cases hs : s.finished = true
    · rw [run_of_finished n hs] at h
      exact Except.ok.inj h ▸ fun _ h => h
    · rw [run_succ n (by simpa using hs)] at h
      obtain ⟨u, hu, h⟩ := bind_eq_ok_iff.1 h
      refine List.Subset.trans ?_ (ih h)
      by_cases hrest : s.toNextToken.rest = []
      · rw [(next_at_end hu hrest).2.2]
        exact fun a ha => List.mem_cons_of_mem _ (List.mem_append_right _ ha)
      · exact (performs_of_next hu hrest (c := 0) (.inr (Nat.zero_le _))).subset

/-- In a run that ends without a document mark every step puts a token. -/
theorem Performs.exists_puts (hperforms : s.Performs c u) (hrun : run n u = .ok w)
    (hmarks : ∀ t ∈ w.tokens, t.isMark = false) : ∃ t, t.isEnd = false ∧ s.Puts c t u := by
  refine hperforms.cases.resolve_left ?_
  rintro ⟨t, ht, hmark⟩
  exact absurd (hmarks t (subset_of_run hrun ht)) (by simp [hmark])

/-- What has been put behind some tokens stays behind them. -/
theorem Behind.of_run (hs : s.Behind later earlier) (h : run n s = .ok w)
    (hmarks : ∀ t ∈ w.tokens, t.isMark = false) :
    ∃ between, w.tokens = between ++ earlier ∧ later ⊆ between := by
  induction n generalizing s later with
  | zero => exact absurd h nofun
  | succ n ih =>
    by_cases hfinished : s.finished = true
    · rw [run_of_finished n hfinished] at h
      exact Except.ok.inj h ▸ hs.tokens
    · rw [run_succ n (by simpa using hfinished)] at h
      obtain ⟨u, hu, h⟩ := bind_eq_ok_iff.1 h
      by_cases hrest : s.toNextToken.rest = []
      · obtain ⟨-, hend, htokens⟩ := next_at_end hu hrest
        obtain ⟨n, rfl⟩ : ∃ m, n = m + 1 := by
          cases n with
          | zero => exact absurd h nofun
          | succ m => exact ⟨m, rfl⟩
        rw [run_of_finished n hend] at h
        obtain rfl := Except.ok.inj h
        obtain ⟨between, hbetween, hlater⟩ := hs.tokens
        refine ⟨.streamEnd :: ((if s.inFlow then [] else
          List.replicate s.indents.length .blockEnd) ++ between), ?_, fun a ha => ?_⟩
        · rw [htokens, hbetween, List.cons_append, List.append_assoc]
        · exact List.mem_cons_of_mem _ (List.mem_append_right _ (hlater ha))
      · have hperforms := performs_of_next hu hrest (c := 0) (.inr (Nat.zero_le _))
        obtain ⟨t, -, hputs⟩ := hperforms.exists_puts h hmarks
        obtain ⟨between, hbetween, hlater⟩ := ih (hputs.behind hs) h
        exact ⟨between, hbetween, fun a ha => hlater (List.mem_cons_of_mem t ha)⟩

/-- More tokens before make no difference to a run. -/
theorem onto_run {tokens : List Token} (hcount : s.Counted) (n : ℕ) :
    run n (s.within (.onto tokens)) = (run n s).map (within (.onto tokens)) := by
  induction n generalizing s with
  | zero => rfl
  | succ n ih =>
    by_cases hs : s.finished = true
    · exact within_run_of_finished _ (n + 1) hs
    · have hs' : s.finished = false := by simpa using hs
      rw [run_succ n hs', run_succ n (by exact hs'), onto_next hcount]
      refine bind_within fun u hu => ?_
      rcases next_cases hu with ⟨-, hfinished⟩ | ⟨-, hperforms⟩
      · exact within_run_of_finished _ n hfinished
      · exact ih (hperforms.counted hcount)

/-- A document goes on in the same way further down in a stream. -/
theorem within_run (hafter : x.after = []) (hcount : s.Counted) (h : run n s = .ok w)
    (hmarks : ∀ t ∈ w.tokens, t.isMark = false) : run n (s.within x) = .ok (w.within x) := by
  induction n generalizing s with
  | zero => exact absurd h nofun
  | succ n ih =>
    by_cases hs : s.finished = true
    · rw [within_run_of_finished x (n + 1) hs, h, map_ok]
    · have hs' : s.finished = false := by simpa using hs
      rw [run_succ n hs'] at h
      obtain ⟨u, hu, h⟩ := bind_eq_ok_iff.1 h
      have hu' := (within_next (c := 0) hcount (.inl (.inl hafter)) (fun _ => hafter) hu
        (fun t ht => hmarks t (subset_of_run h ht)) (fun _ => .inl hafter)).1
      rw [run_succ n (by exact hs'), hu', onward_of_nil hafter, ok_bind]
      rcases next_cases hu with ⟨-, hfinished⟩ | ⟨-, hperforms⟩
      · rw [within_run_of_finished x n hfinished, h, map_ok]
      · exact ih (hperforms.counted hcount) h

/-! ## Up to the end of a text -/

/-- The tokens of a document that is a block sequence, the last one first. Nothing follows when as
many blocks have ended as have started. -/
structure Whole (tokens : List Token) : Prop where
  unmarked : ∀ t ∈ tokens, t.isMark = false
  last : ∀ t before, tokens = .streamEnd :: t :: before → t.isEnd = true
  closed : ∀ later earlier, tokens = later ++ earlier → earlier ≠ [] →
    earlier.countP Token.isStart = earlier.count .blockEnd → ∀ t ∈ later, t.isEnd = true

/-- Inside a block sequence in the column `c`, below which more follows. -/
structure Inside (c : ℕ) (after : List Char) (s : Scanner) : Prop where
  unfinished : s.finished = false
  counted : s.Counted
  level : s.Level
  rooted : s.Rooted c
  held : s.Held c
  waits : s.Waits after
  last : ∃ t before, s.tokens = t :: before ∧ t.isEnd = false

/-- At the end of a text with blocks to be closed. -/
structure Ends (c : ℕ) (s : Scanner) (after : List Char) (w : Scanner) : Prop where
  inside : s.Inside c after
  rest : s.toNextToken.rest = []
  inFlow : s.inFlow = false
  next : s.next = .ok w

/-- If the last thing before the end of the stream is the end of a block, no bracket is open. -/
theorem inFlow_of_next {before : List Token} (htokens : s.tokens = t :: before)
    (ht : t.isEnd = false) (hrest : s.toNextToken.rest = []) (h : s.next = .ok w)
    (hlast : ∀ t before, w.tokens = .streamEnd :: t :: before → t.isEnd = true) :
    s.inFlow = false := by
  obtain ⟨-, -, hw⟩ := next_at_end h hrest
  refine Bool.eq_false_iff.2 fun hflow => ?_
  rw [if_pos hflow, htokens] at hw
  exact absurd (hlast t before hw) (by simp [ht])

theorem toNextToken_rest_of_nil (h : s.rest = []) : s.toNextToken.rest = [] := by
  rw [toNextToken, h]
  rfl

/-- A run that comes to its end at once is one step. -/
theorem next_of_run_at_end (hs : s.finished = false) (hrest : s.toNextToken.rest = [])
    (h : run n s = .ok w) : s.next = .ok w ∧ 2 ≤ n := by
  match n, h with
  | n + 1, h =>
    rw [run_succ n hs] at h
    obtain ⟨u, hu, h⟩ := bind_eq_ok_iff.1 h
    match n, h with
    | n + 1, h =>
      rw [run_of_finished n (next_at_end hu hrest).2.1] at h
      exact ⟨Except.ok.inj h ▸ hu, by omega⟩

/-- No key could start in front of a line that starts left of the sequence. -/
theorem Held.candidate_eq_none (hs : s.Held c) (hflow : s.inFlow = false)
    (hcolumn : s.toNextToken.pos.column < c) (h : s.toNextToken.dropLapsed = .ok mid) :
    mid.candidate = none ∧ mid.outer = [] := by
  have houter : s.outer = [] := by simpa [inFlow] using hflow
  have hplace : s.pos.place ≤ s.toNextToken.pos.place := le_skipSpace _ _ _ _ _
  obtain ⟨-, rfl⟩ := dropLapsed_eq_ok h
  refine ⟨Option.eq_none_iff_forall_not_mem.2 fun k hk => ?_, congrArg (List.map _) houter⟩
  obtain ⟨hk, hkept⟩ := Option.filter_eq_some_iff.1 hk
  have hheld := (hs k (by rw [houter]; exact congrArg some hk)).trans hplace
  rcases Prod.Lex.toLex_le_toLex.1 hheld with hline | ⟨-, hle⟩
  · have hlapsed : KeyCandidate.lapsed s.toNextToken.pos k = true := by
      simp [KeyCandidate.lapsed, hline]
    simp [hlapsed] at hkept
  · exact absurd hle (Nat.not_le_of_lt hcolumn)

theorem closeBlocks_of_lt (hflow : s.inFlow = false) (hs : s.Rooted c) {column : ℕ}
    (hcolumn : column < c) : (s.closeBlocks (some column)).indents = [] := by
  obtain ⟨inner, hinner, hlt⟩ := hs
  rw [closeBlocks_of_block _ hflow]
  show s.indents.drop _ = []
  rw [drop_closedBy, List.dropWhile_eq_nil_iff, hinner]
  intro i hi
  rcases List.mem_append.1 hi with hi | hi
  · simpa using hcolumn.trans (hlt i hi)
  · simpa [List.mem_singleton.1 hi] using hcolumn

/-- When as many blocks have ended as have started, nothing is left to be read. -/
theorem rest_eq_nil_of_level (hs : s.Behind [] s.tokens) (hne : s.tokens ≠ [])
    (hlevel : s.tokens.countP Token.isStart = s.tokens.count .blockEnd) (h : s.readToken = .ok u)
    (hrun : run n u = .ok w) (hw : Whole w.tokens) : s.rest = [] := by
  by_contra hrest
  obtain ⟨d, r, hd⟩ := List.exists_cons_of_ne_nil hrest
  obtain ⟨a, -, ha⟩ := exists_of_readToken hd h
  have hperforms := performs_of_perform (c := 0) (.inr (Nat.zero_le _)) ha
  obtain ⟨t, ht, hputs⟩ := hperforms.exists_puts hrun hw.unmarked
  obtain ⟨between, hbetween, hlater⟩ := (hputs.behind hs).of_run hrun hw.unmarked
  have hend := hw.closed between s.tokens hbetween hne hlevel t (hlater List.mem_cons_self)
  exact absurd hend (by simp [ht])

/-- Up to the end of the text the sequence stays open. -/
theorem Inside.right {after : List Char} (hs : s.Inside c after)
    (hrest : s.toNextToken.rest ≠ []) (h : s.next = .ok u) (hrun : run n u = .ok w)
    (hw : Whole w.tokens) : s.inFlow = true ∨ c ≤ s.toNextToken.pos.column := by
  by_contra hnot
  rw [not_or, Bool.not_eq_true, not_le] at hnot
  obtain ⟨hflow, hcolumn⟩ := hnot
  obtain ⟨s₁, hs₁, h⟩ := bind_eq_ok_iff.1 h
  have hgrows := grows_of_dropLapsed hs₁ (c := 0) (.inr (Nat.zero_le _))
  obtain ⟨hcandidate, houter⟩ := hs.held.candidate_eq_none hflow hcolumn hs₁
  obtain ⟨-, hs₁⟩ := dropLapsed_eq_ok hs₁
  have hclosed : (s₁.closeBlocks (some s₁.pos.column)).indents = [] := by
    refine closeBlocks_of_lt (c := c) ?_ ?_ ?_
    · rw [inFlow, houter]
      rfl
    · rw [hs₁]
      exact hs.rooted
    · rw [hs₁]
      exact hcolumn
  generalize hmid : s₁.closeBlocks (some s₁.pos.column) = mid at hgrows hclosed h
  have hbehind : mid.Behind [] mid.tokens := by
    refine ⟨hgrows.counted hs.counted, ⟨[], rfl, List.nil_subset _⟩, fun k hk => ?_⟩
    rw [← hmid, closeBlocks_candidate, closeBlocks_outer, hcandidate, houter] at hk
    simp at hk
  have hlevel : mid.tokens.countP Token.isStart = mid.tokens.count .blockEnd := by
    have hlevel : mid.tokens.countP Token.isStart = _ := hgrows.level hs.level
    rwa [hclosed] at hlevel
  obtain ⟨t, before, htokens, -⟩ := hs.last
  have hne : mid.tokens ≠ [] := List.ne_nil_of_mem (hgrows.subset (htokens ▸ List.mem_cons_self))
  exact hrest (hgrows.rest.symm.trans (rest_eq_nil_of_level hbehind hne hlevel h hrun hw))

theorem run_onward (x : Setting) (hs : s.finished = false) (n : ℕ) :
    run n (s.onward x) = run n (s.within x) := by
  cases n with
  | zero => rfl
  | succ n =>
    have hfinished : (s.onward x).finished = false := by
      unfold onward
      split <;> exact hs
    rw [run_succ n hfinished, run_succ n (by exact hs), next, next, toNextToken_onward]

/-- A run on a text is part of a run where more follows. -/
theorem exists_ends (hs : s.Inside c x.after) (hlead : lead x.after ≤ c) (h : run n s = .ok w)
    (hw : Whole w.tokens) : ∃ (e : Scanner) (k : ℕ), Ends c e x.after w ∧ k + 2 ≤ n ∧
      ∀ m, run (k + m) (s.within x) = run m (e.within x) := by
  induction n generalizing s with
  | zero => exact absurd h nofun
  | succ n ih =>
    by_cases hrest : s.toNextToken.rest = []
    · obtain ⟨hnext, hn⟩ := next_of_run_at_end hs.unfinished hrest h
      obtain ⟨t, before, htokens, ht⟩ := hs.last
      exact ⟨s, 0, ⟨hs, hrest, inFlow_of_next htokens ht hrest hnext hw.last, hnext⟩, hn,
        fun m => by rw [Nat.zero_add]⟩
    · rw [run_succ n hs.unfinished] at h
      obtain ⟨u, hu, h⟩ := bind_eq_ok_iff.1 h
      have hright := hs.right hrest hu h hw
      have hperforms := performs_of_next hu hrest hright
      have hmarks : ∀ t ∈ u.tokens, t.isMark = false := fun t ht =>
        hw.unmarked t (subset_of_run h ht)
      have hunfinished : u.finished = false := hperforms.finished.trans hs.unfinished
      obtain ⟨t, ht, hputs⟩ := hperforms.exists_puts h hw.unmarked
      obtain ⟨before, htokens, -⟩ := hputs.tokens
      have hopen : u.rest = [] → u.inFlow = false := fun hnil =>
        have hnil := toNextToken_rest_of_nil hnil
        inFlow_of_next htokens ht hnil (next_of_run_at_end hunfinished hnil h).1 hw.last
      obtain ⟨hu', hwaits⟩ := within_next hs.counted hs.waits (fun hnil => absurd hnil hrest) hu
        hmarks fun hnil => .inr ⟨hopen hnil, hs.rooted, hlead, hright⟩
      obtain ⟨e, k, he, hk, hrun⟩ := ih ⟨hunfinished, hputs.counted hs.counted,
        hputs.level hs.level, hputs.rooted hs.rooted, hputs.held hs.held, hwaits, t, before,
        htokens, ht⟩ h
      refine ⟨e, k + 1, he, by omega, fun m => ?_⟩
      rw [Nat.add_right_comm, run_succ _ (by exact hs.unfinished), hu', ok_bind,
        run_onward x hunfinished, hrun]

/-! ## The next entry -/

variable {r : List Char}

theorem at?_entry (hr : atSpace r = true) (inFlow : Bool) (column : ℕ) :
    Action.at? inFlow column '-' r = some .entry := by
  have hmark : atDocumentMark ('-' :: r) = false := by
    refine Bool.eq_false_iff.2 fun h => ?_
    obtain ⟨c, r', -, heq, -⟩ := atDocumentMark_iff.1 h
    obtain ⟨rfl, rfl⟩ := List.cons.inj heq
    exact absurd hr (by simp [atSpace, isBlank, isBreak])
  simp [Action.at?, hmark, hr]

/-- Where the next thing is an entry in the column `c`, outside brackets. -/
structure AtEntry (c : ℕ) (r : List Char) (s : Scanner) : Prop where
  outer : s.outer = []
  candidate : s.candidate.any (·.required) = false
  rest : s.toNextToken.rest = '-' :: r
  space : atSpace r = true
  column : s.toNextToken.pos.column = c
  keyAllowed : s.toNextToken.keyAllowed = true

/-- The same blocks, elsewhere in the text. -/
def moved (rest : List Char) (pos : Position) (candidate : Option KeyCandidate) (keyAllowed : Bool)
    (s : Scanner) : Scanner :=
  { s with rest, pos, candidate, keyAllowed }

variable {rest : List Char} {pos : Position} {candidate : Option KeyCandidate} {keyAllowed : Bool}

theorem moved_closeBlocks (column : Option ℕ) (s : Scanner) :
    (s.moved rest pos candidate keyAllowed).closeBlocks column =
      (s.closeBlocks column).moved rest pos candidate keyAllowed := by
  cases h : s.inFlow with
  | true => rw [closeBlocks_of_inFlow column h, closeBlocks_of_inFlow column (by exact h)]
  | false => rw [closeBlocks_of_block column h, closeBlocks_of_block column (by exact h)]; rfl

theorem moved_openBlock (column before : ℕ) (start : Token) (s : Scanner) :
    (s.moved rest pos candidate keyAllowed).openBlock column before start =
      (s.openBlock column before start).moved rest pos candidate keyAllowed := by
  unfold openBlock
  show (if s.inFlow ∨ s.indents.head?.any (column ≤ ·) then _ else _) = _
  split <;> rfl

theorem blockEntry_eq (hflow : s.inFlow = false) (hp : pos.column = c)
    (hcandidate : candidate.any (·.required) = false) :
    (s.moved ('-' :: r) pos candidate true).blockEntry =
      .ok (((s.openBlock c s.count .blockSequenceStart).emit .blockEntry).moved r pos.next none
        true) := by
  have hopen : (s.moved ('-' :: r) pos candidate true).openAtIndicator .blockSequenceStart =
      .ok ((s.openBlock c s.count .blockSequenceStart).moved ('-' :: r) pos candidate true) := by
    have hkey : (s.moved ('-' :: r) pos candidate true).keyAllowed = true := rfl
    rw [openAtIndicator, if_neg (by simpa [moved, inFlow] using hflow), if_pos hkey,
      ← moved_openBlock]
    show Except.ok (Scanner.openBlock pos.column s.count _ _) = _
    rw [hp]
  have hdrop : ((s.openBlock c s.count .blockSequenceStart).moved ('-' :: r) pos candidate
      true).dropCandidate =
        .ok ((s.openBlock c s.count .blockSequenceStart).moved ('-' :: r) pos none true) :=
    if_neg (by simpa [moved] using hcandidate)
  rw [blockEntry, hopen, ok_bind, hdrop]
  rfl

/-- The blocks right of the entry are closed, and one is opened there unless there is one. -/
theorem next_entry (h : s.AtEntry c r) :
    s.next = .ok ((((s.closeBlocks (some c)).openBlock c (s.closeBlocks (some c)).count
      .blockSequenceStart).emit .blockEntry).moved r s.toNextToken.pos.next none true) := by
  have hlost : lost s.toNextToken.pos s.candidate = false := by
    have hrequired := h.candidate
    cases hk : s.candidate with
    | none => rfl
    | some k =>
      rw [hk] at hrequired
      show (_ && k.required) = false
      rw [show k.required = false from hrequired, Bool.and_false]
  have hdrop : s.toNextToken.dropLapsed = .ok (s.moved ('-' :: r) s.toNextToken.pos
      (kept s.toNextToken.pos s.candidate) true) := by
    have houter : s.toNextToken.outer = [] := h.outer
    have hcandidate : s.toNextToken.candidate = s.candidate := rfl
    rw [dropLapsed_eq, hcandidate, hlost, houter, if_neg (by simp)]
    refine congrArg Except.ok ?_
    rw [moved, ← h.rest, ← h.keyAllowed, List.map_nil, ← h.outer]
    rfl
  have hinFlow : (s.closeBlocks (some c)).inFlow = false := by
    have hs : s.inFlow = false := by rw [inFlow, h.outer]; rfl
    rw [closeBlocks_of_block _ hs]
    exact hs
  rw [next, hdrop, ok_bind, moved_closeBlocks]
  show ((s.closeBlocks (some s.toNextToken.pos.column)).moved _ _ _ _).readToken = _
  rw [h.column, readToken_eq rfl]
  show (Option.map _
    (Action.at? (s.closeBlocks (some c)).inFlow s.toNextToken.pos.column '-' r)).getD _ = _
  rw [at?_entry h.space]
  exact blockEntry_eq hinFlow h.column ((any_kept hlost).trans h.candidate)

/-! ## One text below another -/

/-- After the first entry of a list in the column `c`, without the start of its sequence. -/
def entered (c : ℕ) (r : List Char) (p : Position) : Scanner :=
  { rest := r, pos := p, tokens := [.blockEntry], count := 1, indents := [c] }

theorem entered_within (c : ℕ) (r : List Char) (p : Position) (tokens : List Token) (i l : ℕ) :
    (entered c r p).within ⟨tokens, i, l, []⟩ =
      { rest := r, pos := p.further i l, tokens := .blockEntry :: tokens,
        count := 1 + tokens.length, indents := [c] } := by
  simp [entered, within]

/-- The start of a stream. -/
structure Fresh (s : Scanner) : Prop where
  unfinished : s.finished = false
  tokens : s.tokens = []
  count : s.count = 0
  indents : s.indents = []
  candidate : s.candidate = none
  outer : s.outer = []

theorem Fresh.next_entry (hs : s.Fresh) (h : s.AtEntry c r) :
    s.next = .ok ((entered c r s.toNextToken.pos.next).within (.onto [.blockSequenceStart])) := by
  rw [Scanner.next_entry h, Setting.onto, entered_within]
  obtain ⟨rest, pos, tokens, count, indents, candidate, outer, keyAllowed, finished⟩ := s
  obtain ⟨rfl, rfl, rfl, rfl, rfl, rfl⟩ := hs
  rfl

theorem closedBy_root {inner : List ℕ} (h : ∀ i ∈ inner, c < i) :
    closedBy (some c) (inner ++ [c]) = inner.length := by
  rw [closedBy, List.takeWhile_append_of_pos (by simpa using h)]
  simp

theorem openBlock_root (column before : ℕ) (start : Token) (h : s.indents = [column]) :
    s.openBlock column before start = s :=
  if_pos (.inr (by simp [h]))

/-- The next entry of the list closes what the end of the text would have closed, except for the
sequence it stands in. -/
theorem Ends.next_entry {i l : ℕ} {p : Position} (he : Ends c s x.after w) (hx : x.tokens = [])
    (h : (s.within x).AtEntry c r) (hp : (s.within x).toNextToken.pos.next = p.further i l) :
    ∃ tokens, w.tokens = .streamEnd :: .blockEnd :: tokens ∧
      (s.within x).next = .ok ((entered c r p).within ⟨tokens, i, l, []⟩) := by
  obtain ⟨inner, hinner, hpos⟩ := he.inside.rooted
  obtain ⟨-, -, hw⟩ := next_at_end he.next he.rest
  rw [he.inFlow, hinner] at hw
  refine ⟨List.replicate inner.length .blockEnd ++ s.tokens, ?_, ?_⟩
  · simpa [List.replicate_succ] using hw
  · rw [Scanner.next_entry h, entered_within,
      closeBlocks_of_block _ ((within_inFlow x s).trans he.inFlow)]
    have hindents : (s.within x).indents = inner ++ [c] := hinner
    have hcount : s.count + 0 + inner.length + 1 =
        1 + (List.replicate inner.length Token.blockEnd ++ s.tokens).length := by
      rw [he.inside.counted, List.length_append, List.length_replicate]
      omega
    rw [hindents, closedBy_root hpos, List.drop_left, openBlock_root c _ _ rfl, hp, ← hcount]
    have houter : s.outer.map (·.map (KeyCandidate.within x)) = [] := h.outer
    simp only [moved, emit, within, hx, houter, he.inside.unfinished, List.append_nil,
      List.length_nil]

/-- At the end of a text, what is read next is what is read first in the text that follows. -/
theorem Ends.atEntry {after : List Char} (he : Ends c s after w) (hafter : after ≠ [])
    (h : ({ rest := after } : Scanner).AtEntry c r) :
    (s.within ⟨[], 0, 0, after⟩).AtEntry c r ∧ ∃ i l,
      (s.within ⟨[], 0, 0, after⟩).toNextToken.pos =
        ({ rest := after } : Scanner).toNextToken.pos.further i l := by
  have hrest := he.rest
  rw [toNextToken, he.inFlow] at hrest
  have hnil : s.rest = [] → s.keyAllowed = true ∧ false = false := fun hnil => by
    rcases he.inside.waits with hb | ⟨-, -, -, hkey⟩
    · exact absurd (hnil ▸ hb).eq_nil hafter
    · exact ⟨hkey, rfl⟩
  obtain ⟨hthrough, hcolumn⟩ := skipSpace_through hrest he.inside.waits.ahead hafter hnil
  generalize (skipSpace false s.keyAllowed false s.rest s.pos).2.2 = q at hthrough hcolumn
  have hq : q = ({} : Position).further q.index q.line := by
    obtain ⟨index, line, column⟩ := q
    obtain rfl : column = 0 := hcolumn
    simp [Position.further]
  have hfurther : skipSpace false true false (after ++ [])
      (({} : Position).further q.index q.line) = _ :=
    (skipSpace_further (.inl (.inl rfl)) fun _ => rfl).1
  rw [List.append_nil, List.append_nil, ← hq] at hfurther
  have hspace := toNextToken_of_skipSpace (s := s.within ⟨[], 0, 0, after⟩)
    ((congrArg (skipSpace · _ _ _ _) ((within_inFlow _ s).trans he.inFlow)).trans
      (hthrough.trans hfurther))
  obtain ⟨hcandidate, -⟩ := next_at_end he.next he.rest
  refine ⟨⟨?_, ?_, ?_, h.space, ?_, ?_⟩, q.index, q.line, by rw [hspace]; rfl⟩
  · have houter : s.outer = [] := by simpa [Scanner.inFlow] using he.inFlow
    rw [within, houter]
    rfl
  · exact (within_candidate _ s).trans hcandidate
  · rw [hspace]
    exact h.rest
  · rw [hspace]
    exact h.column
  · rw [hspace]
    exact h.keyAllowed

end Scanner
end Yaml
end LayeredConfig
