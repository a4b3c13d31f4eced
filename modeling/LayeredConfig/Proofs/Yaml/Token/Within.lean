/-
A scanner at work on part of a stream.

`within` shows a scanner from the whole stream: more tokens stand before its own, what it reads
stands further down, and more text may follow. All that a scanner does commutes with it, as long as
the text that follows starts a line with an entry or a comment. If nothing follows, any scanner
goes on in the same way behind more tokens (`onto_readToken`).
-/
import LayeredConfig.Proofs.Yaml.Token.Further
import LayeredConfig.Proofs.Yaml.Token.Action

namespace LayeredConfig
namespace Yaml

/-- Where a part of a stream stands: the tokens before its own, the last one first, how far down it
starts, and the text after it. -/
structure Setting where
  tokens : List Token
  index : ℕ
  line : ℕ
  after : List Char

/-- More tokens before, and nothing else. -/
def Setting.onto (tokens : List Token) : Setting := ⟨tokens, 0, 0, []⟩

/-- The candidate as seen from the whole stream. -/
def KeyCandidate.within (x : Setting) (k : KeyCandidate) : KeyCandidate :=
  ⟨k.before + x.tokens.length, k.pos.further x.index x.line, k.required⟩

namespace Scanner

/-- The scanner as seen from the whole stream. -/
def within (x : Setting) (s : Scanner) : Scanner :=
  { s with
    rest := s.rest ++ x.after
    pos := s.pos.further x.index x.line
    tokens := s.tokens ++ x.tokens
    count := s.count + x.tokens.length
    candidate := s.candidate.map (.within x)
    outer := s.outer.map (·.map (.within x)) }

variable {x : Setting} {s u : Scanner} {t : Token} {column before : ℕ}

@[simp]
theorem within_inFlow (x : Setting) (s : Scanner) : (s.within x).inFlow = s.inFlow := by
  simp [within, inFlow]

theorem within_emit (x : Setting) (s : Scanner) (t : Token) :
    (s.within x).emit t = (s.emit t).within x := by
  simp [within, emit, Nat.add_right_comm]

theorem within_emitAt (x : Setting) (hs : s.Counted) (before : ℕ) (t : Token) :
    (s.within x).emitAt (before + x.tokens.length) t = (s.emitAt before t).within x := by
  have hle : s.count - before ≤ s.tokens.length := hs ▸ Nat.sub_le s.count before
  simp only [emitAt, within, Nat.add_sub_add_right, Nat.add_right_comm,
    List.take_append_of_le_length hle, List.drop_append_of_le_length hle, List.append_assoc,
    List.cons_append]

theorem within_openBlock (x : Setting) (hs : s.Counted) (column before : ℕ) (start : Token) :
    (s.within x).openBlock column (before + x.tokens.length) start =
      (s.openBlock column before start).within x := by
  have hs' : Counted { s with indents := column :: s.indents } := hs
  unfold openBlock
  rw [within_inFlow, apply_ite (within x), ← within_emitAt x hs']
  rfl

theorem within_closeBlocks (x : Setting) (column : Option ℕ) (s : Scanner) :
    (s.within x).closeBlocks column = (s.closeBlocks column).within x := by
  unfold closeBlocks
  rw [within_inFlow, apply_ite (within x)]
  simp [within, Nat.add_right_comm]

theorem within_candidate (x : Setting) (s : Scanner) :
    (s.within x).candidate.any (·.required) = s.candidate.any (·.required) := by
  cases hk : s.candidate <;> simp [within, hk, KeyCandidate.within]

theorem within_dropCandidate (x : Setting) (s : Scanner) :
    (s.within x).dropCandidate = s.dropCandidate.map (within x) := by
  unfold dropCandidate
  rw [within_candidate]
  split <;> rfl

theorem within_markCandidate (x : Setting) (s : Scanner) :
    (s.within x).markCandidate = s.markCandidate.map (within x) := by
  unfold markCandidate
  have hkey : (s.within x).keyAllowed = s.keyAllowed := rfl
  rw [hkey]
  by_cases hk : s.keyAllowed = true
  · simp only [hk, not_true_eq_false, if_false, within_dropCandidate]
    cases hd : s.dropCandidate with
    | error e => rfl
    | ok d =>
      simp [within, pure, Except.pure, KeyCandidate.within, inFlow]
  · simp [hk, pure, Except.pure]

theorem lapsed_within (x : Setting) (p : Position) (k : KeyCandidate) :
    KeyCandidate.lapsed (p.further x.index x.line) (k.within x) = KeyCandidate.lapsed p k := by
  simp only [KeyCandidate.lapsed, KeyCandidate.within, Position.further,
    Nat.add_right_comm k.pos.index x.index 1024, Nat.add_lt_add_iff_right]

theorem lost_within (x : Setting) (p : Position) (k : Option KeyCandidate) :
    lost (p.further x.index x.line) (k.map (.within x)) = lost p k := by
  cases k with
  | none => rfl
  | some k =>
    show (_ && k.required) = (_ && k.required)
    rw [lapsed_within]

theorem kept_within (x : Setting) (p : Position) (k : Option KeyCandidate) :
    kept (p.further x.index x.line) (k.map (.within x)) = (kept p k).map (.within x) := by
  simp only [kept, Option.filter_map]
  exact congrArg _ (congrArg (Option.filter · k) (funext fun k => by
    rw [Function.comp_apply, lapsed_within]))

theorem within_dropLapsed (x : Setting) (s : Scanner) :
    (s.within x).dropLapsed = s.dropLapsed.map (within x) := by
  have houter : (s.within x).outer.any (lost (s.within x).pos) = s.outer.any (lost s.pos) := by
    simp only [within, List.any_map]
    exact congrArg s.outer.any (funext fun k => lost_within x s.pos k)
  have hkept : (s.within x).outer.map (kept (s.within x).pos) =
      (s.outer.map (kept s.pos)).map (·.map (.within x)) := by
    simp only [within, List.map_map]
    exact congrArg s.outer.map (funext fun k => kept_within x s.pos k)
  rw [dropLapsed_eq, dropLapsed_eq, apply_ite (Except.map (within x)), houter, hkept]
  simp only [within, lost_within, kept_within]
  rfl

theorem within_skip (x : Setting) {n : ℕ} (hn : n ≤ s.rest.length ∨ x.after = []) :
    (s.within x).skip n = (s.skip n).within x := by
  have hdrop : (s.rest ++ x.after).drop n = s.rest.drop n ++ x.after := by
    rcases hn with hn | hn
    · exact List.drop_append_of_le_length hn
    · rw [hn, List.append_nil, List.append_nil]
  simp [skip, within, hdrop]

/-- The same at the end of a line: if nothing is left, the blanks at the front of what follows have
been passed. -/
def onward (x : Setting) (s : Scanner) : Scanner :=
  if s.rest = [] then (s.within x).skip (lead x.after) else s.within x

theorem onward_of_nil (hafter : x.after = []) (s : Scanner) : s.onward x = s.within x := by
  rw [onward, hafter]
  split <;> rfl

theorem onward_of_before (h : Before s.rest x.after) : s.onward x = s.within x := by
  rw [onward]
  split
  case isTrue hnil =>
    have hafter : x.after = [] := (hnil ▸ h).eq_nil
    rw [hafter]
    rfl
  case isFalse => rfl

theorem onward_emit (x : Setting) (s : Scanner) (t : Token) :
    (s.emit t).onward x = (s.onward x).emit t := by
  by_cases hnil : s.rest = []
  · rw [onward, onward, if_pos hnil, if_pos (by exact hnil), ← within_emit]
    rfl
  · rw [onward, onward, if_neg hnil, if_neg (by exact hnil), ← within_emit]

theorem onward_read {α : Type} (x : Setting) (s : Scanner) (t : Taken α) :
    ({ s with rest := t.rest, pos := t.pos } : Scanner).onward x = { s.within x with
      rest := (t.onward x.after x.index x.line).rest
      pos := (t.onward x.after x.index x.line).pos } := by
  unfold onward Taken.onward
  dsimp only
  split <;> rfl

/-! ## Tokens -/

theorem bind_within {y : Except Error Scanner} {f g : Scanner → Except Error Scanner}
    (h : ∀ s, y = .ok s → f (s.within x) = (g s).map (within x)) :
    (y.map (within x) >>= f) = (y >>= g).map (within x) := by
  cases y with
  | error e => rfl
  | ok s => exact h s rfl

/-- At least one character is left. -/
def Going (x : Setting) (s : Scanner) : Prop := 1 ≤ s.rest.length ∨ x.after = []

theorem within_put (hs : s.Going x) (t : Token) :
    ((s.within x).emit t).skip 1 = ((s.emit t).skip 1).within x := by
  rw [within_emit, within_skip x (by exact hs)]

theorem within_flowStart (hs : s.Going x) (t : Token) :
    (s.within x).flowStart t = (s.flowStart t).map (within x) := by
  rw [flowStart, within_markCandidate]
  refine bind_within fun s' hs' => ?_
  obtain ⟨k, rfl, -⟩ := exists_of_markCandidate hs'
  exact congrArg Except.ok (within_put (s := { s with
    outer := k :: s.outer, candidate := none, keyAllowed := true }) hs t)

theorem within_flowEnd (hs : s.Going x) (t : Token) :
    (s.within x).flowEnd t = (s.flowEnd t).map (within x) := by
  rw [flowEnd, within_dropCandidate]
  refine bind_within fun s' hs' => ?_
  obtain ⟨-, rfl⟩ := dropCandidate_eq_ok hs'
  obtain ⟨rest, pos, tokens, count, indents, candidate, outer, keyAllowed, finished⟩ := s
  cases outer with
  | nil => exact congrArg Except.ok (within_put (s :=
      ⟨rest, pos, tokens, count, indents, none, [], false, finished⟩) hs t)
  | cons k outer => exact congrArg Except.ok (within_put (s :=
      ⟨rest, pos, tokens, count, indents, k, outer, false, finished⟩) hs t)

theorem within_flowEntry (hs : s.Going x) :
    (s.within x).flowEntry = s.flowEntry.map (within x) := by
  rw [flowEntry, within_dropCandidate]
  refine bind_within fun s' hs' => ?_
  obtain ⟨-, rfl⟩ := dropCandidate_eq_ok hs'
  exact congrArg Except.ok (within_put (s := { s with candidate := none, keyAllowed := true }) hs _)

theorem within_openAtIndicator (x : Setting) (hs : s.Counted) (start : Token) :
    (s.within x).openAtIndicator start = (s.openAtIndicator start).map (within x) := by
  unfold openAtIndicator
  rw [within_inFlow, apply_ite (Except.map (within x)), apply_ite (Except.map (within x))]
  simp only [map_ok, map_error, ← within_openBlock x hs]
  rfl

theorem going_of_openAtIndicator {start : Token} (hstart : start.isStart = true)
    (hs : s.Going x) (h : s.openAtIndicator start = .ok u) : u.Going x := by
  rwa [Going, (Grows.openAtIndicator (c := 0) hstart h).rest]

theorem within_blockEntry (hs : s.Going x) (hcount : s.Counted) :
    (s.within x).blockEntry = s.blockEntry.map (within x) := by
  rw [blockEntry, within_openAtIndicator x hcount]
  refine bind_within fun s₁ hs₁ => ?_
  rw [within_dropCandidate]
  refine bind_within fun s₂ hs₂ => ?_
  obtain ⟨-, rfl⟩ := dropCandidate_eq_ok hs₂
  have hgoing := going_of_openAtIndicator rfl hs hs₁
  exact congrArg Except.ok (within_put (s := { s₁ with candidate := none, keyAllowed := true })
    hgoing _)

theorem within_keyMark (hs : s.Going x) (hcount : s.Counted) :
    (s.within x).keyMark = s.keyMark.map (within x) := by
  rw [keyMark, within_openAtIndicator x hcount]
  refine bind_within fun s₁ hs₁ => ?_
  rw [within_dropCandidate]
  refine bind_within fun s₂ hs₂ => ?_
  obtain ⟨-, rfl⟩ := dropCandidate_eq_ok hs₂
  have hgoing := going_of_openAtIndicator rfl hs hs₁
  refine congrArg Except.ok ?_
  simp only [within_inFlow]
  exact within_put (s := { s₁ with candidate := none, keyAllowed := !s₁.inFlow }) hgoing .key

theorem within_valueMark (hs : s.Going x) (hcount : s.Counted) :
    (s.within x).valueMark = s.valueMark.map (within x) := by
  cases hk : s.candidate with
  | none =>
    have hk' : (s.within x).candidate = none := by rw [within, hk]; rfl
    rw [valueMark_none hk, valueMark_none hk', within_openAtIndicator x hcount]
    refine bind_within fun s₁ hs₁ => ?_
    have hgoing := going_of_openAtIndicator rfl hs hs₁
    refine congrArg Except.ok ?_
    simp only [within_inFlow]
    exact within_put (s := { s₁ with keyAllowed := !s₁.inFlow }) hgoing .value
  | some k =>
    have hk' : (s.within x).candidate = some (k.within x) := by rw [within, hk]; rfl
    have hgoing : ((s.emitAt k.before .key).openBlock k.pos.column k.before
        .blockMappingStart).Going x := by
      rwa [Going, openBlock_rest]
    have hopen := within_openBlock x (hcount.emitAt k.before .key) k.pos.column k.before
      .blockMappingStart
    rw [← within_emitAt x hcount] at hopen
    rw [valueMark_some hk, valueMark_some hk']
    simp only [KeyCandidate.within, Position.further_column, hopen]
    exact congrArg Except.ok (within_put (s := { ((s.emitAt k.before .key).openBlock k.pos.column
      k.before .blockMappingStart) with candidate := none, keyAllowed := false }) hgoing .value)

/-! ## Tokens that are read character by character -/

/-- A reader that finds the same where more follows. -/
def Keeps {α : Type} (x : Setting) (f : List Char → Position → Except Error (Taken α)) : Prop :=
  ∀ text p t, f text p = .ok t → Before text x.after →
    f (text ++ x.after) (p.further x.index x.line) = .ok (t.further x.after x.index x.line) ∧
      Before t.rest x.after

theorem within_keyStart {α : Type} {f : List Char → Position → Except Error (Taken α)}
    (hf : Keeps x f) {read : Scanner → Except Error (Taken Token)} {g : α → Token}
    (hread : ∀ s', s'.inFlow = s.inFlow → read s' = do
      let t ← f s'.rest.tail s'.pos.next
      return { t with result := g t.result })
    {c : Char} {r : List Char} (hc : s.rest = c :: r) (hr : Before r x.after)
    (h : s.keyStart read = .ok u) :
    (s.within x).keyStart read = .ok (u.within x) ∧ Before u.rest x.after := by
  obtain ⟨s₁, hs₁, h⟩ := bind_eq_ok_iff.1 h
  obtain ⟨k, rfl, -⟩ := exists_of_markCandidate hs₁
  obtain ⟨t, ht, h⟩ := bind_eq_ok_iff.1 h
  rw [hread { s with candidate := k } rfl] at ht
  obtain ⟨a, ha, ht⟩ := bind_eq_ok_iff.1 ht
  obtain rfl := Except.ok.inj ht
  obtain rfl := Except.ok.inj h
  simp only [hc, List.tail_cons] at ha
  obtain ⟨ha', hrest⟩ := hf r s.pos.next a ha hr
  refine ⟨?_, hrest⟩
  have htail : (s.rest ++ x.after).tail = r ++ x.after := by rw [hc]; rfl
  rw [keyStart, within_markCandidate, hs₁, map_ok, ok_bind,
    hread _ (within_inFlow x { s with candidate := k })]
  simp only [within, htail, Position.further_next, ha', ok_bind]
  exact congrArg Except.ok (within_emit x { s with
    candidate := k, keyAllowed := false, rest := a.rest, pos := a.pos } (g a.result))

/-- What is left ends a line before what follows, unless nothing is left. Then a key could start
at what follows. -/
def Waits (after : List Char) (s : Scanner) : Prop :=
  Before s.rest after ∨
    StartsLine after ∧ s.rest = [] ∧ s.pos.column = 0 ∧ s.keyAllowed = true

theorem within_plainToken {c : Char} {r : List Char} (hc : s.rest = c :: r)
    (hb : Before s.rest x.after) (h : s.plainToken = .ok u)
    (hopen : u.rest = [] →
      x.after = [] ∨ u.inFlow = false ∧ ∃ n ∈ s.indents.head?, lead x.after ≤ n) :
    (s.within x).plainToken = .ok (u.onward x) ∧ u.Waits x.after := by
  obtain ⟨s₁, hs₁, h⟩ := bind_eq_ok_iff.1 h
  obtain ⟨t, ht, h⟩ := bind_eq_ok_iff.1 h
  obtain rfl := Except.ok.inj h
  obtain ⟨k, rfl, -⟩ := exists_of_markCandidate hs₁
  have hindent : (∃ n ∈ s.indents.head?, lead x.after ≤ n) →
      lead x.after < s.indents.head?.elim 0 (· + 1) := by
    rintro ⟨n, hn, hle⟩
    rw [Option.mem_def.1 hn]
    exact Nat.lt_succ_of_le hle
  obtain ⟨ht', hahead, hkey⟩ := plainScalar_further (i := x.index) (l := x.line) ht (hb.ahead _)
    (fun hnil => absurd (hc.symm.trans hnil) nofun)
    (fun hnil => (hopen hnil).imp_right (And.imp_right hindent))
  constructor
  · rw [plainToken, within_markCandidate, hs₁, map_ok, ok_bind, within_inFlow]
    refine bind_eq_ok_iff.2 ⟨_, ht', congrArg Except.ok ?_⟩
    rw [onward_emit, Taken.onward_result]
    exact congrArg (emit _)
      (onward_read x { s with candidate := k, keyAllowed := t.result.2 } t).symm
  · refine hahead.imp_right fun ⟨hstart, hnil, hp⟩ => ⟨hstart, hnil, hp, ?_⟩
    exact (hkey hnil).resolve_left hstart.ne_nil

theorem within_blockToken {c : Char} {r : List Char} {folded : Bool} (hc : s.rest = c :: r)
    (hr : Before r x.after) (h : s.blockToken folded = .ok u)
    (hopen : u.rest = [] → x.after = [] ∨ ∃ n ∈ s.indents.head?, lead x.after ≤ n) :
    (s.within x).blockToken folded = .ok (u.onward x) ∧ u.Waits x.after := by
  obtain ⟨s₁, hs₁, h⟩ := bind_eq_ok_iff.1 h
  obtain ⟨t, ht, h⟩ := bind_eq_ok_iff.1 h
  obtain rfl := Except.ok.inj h
  obtain ⟨-, rfl⟩ := dropCandidate_eq_ok hs₁
  simp only [hc, List.tail_cons] at ht
  obtain ⟨ht', hahead⟩ := blockScalar_further (i := x.index) (l := x.line) ht hr hopen
  have htail : (s.rest ++ x.after).tail = r ++ x.after := by rw [hc]; rfl
  constructor
  · rw [blockToken, within_dropCandidate, hs₁, map_ok, ok_bind]
    simp only [within, htail, Position.further_next, ht', ok_bind]
    rw [onward_emit, Taken.onward_result]
    exact congrArg (fun s => Except.ok (emit _ s))
      (onward_read x { s with candidate := none, keyAllowed := true } t).symm
  · exact hahead.imp_right fun ⟨hstart, hnil, hp⟩ => ⟨hstart, hnil, hp, rfl⟩

/-! ## One token -/

theorem within_atDocument (x : Setting) (s : Scanner) :
    (s.within x).atDocument = s.atDocument.map (within x) := by
  rw [atDocument, within_closeBlocks, within_dropCandidate]
  exact bind_within fun _ _ => rfl

theorem within_endToken (x : Setting) (s : Scanner) :
    (s.within x).endToken = s.endToken.map (within x) := by
  have hclose := within_closeBlocks x none { s with pos := s.pos.newLine }
  have hpos : ({ s.within x with pos := (s.within x).pos.newLine } : Scanner) =
      ({ s with pos := s.pos.newLine } : Scanner).within x := by
    simp [within]
  rw [endToken, hpos, hclose, within_dropCandidate]
  exact bind_within fun s _ =>
    congrArg Except.ok (within_emit x { s with finished := true } .streamEnd)

/-! ## Actions -/

theorem at?_append {c : Char} {r after : List Char} (hb : Before (c :: r) after)
    (hr : Before r after) (inFlow : Bool) (column : ℕ) :
    Action.at? inFlow column c (r ++ after) = Action.at? inFlow column c r := by
  have hplain : atPlain inFlow c (r ++ after) = atPlain inFlow c r := by
    rw [atPlain, atPlain, hr.head?_append, hr.atSpace_append]
  rw [Action.at?, Action.at?, ← List.cons_append, hb.atDocumentMark_append, hr.atSpace_append,
    hplain]

theorem before_of_put {mid : Scanner} {t : Token} {c : Char} {r after : List Char}
    (hmid : s.Grows 0 mid) (hc : s.rest = c :: r) (hr : Before r after) :
    Before ((mid.emit t).skip 1).rest after := by
  show Before (mid.rest.drop 1) after
  rwa [hmid.rest, hc]

/-- What ends inside the text is read in the same way. -/
theorem waits_of_before {y : Except Error Scanner}
    (h : y = .ok (u.within x) ∧ Before u.rest x.after) : y = .ok (u.onward x) ∧ u.Waits x.after :=
  ⟨h.1.trans (congrArg Except.ok (onward_of_before h.2).symm), .inl h.2⟩

/-- An action inside the document is done in the same way where more tokens and more text are
around. -/
theorem within_perform {a : Action} {c : Char} {r : List Char} (hcount : s.Counted)
    (hc : s.rest = c :: r) (hb : Before s.rest x.after) (hr : Before r x.after)
    (h : a.perform s = .ok u) (hmarks : ∀ t ∈ u.tokens, t.isMark = false)
    (hopen : u.rest = [] →
      x.after = [] ∨ u.inFlow = false ∧ ∃ n ∈ s.indents.head?, lead x.after ≤ n) :
    a.perform (s.within x) = .ok (u.onward x) ∧ u.Waits x.after := by
  have hgoing : s.Going x := .inl (by rw [hc]; simp)
  cases a with
  | directive =>
    obtain ⟨s₁, -, h⟩ := bind_eq_ok_iff.1 h
    obtain ⟨d, -, h⟩ := bind_eq_ok_iff.1 h
    obtain rfl := Except.ok.inj h
    exact absurd (hmarks _ List.mem_cons_self) nofun
  | document start =>
    obtain ⟨s₁, -, h⟩ := bind_eq_ok_iff.1 h
    obtain rfl := Except.ok.inj h
    have hmark := hmarks _ List.mem_cons_self
    cases start <;> exact absurd hmark nofun
  | opening mapping =>
    obtain ⟨mid, hmid, hu⟩ := exists_of_flowStart (.inr (Nat.zero_le _)) h
    exact waits_of_before ⟨(within_flowStart hgoing _).trans (congrArg (Except.map _) h),
      hu ▸ before_of_put hmid hc hr⟩
  | closing mapping =>
    obtain ⟨mid, hmid, hu⟩ := exists_of_flowEnd h
    exact waits_of_before ⟨(within_flowEnd hgoing _).trans (congrArg (Except.map _) h),
      hu ▸ before_of_put hmid hc hr⟩
  | comma =>
    obtain ⟨mid, hmid, hu⟩ := exists_of_flowEntry h
    exact waits_of_before ⟨(within_flowEntry hgoing).trans (congrArg (Except.map _) h),
      hu ▸ before_of_put hmid hc hr⟩
  | entry =>
    obtain ⟨mid, hmid, hu⟩ := exists_of_blockEntry h
    exact waits_of_before ⟨(within_blockEntry hgoing hcount).trans (congrArg (Except.map _) h),
      hu ▸ before_of_put hmid hc hr⟩
  | key =>
    obtain ⟨mid, hmid, hu⟩ := exists_of_keyMark h
    exact waits_of_before ⟨(within_keyMark hgoing hcount).trans (congrArg (Except.map _) h),
      hu ▸ before_of_put hmid hc hr⟩
  | value =>
    obtain ⟨mid, hmid, hu⟩ := exists_of_valueMark h
    exact waits_of_before ⟨(within_valueMark hgoing hcount).trans (congrArg (Except.map _) h),
      hu ▸ before_of_put hmid hc hr⟩
  | aliasMark =>
    exact waits_of_before (within_keyStart (f := anchorName) (g := .alias)
      (fun _ _ _ => anchorName_further) (fun _ _ => rfl) hc hr h)
  | anchorMark =>
    exact waits_of_before (within_keyStart (f := anchorName) (g := .anchor)
      (fun _ _ _ => anchorName_further) (fun _ _ => rfl) hc hr h)
  | tagMark =>
    refine waits_of_before (within_keyStart (f := tagProperty s.inFlow)
      (g := fun tag => .tag tag.1 tag.2) (fun _ _ _ => tagProperty_further) (fun s' hs' => ?_)
      hc hr h)
    rw [tagToken, hs']
  | block folded =>
    exact within_blockToken hc hr h fun hnil => (hopen hnil).imp_right And.right
  | singleQuote =>
    exact waits_of_before (within_keyStart (f := fun text p => singleQuoted text p .none [])
      (fun _ _ _ h hb => singleQuoted_further h fun _ => hb) (fun _ _ => rfl) hc hr h)
  | doubleQuote =>
    exact waits_of_before (within_keyStart (f := fun text p => doubleQuoted text p .none [])
      (fun _ _ _ h hb => doubleQuoted_further h fun _ => hb) (fun _ _ => rfl) hc hr h)
  | plain => exact within_plainToken hc hb h hopen

/-! ## More tokens before -/

variable {tokens : List Token}

theorem within_onto (tokens : List Token) (s : Scanner) :
    s.within (.onto tokens) = { s with
      tokens := s.tokens ++ tokens
      count := s.count + tokens.length
      candidate := s.candidate.map (.within (.onto tokens))
      outer := s.outer.map (·.map (.within (.onto tokens))) } := by
  simp [within, Setting.onto, Position.further]

theorem onto_keyStart {read : Scanner → Except Error (Taken Token)}
    (hread : ∀ s : Scanner, read (s.within (.onto tokens)) = read s) (s : Scanner) :
    (s.within (.onto tokens)).keyStart read = (s.keyStart read).map (within (.onto tokens)) := by
  rw [keyStart, within_markCandidate]
  refine bind_within fun s₁ _ => ?_
  rw [hread]
  cases read s₁ with
  | error e => rfl
  | ok t =>
    refine congrArg Except.ok ?_
    rw [← within_emit, within_onto, within_onto]

theorem onto_plainToken (s : Scanner) :
    (s.within (.onto tokens)).plainToken = s.plainToken.map (within (.onto tokens)) := by
  rw [plainToken, within_markCandidate]
  refine bind_within fun s₁ _ => ?_
  rw [within_inFlow, within_onto]
  cases plainScalar s₁.inFlow (s₁.indents.head?.elim 0 (· + 1)) s₁.rest s₁.pos .none [] with
  | error e => rfl
  | ok t =>
    refine congrArg Except.ok ?_
    rw [← within_emit, within_onto]

theorem onto_blockToken (folded : Bool) (s : Scanner) :
    (s.within (.onto tokens)).blockToken folded =
      (s.blockToken folded).map (within (.onto tokens)) := by
  rw [blockToken, within_dropCandidate]
  refine bind_within fun s₁ _ => ?_
  rw [within_onto]
  cases blockScalar folded s₁.indents.head? s₁.rest.tail s₁.pos.next with
  | error e => rfl
  | ok t =>
    refine congrArg Except.ok ?_
    rw [← within_emit, within_onto]

theorem onto_directiveToken (s : Scanner) :
    (s.within (.onto tokens)).directiveToken = s.directiveToken.map (within (.onto tokens)) := by
  rw [directiveToken, within_atDocument]
  refine bind_within fun s₁ _ => ?_
  rw [within_onto]
  cases directive s₁.rest.tail s₁.pos.next with
  | error e => rfl
  | ok t =>
    refine congrArg Except.ok ?_
    rw [← within_emit, within_onto]

theorem onto_documentMark (t : Token) (s : Scanner) :
    (s.within (.onto tokens)).documentMark t =
      (s.documentMark t).map (within (.onto tokens)) := by
  rw [documentMark, within_atDocument]
  refine bind_within fun s₁ _ => congrArg Except.ok ?_
  rw [within_emit, within_skip _ (.inr rfl)]

theorem onto_perform (hcount : s.Counted) (a : Action) :
    a.perform (s.within (.onto tokens)) = (a.perform s).map (within (.onto tokens)) := by
  have hgoing : s.Going (.onto tokens) := .inr rfl
  cases a with
  | directive => exact onto_directiveToken s
  | document start => exact onto_documentMark _ s
  | opening mapping => exact within_flowStart hgoing _
  | closing mapping => exact within_flowEnd hgoing _
  | comma => exact within_flowEntry hgoing
  | entry => exact within_blockEntry hgoing hcount
  | key => exact within_keyMark hgoing hcount
  | value => exact within_valueMark hgoing hcount
  | aliasMark => exact onto_keyStart (fun s => by rw [within_onto]; rfl) s
  | anchorMark => exact onto_keyStart (fun s => by rw [within_onto]; rfl) s
  | tagMark => exact onto_keyStart (fun s => by rw [tagToken, within_inFlow, within_onto]; rfl) s
  | block folded => exact onto_blockToken folded s
  | singleQuote => exact onto_keyStart (fun s => by rw [within_onto]; rfl) s
  | doubleQuote => exact onto_keyStart (fun s => by rw [within_onto]; rfl) s
  | plain => exact onto_plainToken s

theorem onto_readToken (hcount : s.Counted) :
    (s.within (.onto tokens)).readToken = s.readToken.map (within (.onto tokens)) := by
  have hrest : (s.within (.onto tokens)).rest = s.rest := List.append_nil s.rest
  cases hc : s.rest with
  | nil =>
    rw [readToken, readToken, hrest, hc]
    exact within_endToken _ s
  | cons c r =>
    rw [readToken_eq (hrest.trans hc), readToken_eq hc, within_inFlow]
    show ((Action.at? s.inFlow s.pos.column c r).map _).getD _ = _
    cases Action.at? s.inFlow s.pos.column c r with
    | none => rfl
    | some a => exact onto_perform hcount a

end Scanner
end Yaml
end LayeredConfig
