/-
What reading one token does to a scanner.

Which token is read is decided first, as an `Action`, and then done; so a property of a token is
shown action by action. Whatever is done, the number of tokens is kept (`Counted`), and so is the
number of open blocks (`Level`), no token goes away, and blocks stay open that are not right of what
is read (`Grows`); and a token is put at the end that does not end anything, unless it is a mark
between documents (`Performs`). What is put in elsewhere marks a key, and that is only where a key
could have started (`Behind`, `Held`).
-/
import LayeredConfig.Proofs.Yaml.Token.Forward

namespace LayeredConfig
namespace Yaml

/-- A token that stands between documents or before one. -/
def Token.isMark : Token → Bool
  | .directive _ | .documentStart | .documentEnd => true
  | _ => false

/-- A token that ends a block collection or the stream. -/
def Token.isEnd : Token → Bool
  | .blockEnd | .streamEnd => true
  | _ => false

/-- A token that starts a block collection. -/
def Token.isStart : Token → Bool
  | .blockSequenceStart | .blockMappingStart => true
  | _ => false

namespace Scanner

variable {s mid u : Scanner} {t start : Token} {column before c : ℕ} {later earlier : List Token}

/-! ## One token -/

/-- What is done at the front of a text. -/
inductive Action where
  | directive
  | document (start : Bool)
  | opening (mapping : Bool)
  | closing (mapping : Bool)
  | comma
  | entry
  | key
  | value
  | aliasMark
  | anchorMark
  | tagMark
  | block (folded : Bool)
  | singleQuote
  | doubleQuote
  | plain

namespace Action

/-- What is done at a character, with more characters after it. -/
def at? (inFlow : Bool) (column : ℕ) (c : Char) (r : List Char) : Option Action :=
  if column = 0 ∧ c = '%' then some .directive
  else if column = 0 ∧ atDocumentMark (c :: r) then
    some (.document (c = '-'))
  else if c = '[' then some (.opening false)
  else if c = '\x7b' then some (.opening true)
  else if c = ']' then some (.closing false)
  else if c = '\x7d' then some (.closing true)
  else if c = ',' then some .comma
  else if c = '-' ∧ atSpace r then some .entry
  else if c = '?' ∧ (inFlow ∨ atSpace r) then some .key
  else if c = ':' ∧ (inFlow ∨ atSpace r) then some .value
  else if c = '*' then some .aliasMark
  else if c = '&' then some .anchorMark
  else if c = '!' then some .tagMark
  else if c = '|' ∧ ¬inFlow then some (.block false)
  else if c = '>' ∧ ¬inFlow then some (.block true)
  else if c = '\'' then some .singleQuote
  else if c = '"' then some .doubleQuote
  else if atPlain inFlow c r then some .plain
  else none

def perform (s : Scanner) : Action → Except Error Scanner
  | .directive => s.directiveToken
  | .document start => s.documentMark (if start then .documentStart else .documentEnd)
  | .opening mapping => s.flowStart (if mapping then .flowMappingStart else .flowSequenceStart)
  | .closing mapping => s.flowEnd (if mapping then .flowMappingEnd else .flowSequenceEnd)
  | .comma => s.flowEntry
  | .entry => s.blockEntry
  | .key => s.keyMark
  | .value => s.valueMark
  | .aliasMark => s.keyStart aliasToken
  | .anchorMark => s.keyStart anchorToken
  | .tagMark => s.keyStart tagToken
  | .block folded => s.blockToken folded
  | .singleQuote => s.keyStart singleQuotedToken
  | .doubleQuote => s.keyStart doubleQuotedToken
  | .plain => s.plainToken

end Action

theorem readToken_eq {c : Char} {r : List Char} (h : s.rest = c :: r) :
    s.readToken =
      ((Action.at? s.inFlow s.pos.column c r).map (·.perform s)).getD (.error .token) := by
  have hite : ∀ {p : Prop} [Decidable p] (a : Action) (rest : Option Action),
      ((if p then some a else rest).map (·.perform s)).getD (.error .token) =
        if p then a.perform s else (rest.map (·.perform s)).getD (.error .token) := by
    intro p _ a rest
    by_cases hp : p
    · rw [if_pos hp, if_pos hp]
      rfl
    · rw [if_neg hp, if_neg hp]
  rw [readToken, h, Action.at?]
  simp only [hite]
  simp only [Action.perform, decide_eq_true_eq]
  rfl

theorem exists_of_readToken {c : Char} {r : List Char} (hc : s.rest = c :: r)
    (h : s.readToken = .ok u) :
    ∃ a, Action.at? s.inFlow s.pos.column c r = some a ∧ a.perform s = .ok u := by
  rw [readToken_eq hc] at h
  cases ha : Action.at? s.inFlow s.pos.column c r with
  | none => exact absurd (ha ▸ h) nofun
  | some a =>
    rw [ha] at h
    exact ⟨a, rfl, h⟩

theorem readToken_lineFeed {r : List Char} (h : s.rest = '\n' :: r) :
    s.readToken = .error .token := by
  rw [readToken, h]
  simp [atDocumentMark, atPlain, atSpace, isBreak]

/-! ## What candidates leave as it is -/

theorem dropCandidate_eq_ok (h : s.dropCandidate = .ok u) :
    s.candidate.any (·.required) = false ∧ u = { s with candidate := none } := by
  unfold dropCandidate at h
  split at h
  case isTrue => exact absurd h nofun
  case isFalse hk => exact ⟨by simpa using hk, (Except.ok.inj h).symm⟩

theorem exists_of_markCandidate (h : s.markCandidate = .ok u) :
    ∃ k, u = { s with candidate := k } ∧ (k = s.candidate ∨ ∃ r, k = some ⟨s.count, s.pos, r⟩) := by
  unfold markCandidate at h
  split at h
  case isTrue =>
    obtain rfl := Except.ok.inj h
    exact ⟨s.candidate, rfl, .inl rfl⟩
  case isFalse =>
    obtain ⟨s', hs', h⟩ := bind_eq_ok_iff.1 h
    obtain ⟨-, rfl⟩ := dropCandidate_eq_ok hs'
    obtain rfl := Except.ok.inj h
    exact ⟨_, rfl, .inr ⟨_, rfl⟩⟩

/-- Whether a place is lost although a key has to start there. -/
def lost (p : Position) (k : Option KeyCandidate) : Bool :=
  k.any fun k => KeyCandidate.lapsed p k && k.required

/-- What is left of the places for keys. -/
def kept (p : Position) (k : Option KeyCandidate) : Option KeyCandidate :=
  k.filter fun k => !KeyCandidate.lapsed p k

theorem dropLapsed_eq (s : Scanner) :
    s.dropLapsed = if lost s.pos s.candidate ∨ s.outer.any (lost s.pos) then .error .indicator
      else .ok { s with candidate := kept s.pos s.candidate, outer := s.outer.map (kept s.pos) } :=
  rfl

theorem dropLapsed_eq_ok (h : s.dropLapsed = .ok u) :
    (lost s.pos s.candidate = false ∧ s.outer.any (lost s.pos) = false) ∧
      u = { s with candidate := kept s.pos s.candidate, outer := s.outer.map (kept s.pos) } := by
  rw [dropLapsed_eq] at h
  split at h
  case isTrue => exact absurd h nofun
  case isFalse hlost => exact ⟨by simpa using hlost, (Except.ok.inj h).symm⟩

/-! ## What tokens are put in -/

/-- The number of tokens is right. -/
def Counted (s : Scanner) : Prop := s.count = s.tokens.length

/-- The open blocks are those that have been started and not ended. -/
def Level (s : Scanner) : Prop :=
  s.tokens.countP Token.isStart = s.tokens.count .blockEnd + s.indents.length

/-- The outermost block collection stands at the column `c`, the others further right. -/
def Rooted (c : ℕ) (s : Scanner) : Prop := ∃ inner, s.indents = inner ++ [c] ∧ ∀ i ∈ inner, c < i

/-- The place where a key may start outside brackets is not left of the column `c`, and what is read
stands behind it. -/
def Held (c : ℕ) (s : Scanner) : Prop :=
  ∀ k, (s.candidate :: s.outer).getLast? = some (some k) → toLex (k.pos.line, c) ≤ s.pos.place

/-- Other tokens, among them `later`, stand behind the tokens `earlier`, and no key may start among
those. -/
structure Behind (later earlier : List Token) (s : Scanner) : Prop where
  counted : s.Counted
  tokens : ∃ between, s.tokens = between ++ earlier ∧ later ⊆ between
  candidates : ∀ k, some k ∈ s.candidate :: s.outer → earlier.length ≤ k.before

theorem Behind.length_le (h : s.Behind later earlier) : earlier.length ≤ s.count := by
  obtain ⟨between, hbetween, -⟩ := h.tokens
  rw [h.counted, hbetween, List.length_append]
  exact Nat.le_add_left _ _

theorem Rooted.exists_head (h : s.Rooted c) : ∃ i ∈ s.indents.head?, c ≤ i := by
  obtain ⟨inner, hinner, hlt⟩ := h
  rw [hinner]
  cases inner with
  | nil => exact ⟨c, rfl, le_rfl⟩
  | cons i inner => exact ⟨i, rfl, (hlt i List.mem_cons_self).le⟩

theorem emitAt_perm (before : ℕ) (t : Token) (s : Scanner) :
    (s.emitAt before t).tokens.Perm (t :: s.tokens) := by
  have hperm : (s.tokens.take (s.count - before) ++ t :: s.tokens.drop (s.count - before)).Perm
      (t :: (s.tokens.take (s.count - before) ++ s.tokens.drop (s.count - before))) :=
    List.perm_middle
  rwa [List.take_append_drop] at hperm

theorem openBlock_rest (column before : ℕ) (start : Token) (s : Scanner) :
    (s.openBlock column before start).rest = s.rest := by
  unfold Scanner.openBlock
  split <;> rfl

theorem Counted.emitAt (hs : s.Counted) (before : ℕ) (t : Token) : (s.emitAt before t).Counted := by
  rw [Counted, (emitAt_perm before t s).length_eq, List.length_cons, ← hs]
  rfl

theorem Behind.emitAt (h : s.Behind later earlier) (hbefore : earlier.length ≤ before)
    (t : Token) : (s.emitAt before t).Behind later earlier := by
  refine ⟨h.counted.emitAt before t, ?_, h.candidates⟩
  obtain ⟨between, hbetween, hlater⟩ := h.tokens
  have hle : s.count - before ≤ between.length := by
    rw [h.counted, hbetween, List.length_append]
    omega
  refine ⟨between.take (s.count - before) ++ t :: between.drop (s.count - before), ?_, ?_⟩
  · show s.tokens.take _ ++ t :: s.tokens.drop _ = _
    rw [hbetween, List.take_append_of_le_length hle, List.drop_append_of_le_length hle,
      List.append_assoc, List.cons_append]
  · refine fun a ha => List.mem_append.2 ?_
    have hmem : a ∈ between.take (s.count - before) ++ between.drop (s.count - before) := by
      rw [List.take_append_drop]
      exact hlater ha
    exact (List.mem_append.1 hmem).imp_right (List.mem_cons_of_mem t)

theorem Counted.closeBlocks (column : Option ℕ) (hs : s.Counted) :
    (s.closeBlocks column).Counted := by
  unfold Scanner.closeBlocks
  split
  case isTrue => exact hs
  case isFalse =>
    simp only [Counted, List.length_append, List.length_replicate]
    rw [hs, Nat.add_comm]

theorem drop_closedBy (column : Option ℕ) (indents : List ℕ) :
    indents.drop (closedBy column indents) = indents.dropWhile fun i => column.all (· < i) := by
  have hsplit : indents.takeWhile (fun i => column.all (· < i)) ++
      indents.dropWhile (fun i => column.all (· < i)) = indents := List.takeWhile_append_dropWhile
  exact (congrArg (List.drop (closedBy column indents)) hsplit.symm).trans List.drop_left

theorem closedBy_le (column : Option ℕ) (indents : List ℕ) :
    closedBy column indents ≤ indents.length :=
  (List.takeWhile_sublist _).length_le

theorem Level.closeBlocks (column : Option ℕ) (hs : s.Level) : (s.closeBlocks column).Level := by
  unfold Scanner.closeBlocks
  split
  case isTrue => exact hs
  case isFalse =>
    have hle := closedBy_le column s.indents
    have hlevel : s.tokens.countP Token.isStart = _ := hs
    simp only [Level, List.countP_append, List.countP_replicate, List.count_append,
      List.count_replicate, List.length_drop, Token.isStart, hlevel]
    simp
    omega

theorem Behind.closeBlocks (column : Option ℕ) (h : s.Behind later earlier) :
    (s.closeBlocks column).Behind later earlier := by
  have hcounted := h.counted.closeBlocks column
  unfold Scanner.closeBlocks at hcounted ⊢
  split
  case isTrue => exact h
  case isFalse hflow =>
    rw [if_neg hflow] at hcounted
    obtain ⟨between, hbetween, hlater⟩ := h.tokens
    refine ⟨hcounted, ⟨List.replicate (closedBy column s.indents) .blockEnd ++ between, ?_, ?_⟩,
      h.candidates⟩
    · rw [List.append_assoc, ← hbetween]
    · exact fun a ha => List.mem_append_right _ (hlater ha)

/-- The outermost block is not right of a column to which it reaches. -/
theorem Rooted.closeBlocks (h : s.Rooted c) (hc : s.inFlow = true ∨ c ≤ column) :
    (s.closeBlocks (some column)).Rooted c := by
  unfold Scanner.closeBlocks
  split
  case isTrue => exact h
  case isFalse hflow =>
    have hc := hc.resolve_left hflow
    obtain ⟨inner, hinner, hlt⟩ := h
    refine ⟨inner.dropWhile fun i => column < i, ?_, fun i hi => hlt i ?_⟩
    · show s.indents.drop _ = _
      rw [Scanner.drop_closedBy, hinner, List.dropWhile_append]
      split
      case isTrue hempty =>
        rw [List.isEmpty_iff] at hempty
        rw [List.dropWhile_cons_of_neg (by simpa using hc)]
        exact congrArg (· ++ [c]) hempty.symm
      case isFalse => rfl
    · exact (List.dropWhile_sublist _).subset hi

/-- Some tokens have been put in before reading on, and blocks closed or opened for them. -/
structure Grows (c : ℕ) (s u : Scanner) : Prop where
  rest : u.rest = s.rest
  pos : u.pos = s.pos
  finished : u.finished = s.finished
  subset : s.tokens ⊆ u.tokens
  counted : s.Counted → u.Counted
  level : s.Level → u.Level
  rooted : s.Rooted c → u.Rooted c
  held : s.Held c → u.Held c
  behind {later earlier : List Token} : s.Behind later earlier → u.Behind later earlier

namespace Grows

theorem refl (s : Scanner) : s.Grows c s := ⟨rfl, rfl, rfl, fun _ h => h, id, id, id, id, id⟩

theorem trans (h : s.Grows c mid) (h' : mid.Grows c u) : s.Grows c u :=
  ⟨h'.rest.trans h.rest, h'.pos.trans h.pos, h'.finished.trans h.finished,
    fun _ ht => h'.subset (h.subset ht), h'.counted ∘ h.counted, h'.level ∘ h.level,
    h'.rooted ∘ h.rooted, h'.held ∘ h.held, h'.behind ∘ h.behind⟩

/-- The mark of a key may be put in where it starts. -/
theorem emitAt (hbefore : ∀ later earlier, s.Behind later earlier → earlier.length ≤ before) :
    s.Grows c (s.emitAt before .key) where
  rest := rfl
  pos := rfl
  finished := rfl
  subset _ ha := (emitAt_perm before .key s).mem_iff.2 (List.mem_cons_of_mem _ ha)
  counted hs := hs.emitAt before .key
  level hs := by
    have hperm := emitAt_perm before .key s
    rw [Level, hperm.countP_eq, hperm.count_eq]
    exact hs
  rooted := id
  held := id
  behind h := h.emitAt (hbefore _ _ h) .key

theorem openBlock (hstart : start.isStart = true)
    (hbefore : ∀ later earlier, s.Behind later earlier → earlier.length ≤ before) (column : ℕ) :
    s.Grows c (s.openBlock column before start) := by
  by_cases hopen : s.inFlow ∨ s.indents.head?.any (column ≤ ·)
  · rw [Scanner.openBlock, if_pos hopen]
    exact .refl s
  · rw [Scanner.openBlock, if_neg hopen]
    have hperm := emitAt_perm before start { s with indents := column :: s.indents }
    refine ⟨rfl, rfl, rfl, fun a ha => hperm.mem_iff.2 (List.mem_cons_of_mem _ ha),
      fun hs => Counted.emitAt (s := { s with indents := column :: s.indents }) hs before start,
      fun hs => ?level, fun hs => ?rooted, id, fun h => ?behind⟩
    case level =>
      have hlevel : s.tokens.countP Token.isStart = _ := hs
      have hne : start ≠ .blockEnd := by
        rintro rfl
        exact absurd hstart nofun
      rw [Level, hperm.countP_eq, hperm.count_eq, List.countP_cons_of_pos hstart,
        List.count_cons_of_ne hne, hlevel]
      rfl
    case rooted =>
      obtain ⟨i, hi, hci⟩ := Rooted.exists_head hs
      obtain ⟨inner, hinner, hlt⟩ := hs
      refine ⟨column :: inner, congrArg (column :: ·) hinner, List.forall_mem_cons.2 ⟨?_, hlt⟩⟩
      rw [Option.mem_def.1 hi] at hopen
      simp at hopen
      omega
    case behind =>
      exact Behind.emitAt (s := { s with indents := column :: s.indents })
        ⟨h.counted, h.tokens, h.candidates⟩ (hbefore _ _ h) start

theorem closeBlocks (hc : s.inFlow = true ∨ c ≤ column) :
    s.Grows c (s.closeBlocks (some column)) := by
  have hsame : (s.closeBlocks (some column)).rest = s.rest ∧
      (s.closeBlocks (some column)).pos = s.pos ∧
      (s.closeBlocks (some column)).finished = s.finished ∧
      s.tokens ⊆ (s.closeBlocks (some column)).tokens ∧
      (s.closeBlocks (some column)).candidate = s.candidate ∧
      (s.closeBlocks (some column)).outer = s.outer := by
    unfold Scanner.closeBlocks
    split
    · exact ⟨rfl, rfl, rfl, fun _ h => h, rfl, rfl⟩
    · exact ⟨rfl, rfl, rfl, fun _ h => List.mem_append_right _ h, rfl, rfl⟩
  obtain ⟨hrest, hpos, hfinished, hsubset, hcandidate, houter⟩ := hsame
  refine ⟨hrest, hpos, hfinished, hsubset, Counted.closeBlocks _, Level.closeBlocks _,
    fun hs => hs.closeBlocks hc, fun hs => ?_, Behind.closeBlocks _⟩
  rwa [Held, hcandidate, houter, hpos]

/-- Fewer places for keys, and none that had been further out, are left. -/
theorem keep (candidate : Option KeyCandidate) (outer : List (Option KeyCandidate))
    (hmem : ∀ k, some k ∈ candidate :: outer → some k ∈ s.candidate :: s.outer)
    (hlast : ∀ k, (candidate :: outer).getLast? = some (some k) →
      (s.candidate :: s.outer).getLast? = some (some k)) (keyAllowed : Bool) :
    s.Grows c { s with candidate, outer, keyAllowed } where
  rest := rfl
  pos := rfl
  finished := rfl
  subset _ h := h
  counted := id
  level := id
  rooted := id
  held h k hk := h k (hlast k hk)
  behind h := ⟨h.counted, h.tokens, fun k hk => h.candidates k (hmem k hk)⟩

theorem allow (keyAllowed : Bool) (s : Scanner) : s.Grows c { s with keyAllowed } :=
  keep _ _ (fun _ h => h) (fun _ h => h) keyAllowed

theorem forget (s : Scanner) (keyAllowed : Bool) :
    s.Grows c { s with candidate := none, keyAllowed } := by
  refine keep _ _ (fun k hk => ?_) (fun k hk => ?_) keyAllowed
  · exact List.mem_cons_of_mem _ ((List.mem_cons.1 hk).resolve_left nofun)
  · cases houter : s.outer with
    | nil => rw [houter] at hk; exact absurd hk nofun
    | cons o outer =>
      rw [houter, List.getLast?_cons_cons] at hk
      rwa [List.getLast?_cons_cons]

theorem dropCandidate (h : s.dropCandidate = .ok u) : s.Grows c u := by
  obtain ⟨-, rfl⟩ := dropCandidate_eq_ok h
  exact forget s s.keyAllowed

theorem markCandidate (hc : s.inFlow = true ∨ c ≤ s.pos.column) (h : s.markCandidate = .ok u) :
    s.Grows c u := by
  obtain ⟨k, rfl, rfl | ⟨r, rfl⟩⟩ := exists_of_markCandidate h
  · exact .refl s
  · refine ⟨rfl, rfl, rfl, fun _ h => h, id, id, id, fun hs k hk => ?_, fun hs => ?_⟩
    · cases houter : s.outer with
      | nil =>
        have hflow : ¬s.inFlow = true := by simp [inFlow, houter]
        rw [houter] at hk
        obtain rfl := Option.some.inj (Option.some.inj hk)
        exact Prod.Lex.toLex_le_toLex.2 (.inr ⟨rfl, hc.resolve_left hflow⟩)
      | cons o outer =>
        refine hs k ?_
        rwa [houter, List.getLast?_cons_cons] at hk ⊢
    · refine ⟨hs.counted, hs.tokens, fun k hk => ?_⟩
      rcases List.mem_cons.1 hk with hk | hk
      · obtain rfl := Option.some.inj hk
        exact hs.length_le
      · exact hs.candidates k (List.mem_cons_of_mem _ hk)

theorem dropLapsed (h : s.dropLapsed = .ok u) : s.Grows c u := by
  obtain ⟨-, rfl⟩ := dropLapsed_eq_ok h
  have hkept {k : KeyCandidate} {o : Option KeyCandidate} (h : kept s.pos o = some k) :
      o = some k := (Option.filter_eq_some_iff.1 h).1
  refine keep (kept s.pos s.candidate) (s.outer.map (kept s.pos))
    (fun k hk => ?_) (fun k hk => ?_) s.keyAllowed
  · rw [← List.map_cons] at hk
    obtain ⟨o, ho, hk⟩ := List.mem_map.1 hk
    exact hkept hk ▸ ho
  · rw [← List.map_cons, List.getLast?_map] at hk
    obtain ⟨o, ho, hk⟩ := Option.map_eq_some_iff.1 hk
    exact hkept hk ▸ ho

theorem openAtIndicator (hstart : start.isStart = true) (h : s.openAtIndicator start = .ok u) :
    s.Grows c u := by
  unfold Scanner.openAtIndicator at h
  split at h
  case isTrue => exact Except.ok.inj h ▸ .refl s
  case isFalse =>
    split at h
    case isTrue =>
      exact Except.ok.inj h ▸ openBlock hstart (fun _ _ h => h.length_le) _
    case isFalse => exact absurd h nofun

end Grows

/-- What a colon does to the key before it. -/
theorem valueMark_some {k : KeyCandidate} (hk : s.candidate = some k) :
    s.valueMark = .ok ((({ ((s.emitAt k.before .key).openBlock k.pos.column k.before
      .blockMappingStart) with candidate := none, keyAllowed := false } : Scanner).emit
        .value).skip 1) := by
  rw [valueMark, hk]
  rfl

theorem valueMark_none (hk : s.candidate = none) :
    s.valueMark = (do
      let s ← s.openAtIndicator .blockMappingStart
      return (({ s with keyAllowed := !s.inFlow } : Scanner).emit .value).skip 1) := by
  rw [valueMark, hk]
  cases s.openAtIndicator .blockMappingStart <;> rfl

/-! ## What an action puts in -/

/-- A token is put in last, and what it stood for is read. -/
structure Puts (c : ℕ) (t : Token) (s u : Scanner) : Prop where
  finished : u.finished = s.finished
  place : s.pos.place ≤ u.pos.place
  tokens : ∃ before, u.tokens = t :: before ∧ s.tokens ⊆ before
  counted : s.Counted → u.Counted
  level : s.Level → u.Level
  rooted : s.Rooted c → u.Rooted c
  held : s.Held c → u.Held c
  behind {later earlier : List Token} : s.Behind later earlier → u.Behind (t :: later) earlier

namespace Puts

theorem of_emit {rest : List Char} {pos : Position} {keyAllowed : Bool} (h : s.Grows c mid)
    (hstart : t.isStart = false) (hend : t.isEnd = false) (hpos : mid.pos.place ≤ pos.place) :
    s.Puts c t (({ mid with rest, pos, keyAllowed } : Scanner).emit t) where
  finished := h.finished
  place := h.pos ▸ hpos
  tokens := ⟨mid.tokens, rfl, h.subset⟩
  counted hs := congrArg (· + 1) (h.counted hs)
  level hs := by
    have hlevel : mid.tokens.countP Token.isStart = _ := h.level hs
    have hne : t ≠ .blockEnd := by
      rintro rfl
      exact absurd hend nofun
    rw [Level]
    exact (List.countP_cons_of_neg (by simp [hstart])).trans
      (hlevel.trans (congrArg (· + _) (List.count_cons_of_ne hne).symm))
  rooted := h.rooted
  held hs k hk := (h.held hs k hk).trans hpos
  behind hs := by
    obtain ⟨hcounted, ⟨between, hbetween, hlater⟩, hcandidates⟩ := h.behind hs
    exact ⟨congrArg (· + 1) hcounted, ⟨t :: between, congrArg (t :: ·) hbetween,
      List.cons_subset_cons t hlater⟩, hcandidates⟩

theorem put (h : s.Grows c mid) (hstart : t.isStart = false) (hend : t.isEnd = false) :
    s.Puts c t ((mid.emit t).skip 1) :=
  show s.Puts c t (({ mid with rest := mid.rest.drop 1, pos := mid.pos.move 1 } : Scanner).emit t)
    from of_emit h hstart hend (mid.pos.le_move 1)

end Puts

theorem exists_of_flowStart (hc : s.inFlow = true ∨ c ≤ s.pos.column) (h : s.flowStart t = .ok u) :
    ∃ mid, s.Grows c mid ∧ u = (mid.emit t).skip 1 := by
  obtain ⟨s₁, hs₁, h⟩ := bind_eq_ok_iff.1 h
  obtain rfl := Except.ok.inj h
  refine ⟨_, (Grows.markCandidate hc hs₁).trans (.keep none (s₁.candidate :: s₁.outer)
    (fun k hk => ?_) (fun k hk => ?_) true), rfl⟩
  · exact (List.mem_cons.1 hk).resolve_left nofun
  · rwa [List.getLast?_cons_cons] at hk

theorem exists_of_flowEnd (h : s.flowEnd t = .ok u) :
    ∃ mid, s.Grows c mid ∧ u = (mid.emit t).skip 1 := by
  obtain ⟨s₁, hs₁, h⟩ := bind_eq_ok_iff.1 h
  obtain rfl := Except.ok.inj h
  refine ⟨_, (Grows.dropCandidate hs₁).trans ?_, rfl⟩
  cases houter : s₁.outer with
  | nil => exact .allow false s₁
  | cons k outer =>
    refine .keep _ _ (fun k' hk => ?_) (fun k' hk => ?_) false
    · exact houter ▸ List.mem_cons_of_mem _ hk
    · rwa [houter, List.getLast?_cons_cons]

theorem exists_of_flowEntry (h : s.flowEntry = .ok u) :
    ∃ mid, s.Grows c mid ∧ u = (mid.emit .flowEntry).skip 1 := by
  obtain ⟨s₁, hs₁, h⟩ := bind_eq_ok_iff.1 h
  obtain rfl := Except.ok.inj h
  exact ⟨_, (Grows.dropCandidate hs₁).trans (.allow true s₁), rfl⟩

theorem exists_of_blockEntry (h : s.blockEntry = .ok u) :
    ∃ mid, s.Grows c mid ∧ u = (mid.emit .blockEntry).skip 1 := by
  obtain ⟨s₁, hs₁, h⟩ := bind_eq_ok_iff.1 h
  obtain ⟨s₂, hs₂, h⟩ := bind_eq_ok_iff.1 h
  obtain rfl := Except.ok.inj h
  exact ⟨_, ((Grows.openAtIndicator rfl hs₁).trans (.dropCandidate hs₂)).trans (.allow true s₂),
    rfl⟩

theorem exists_of_keyMark (h : s.keyMark = .ok u) :
    ∃ mid, s.Grows c mid ∧ u = (mid.emit .key).skip 1 := by
  obtain ⟨s₁, hs₁, h⟩ := bind_eq_ok_iff.1 h
  obtain ⟨s₂, hs₂, h⟩ := bind_eq_ok_iff.1 h
  obtain rfl := Except.ok.inj h
  exact ⟨_, ((Grows.openAtIndicator rfl hs₁).trans (.dropCandidate hs₂)).trans
    (.allow (!s₂.inFlow) s₂), rfl⟩

theorem exists_of_valueMark (h : s.valueMark = .ok u) :
    ∃ mid, s.Grows c mid ∧ u = (mid.emit .value).skip 1 := by
  cases hk : s.candidate with
  | none =>
    rw [valueMark_none hk] at h
    obtain ⟨s₁, hs₁, h⟩ := bind_eq_ok_iff.1 h
    obtain rfl := Except.ok.inj h
    exact ⟨_, (Grows.openAtIndicator rfl hs₁).trans (.allow (!s₁.inFlow) s₁), rfl⟩
  | some k =>
    rw [valueMark_some hk] at h
    obtain rfl := Except.ok.inj h
    have hkey : s.Grows c (s.emitAt k.before .key) :=
      .emitAt fun _ _ h => h.candidates k (hk ▸ List.mem_cons_self)
    have hopen : (s.emitAt k.before .key).Grows c ((s.emitAt k.before .key).openBlock k.pos.column
        k.before .blockMappingStart) :=
      .openBlock rfl (fun _ _ h => h.candidates k (hk ▸ List.mem_cons_self)) _
    exact ⟨_, (hkey.trans hopen).trans (.forget _ false), rfl⟩

theorem puts_of_plainToken (hc : s.inFlow = true ∨ c ≤ s.pos.column) (h : s.plainToken = .ok u) :
    ∃ text, s.Puts c (.scalar .plain text) u := by
  obtain ⟨s₁, hs₁, h⟩ := bind_eq_ok_iff.1 h
  obtain ⟨t, ht, h⟩ := bind_eq_ok_iff.1 h
  obtain rfl := Except.ok.inj h
  exact ⟨t.result.1, .of_emit (Grows.markCandidate hc hs₁) rfl rfl (le_plainScalar ht)⟩

theorem puts_of_blockToken {folded : Bool} (h : s.blockToken folded = .ok u) :
    ∃ style text, s.Puts c (.scalar style text) u := by
  obtain ⟨s₁, hs₁, h⟩ := bind_eq_ok_iff.1 h
  obtain ⟨t, ht, h⟩ := bind_eq_ok_iff.1 h
  obtain rfl := Except.ok.inj h
  exact ⟨_, t.result, .of_emit (Grows.dropCandidate hs₁) rfl rfl
    (s₁.pos.le_next.trans (le_blockScalar ht))⟩

theorem closeBlocks_finished (column : Option ℕ) (s : Scanner) :
    (s.closeBlocks column).finished = s.finished := by
  unfold closeBlocks
  split <;> rfl

theorem subset_closeBlocks (column : Option ℕ) (s : Scanner) :
    s.tokens ⊆ (s.closeBlocks column).tokens := by
  unfold closeBlocks
  split
  · exact fun _ h => h
  · exact fun _ h => List.mem_append_right _ h

/-- What an action does: it puts in a mark, or another token inside the document. -/
structure Performs (c : ℕ) (s u : Scanner) : Prop where
  finished : u.finished = s.finished
  subset : s.tokens ⊆ u.tokens
  counted : s.Counted → u.Counted
  cases : (∃ t ∈ u.tokens, t.isMark = true) ∨ ∃ t, t.isEnd = false ∧ s.Puts c t u

theorem Performs.of_grows (hg : s.Grows c mid) (h : mid.Performs c u) : s.Performs c u where
  finished := h.finished.trans hg.finished
  subset _ ht := h.subset (hg.subset ht)
  counted := h.counted ∘ hg.counted
  cases := h.cases.imp_right fun ⟨t, ht, hputs⟩ => by
    obtain ⟨before, hu, hsub⟩ := hputs.tokens
    exact ⟨t, ht, hputs.finished.trans hg.finished, hg.pos ▸ hputs.place,
      ⟨before, hu, fun _ ha => hsub (hg.subset ha)⟩, hputs.counted ∘ hg.counted,
      hputs.level ∘ hg.level, hputs.rooted ∘ hg.rooted, hputs.held ∘ hg.held,
      hputs.behind ∘ hg.behind⟩

theorem Puts.performs (h : s.Puts c t u) (ht : t.isEnd = false) : s.Performs c u where
  finished := h.finished
  subset := by
    obtain ⟨before, hu, hsub⟩ := h.tokens
    exact hu ▸ fun a ha => List.mem_cons_of_mem t (hsub ha)
  counted := h.counted
  cases := .inr ⟨t, ht, h⟩

theorem performs_of_keyStart {α : Type} {f : Scanner → Except Error (Taken α)} {g : α → Token}
    (hstart : ∀ a, (g a).isStart = false) (hend : ∀ a, (g a).isEnd = false)
    (hf : ∀ s t, f s = .ok t → s.pos.place ≤ t.pos.place)
    (hc : s.inFlow = true ∨ c ≤ s.pos.column)
    (h : s.keyStart (fun s => do
      let t ← f s
      return { t with result := g t.result }) = .ok u) : s.Performs c u := by
  obtain ⟨s₁, hs₁, h⟩ := bind_eq_ok_iff.1 h
  obtain ⟨t, ht, h⟩ := bind_eq_ok_iff.1 h
  obtain ⟨a, ha, ht⟩ := bind_eq_ok_iff.1 ht
  obtain rfl := Except.ok.inj ht
  obtain rfl := Except.ok.inj h
  exact Puts.performs (.of_emit (Grows.markCandidate hc hs₁) (hstart a.result) (hend a.result)
    (hf s₁ a ha)) (hend a.result)

/-- A mark closes all blocks. -/
theorem performs_of_atDocument (h : s.atDocument = .ok mid) (ht : t.isMark = true)
    (hu : u.tokens = t :: mid.tokens) (hcount : u.count = mid.count + 1)
    (hfinished : u.finished = mid.finished) : s.Performs c u := by
  obtain ⟨s₁, hs₁, h⟩ := bind_eq_ok_iff.1 h
  obtain rfl := Except.ok.inj h
  obtain ⟨-, rfl⟩ := dropCandidate_eq_ok hs₁
  refine ⟨hfinished.trans (closeBlocks_finished none s), ?_, fun hs => ?_, .inl ⟨t, ?_, ht⟩⟩
  · exact hu ▸ fun a ha => List.mem_cons_of_mem t (subset_closeBlocks none s ha)
  · rw [Counted, hcount, hu, List.length_cons]
    exact congrArg (· + 1) (hs.closeBlocks none)
  · exact hu ▸ List.mem_cons_self

theorem performs_of_perform {a : Action} (hc : s.inFlow = true ∨ c ≤ s.pos.column)
    (h : a.perform s = .ok u) : s.Performs c u := by
  cases a with
  | directive =>
    obtain ⟨s₁, hs₁, h⟩ := bind_eq_ok_iff.1 h
    obtain ⟨d, -, h⟩ := bind_eq_ok_iff.1 h
    obtain rfl := Except.ok.inj h
    exact performs_of_atDocument hs₁ (t := .directive d.result) rfl rfl rfl rfl
  | document start =>
    obtain ⟨s₁, hs₁, h⟩ := bind_eq_ok_iff.1 h
    obtain rfl := Except.ok.inj h
    refine performs_of_atDocument hs₁ ?_ rfl rfl rfl
    cases start <;> rfl
  | opening mapping =>
    obtain ⟨mid, hmid, rfl⟩ := exists_of_flowStart hc h
    cases mapping <;> exact (Puts.put hmid rfl rfl).performs rfl
  | closing mapping =>
    obtain ⟨mid, hmid, rfl⟩ := exists_of_flowEnd (c := c) h
    cases mapping <;> exact (Puts.put hmid rfl rfl).performs rfl
  | comma =>
    obtain ⟨mid, hmid, rfl⟩ := exists_of_flowEntry (c := c) h
    exact (Puts.put hmid rfl rfl).performs rfl
  | entry =>
    obtain ⟨mid, hmid, rfl⟩ := exists_of_blockEntry (c := c) h
    exact (Puts.put hmid rfl rfl).performs rfl
  | key =>
    obtain ⟨mid, hmid, rfl⟩ := exists_of_keyMark (c := c) h
    exact (Puts.put hmid rfl rfl).performs rfl
  | value =>
    obtain ⟨mid, hmid, rfl⟩ := exists_of_valueMark (c := c) h
    exact (Puts.put hmid rfl rfl).performs rfl
  | aliasMark =>
    exact performs_of_keyStart (f := fun s => anchorName s.rest.tail s.pos.next)
      (g := .alias) (fun _ => rfl) (fun _ => rfl)
      (fun s _ ht => s.pos.le_next.trans (le_anchorName ht)) hc h
  | anchorMark =>
    exact performs_of_keyStart (f := fun s => anchorName s.rest.tail s.pos.next)
      (g := .anchor) (fun _ => rfl) (fun _ => rfl)
      (fun s _ ht => s.pos.le_next.trans (le_anchorName ht)) hc h
  | tagMark =>
    exact performs_of_keyStart (f := fun s => tagProperty s.inFlow s.rest.tail s.pos.next)
      (g := fun tag => .tag tag.1 tag.2) (fun _ => rfl) (fun _ => rfl)
      (fun s _ ht => s.pos.le_next.trans (le_tagProperty ht)) hc h
  | block folded =>
    obtain ⟨style, text, hputs⟩ := puts_of_blockToken (c := c) h
    exact hputs.performs rfl
  | singleQuote =>
    exact performs_of_keyStart (f := fun s => singleQuoted s.rest.tail s.pos.next .none [])
      (g := .scalar .quoted) (fun _ => rfl) (fun _ => rfl)
      (fun s _ ht => s.pos.le_next.trans (le_singleQuoted ht)) hc h
  | doubleQuote =>
    exact performs_of_keyStart (f := fun s => doubleQuoted s.rest.tail s.pos.next .none [])
      (g := .scalar .quoted) (fun _ => rfl) (fun _ => rfl)
      (fun s _ ht => s.pos.le_next.trans (le_doubleQuoted ht)) hc h
  | plain =>
    obtain ⟨text, hputs⟩ := puts_of_plainToken hc h
    exact hputs.performs rfl

end Scanner
end Yaml
end LayeredConfig
