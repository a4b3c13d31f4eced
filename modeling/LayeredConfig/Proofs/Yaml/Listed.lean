/-
Sequences that are written one below the other.

A text that is a list stays one when more lists are put below it in the same column, and then it has
the items of all of them (`Listed.append`). Only the first may have the mark of a document in front.
Where the aliases allow it, it has the values of all of them too (`parse_join`).
-/
import LayeredConfig.Proofs.Yaml.Depth
import LayeredConfig.Proofs.Yaml.Links
import LayeredConfig.Proofs.Yaml.Token.Opening

namespace LayeredConfig
namespace Yaml

/-! ## Line breaks -/

theorem unifyBreaks_append {a b : List Char} (h : ∀ r, b ≠ '\n' :: r) :
    unifyBreaks (a ++ b) = unifyBreaks a ++ unifyBreaks b := by
  fun_induction unifyBreaks a with
  | case1 r ih => exact congrArg ('\n' :: ·) ih
  | case2 r hr ih =>
    have hne : ∀ r', r ++ b = '\n' :: r' → False := by
      intro r' heq
      cases r with
      | nil => exact h r' heq
      | cons c r => exact hr r ((List.cons.inj heq).1 ▸ rfl)
    rw [List.cons_append, unifyBreaks, ih]
    · rfl
    · exact hne
  | case3 r ih => exact congrArg ('\n' :: ·) ih
  | case4 c r h1 h2 h3 ih =>
    rw [List.cons_append, unifyBreaks, ih]
    · rfl
    · exact fun _ hc _ => h2 hc
    · exact h2
    · exact h3
  | case5 => rfl

theorem getLast?_cons_lineFeed {c c' : Char} {r r' : List Char} (hc : c = '\n' → c' = '\n')
    (hnil : r = [] → r' = []) (hr : r.getLast? = some '\n' → r'.getLast? = some '\n')
    (h : (c :: r).getLast? = some '\n') : (c' :: r').getLast? = some '\n' := by
  cases r with
  | nil =>
    rw [hnil rfl, hc (Option.some.inj h)]
    rfl
  | cons d r => rw [List.getLast?_cons, hr (List.getLast?_cons_cons.symm.trans h)]; rfl

theorem getLast?_unifyBreaks {a : List Char} (h : a.getLast? = some '\n') :
    (unifyBreaks a).getLast? = some '\n' := by
  fun_induction unifyBreaks a with
  | case1 r ih =>
    rw [List.getLast?_cons_cons] at h
    exact getLast?_cons_lineFeed id (by rintro rfl; rfl) ih h
  | case2 r hr ih => exact getLast?_cons_lineFeed (fun _ => rfl) (by rintro rfl; rfl) ih h
  | case3 r ih => exact getLast?_cons_lineFeed (fun _ => rfl) (by rintro rfl; rfl) ih h
  | case4 c r h1 h2 h3 ih => exact getLast?_cons_lineFeed id (by rintro rfl; rfl) ih h
  | case5 => exact h

theorem StartsLine.append {a : List Char} (h : StartsLine a) (b : List Char) :
    StartsLine (a ++ b) ∧ lead (a ++ b) = lead a := by
  obtain ⟨n, c, r, rfl, hc⟩ := h
  have hblank : c ≠ ' ' := by rcases hc with rfl | rfl <;> decide
  rw [List.append_assoc, List.cons_append, lead_replicate_append n hblank,
    lead_replicate_append n hblank]
  exact ⟨⟨n, c, r ++ b, rfl, hc⟩, rfl⟩

theorem unifyBreaks_blanks (n : ℕ) (r : List Char) :
    unifyBreaks (List.replicate n ' ' ++ r) = List.replicate n ' ' ++ unifyBreaks r := by
  induction n with
  | zero => rfl
  | succ n ih => exact congrArg (' ' :: ·) ih

theorem startsLine_unifyBreaks {b : List Char} (h : StartsLine b) :
    StartsLine (unifyBreaks b) ∧ lead (unifyBreaks b) = lead b := by
  obtain ⟨n, c, r, rfl, hc⟩ := h
  have hblank : c ≠ ' ' := by rcases hc with rfl | rfl <;> decide
  have hunify : unifyBreaks (c :: r) = c :: unifyBreaks r := by rcases hc with rfl | rfl <;> rfl
  rw [unifyBreaks_blanks, hunify, lead_replicate_append n hblank, lead_replicate_append n hblank]
  exact ⟨⟨n, c, unifyBreaks r, rfl, hc⟩, rfl⟩

/-! ## Tokens -/

theorem tokenize_eq_ok_iff {text : String} {tokens : List Token} :
    tokenize text = .ok tokens ↔ text.toList.all isAllowed = true ∧
      ∃ w, Scanner.run (text.toList.length + 2) (.start (unifyBreaks text.toList)) = .ok w ∧
        w.tokens.reverse = tokens := by
  unfold tokenize
  by_cases hall : text.toList.all isAllowed = true
  · simp only [hall, not_true_eq_false, if_false, true_and]
    exact bind_eq_ok_iff.trans (exists_congr fun w => and_congr_right' ⟨Except.ok.inj, congrArg _⟩)
  · simp [hall]

theorem unifyBreaks_toList_append (a : String) {b : String} (hb : StartsLine b.toList) :
    unifyBreaks (a ++ b).toList = unifyBreaks a.toList ++ unifyBreaks b.toList := by
  rw [String.toList_append]
  refine unifyBreaks_append fun r hr => ?_
  obtain ⟨n, c, r', hb, hc⟩ := hb
  rw [hr] at hb
  cases n with
  | zero => rcases hc with rfl | rfl <;> exact absurd (List.cons.inj hb).1 (by decide)
  | succ n => exact absurd (List.cons.inj hb).1 (by decide)

/-- Where the first thing in a text, empty lines and comments apart, is an entry in the column `c`,
behind the tokens `head`. -/
def ListFirst (head : List Token) (c : ℕ) (text : String) : Prop :=
  ∃ s r, Scanner.Opening (unifyBreaks text.toList) head s ∧ s.AtEntry c r

theorem ListFirst.append {head : List Token} {c : ℕ} {a b : String} (h : ListFirst head c a)
    (hend : a.toList.getLast? = some '\n') (hb : StartsLine b.toList) :
    ListFirst head c (a ++ b) := by
  obtain ⟨s, r, hopening, hr⟩ := h
  have hend' := getLast?_unifyBreaks hend
  have hb' := (startsLine_unifyBreaks hb).1
  rw [ListFirst, unifyBreaks_toList_append a hb]
  exact ⟨_, _, hopening.append hend' hb', hr.within (hopening.waits hend' hb')⟩

theorem ListFirst.exists_tokens {head : List Token} {c : ℕ} {text : String}
    {tokens : List Token} (h : ListFirst head c text) (htokens : tokenize text = .ok tokens) :
    ∃ l, tokens = head ++ .blockSequenceStart :: .blockEntry :: l := by
  obtain ⟨-, w, hw, rfl⟩ := tokenize_eq_ok_iff.1 htokens
  obtain ⟨s, r, hopening, hr⟩ := h
  obtain ⟨n, v, -, hv, rfl⟩ := hopening.exists_of_run hw
  obtain ⟨ts, hts⟩ := hopening.fresh.tokens_of_run hr hv
  refine ⟨ts.reverse, ?_⟩
  rw [Scanner.within_onto, hts, List.reverse_append, hopening.reverse_eq]
  simp

theorem ListFirst.ofTokens {head : List Token} {c : ℕ} {text : String}
    (h : ListFirst head c text) : ∃ e, ∀ l, Source.ofTokens (head ++ .blockSequenceStart :: l) =
      documentOf .standard e (.blockSequenceStart :: l) := by
  obtain ⟨s, r, hopening, -⟩ := h
  cases hopening with
  | bare => exact ⟨false, fun l => rfl⟩
  | marked => exact ⟨true, fun l => rfl⟩

theorem isEnd_of_isLast {t : Token} (hlast : t.isLast = true) (hmark : t.isMark = false) :
    t.isEnd = true := by
  revert hlast hmark
  cases t <;> simp [Token.isLast, Token.isMark, Token.isEnd]

/-- The end of the last sequence stands before the end of the stream. -/
theorem isEnd_of_last {l before before' : List Token} {t : Token} (hl : ∀ t ∈ l, t.isEnd = true)
    (h : .streamEnd :: t :: before = l ++ .blockEnd :: before') : t.isEnd = true := by
  match l, h with
  | [], h => exact absurd (List.cons.inj h).1 nofun
  | [_], h =>
    obtain rfl := (List.cons.inj (List.cons.inj h).2).1
    rfl
  | _ :: u :: l, h =>
    obtain rfl : t = u := (List.cons.inj (List.cons.inj h).2).1
    exact hl t (List.mem_cons_of_mem _ List.mem_cons_self)

theorem whole_of_documentOf {handles : TagHandles} {e : Bool} {l tokens : List Token}
    {r : Option Source} (h : documentOf handles e (.blockSequenceStart :: l) = .ok r)
    (htokens : tokens.reverse = .blockSequenceStart :: l)
    (hmarks : ∀ t ∈ Token.blockSequenceStart :: l, t.isMark = false) :
    Scanner.Whole tokens := by
  have hunmarked : ∀ t ∈ tokens, t.isMark = false := fun t ht =>
    hmarks t (htokens ▸ List.mem_reverse.2 ht)
  refine ⟨hunmarked, fun t before hlast => ?_, fun later earlier hparts hne hlevel t ht => ?_⟩
  · obtain ⟨before', rest, rfl, hrest⟩ := exists_blockEnd_of_documentOf h
    have hw : tokens = rest.reverse ++ .blockEnd :: (.blockSequenceStart :: before').reverse := by
      rw [← List.reverse_reverse tokens, htokens]
      simp
    refine isEnd_of_last (fun t ht => ?_) (hlast.symm.trans hw)
    exact isEnd_of_isLast (List.all_eq_true.1 hrest t (List.mem_reverse.1 ht))
      (hunmarked t (hw ▸ List.mem_append_left _ ht))
  · obtain ⟨before, hbefore⟩ : ∃ before, earlier.reverse = .blockSequenceStart :: before := by
      rw [hparts, List.reverse_append] at htokens
      cases hearlier : earlier.reverse with
      | nil => exact absurd (List.reverse_eq_nil_iff.1 hearlier) hne
      | cons u before =>
        rw [hearlier] at htokens
        exact ⟨before, congrArg (· :: before) (List.cons.inj htokens).1⟩
    have hl : l = before ++ later.reverse := by
      rw [hparts, List.reverse_append, hbefore] at htokens
      exact (List.cons.inj htokens).2.symm
    have hcount : before.countP Token.isStart + 1 = before.count .blockEnd := by
      rw [← List.countP_reverse, ← List.count_reverse, hbefore] at hlevel
      rwa [List.countP_cons_of_pos rfl, List.count_cons_of_ne (by simp)] at hlevel
    have hall := all_isLast_of_level (hl ▸ h) hcount
    exact isEnd_of_isLast (List.all_eq_true.1 hall t (List.mem_reverse.2 ht))
      (hunmarked t (hparts ▸ List.mem_append_left _ ht))

/-- The tokens of two lists, the second one below the first. -/
theorem tokenize_append {head l l' : List Token} {c : ℕ} {a b : String} {e : Bool} {s : Source}
    (hend : a.toList.getLast? = some '\n') (hb : StartsLine b.toList) (hlead : lead b.toList ≤ c)
    (ha : ListFirst head c a) (hb' : ListFirst [] c b)
    (h : tokenize a = .ok (head ++ .blockSequenceStart :: l)) (h' : tokenize b = .ok l')
    (hmarks : ∀ t ∈ Token.blockSequenceStart :: l, t.isMark = false)
    (hmarks' : ∀ t ∈ l', t.isMark = false)
    (hs : documentOf .standard e (.blockSequenceStart :: l) = .ok (some s)) :
    ∃ before after, l = before ++ [.blockEnd, .streamEnd] ∧
      l' = .blockSequenceStart :: .blockEntry :: after ∧
      tokenize (a ++ b) =
        .ok (head ++ .blockSequenceStart :: (before ++ .blockEntry :: after)) := by
  obtain ⟨hall, v, hv, hl⟩ := tokenize_eq_ok_iff.1 h
  obtain ⟨hall', w', hw', rfl⟩ := tokenize_eq_ok_iff.1 h'
  have hend := getLast?_unifyBreaks hend
  obtain ⟨hafter, hblanks⟩ := startsLine_unifyBreaks hb
  obtain ⟨s₀, r, hopening, hr⟩ := ha
  obtain ⟨_, r', hopening', hr'⟩ := hb'
  obtain ⟨n, w, hn, hw, rfl⟩ := hopening.exists_of_run hv
  cases hopening'
  have hl : w.tokens.reverse = .blockSequenceStart :: l := by
    rw [Scanner.within_onto, List.reverse_append, hopening.reverse_eq] at hl
    exact List.append_cancel_left hl
  obtain ⟨q, hq⟩ := hopening.fresh.tokens_of_run hr hw
  obtain ⟨q', hq'⟩ := (Scanner.fresh_start _).tokens_of_run hr' hw'
  obtain ⟨ts, ts', u, k, hts, hts', hk, hu, hutokens⟩ :=
    hopening.fresh.run_append (hopening.waits hend hafter) hafter (hblanks.trans_le hlead) hr hr' hw
      hw' (whole_of_documentOf hs hl hmarks) (by simpa using hmarks')
  obtain ⟨q, rfl⟩ : ∃ q, ts = q ++ [.blockEntry, .blockSequenceStart] := by
    match q, hq.symm.trans hts with
    | [], h => exact absurd (List.cons.inj h).1 nofun
    | [_], h => exact absurd (List.cons.inj (List.cons.inj h).2).1 nofun
    | _ :: _ :: q, h => exact ⟨q, (List.cons.inj (List.cons.inj h).2).2.symm⟩
  obtain rfl : ts' = q' ++ [.blockEntry] := by
    rw [hq', List.append_cons] at hts'
    exact (List.append_cancel_right hts').symm
  have hboth := hopening.append hend hafter
  refine ⟨.blockEntry :: q.reverse, q'.reverse, ?_, by simp [hts'], ?_⟩
  · rw [hts] at hl
    simpa using hl.symm
  refine tokenize_eq_ok_iff.2 ⟨?_, u.within (.onto head), ?_, ?_⟩
  · rw [String.toList_append, List.all_append, hall, hall']
    rfl
  · rw [unifyBreaks_toList_append a hb]
    refine Scanner.run_mono ((hboth.run_eq k).trans (by rw [hu]; rfl)) ?_
    rw [String.toList_append, List.length_append]
    omega
  · rw [Scanner.within_onto, hutokens, List.reverse_append, hopening.reverse_eq]
    simp

/-! ## Lists -/

/-- A text that is a list in the column `c` with the given items, to which more may be added
below. -/
structure Listed (head : List Token) (c : ℕ) (text : String) (items : List Source) : Prop where
  ended : text.toList.getLast? = some '\n'
  first : ListFirst head c text
  tokens : ∃ l, tokenize text = .ok (head ++ .blockSequenceStart :: l) ∧
    (∀ t ∈ Token.blockSequenceStart :: l, t.isMark = false) ∧
    Source.ofTokens (head ++ .blockSequenceStart :: l) = .ok (some (.seq {} items))

namespace Listed

variable {head : List Token} {c : ℕ} {a b : String} {items items' : List Source}

theorem append (ha : Listed head c a items) (hb : Listed [] c b items')
    (hstart : StartsLine b.toList) (hlead : lead b.toList ≤ c) :
    Listed head c (a ++ b) (items ++ items') := by
  obtain ⟨l, htokens, hmarks, hs⟩ := ha.tokens
  obtain ⟨l', htokens', hmarks', hs'⟩ := hb.tokens
  obtain ⟨e, he⟩ := ha.first.ofTokens
  obtain ⟨e', he'⟩ := hb.first.ofTokens
  rw [he] at hs
  rw [he'] at hs'
  obtain ⟨before, after, rfl, hl', hboth⟩ :=
    tokenize_append ha.ended hstart hlead ha.first hb.first htokens htokens' hmarks hmarks' hs
  obtain rfl := (List.cons.inj hl').2
  obtain ⟨_, _, hitems, hitems', hdocument⟩ := documentOf_append hs hs'
  obtain rfl := (Source.seq.inj hitems).2
  obtain rfl := (Source.seq.inj hitems').2
  refine ⟨?_, ha.first.append ha.ended hstart, ⟨_, hboth, fun t ht => ?_, (he _).trans hdocument⟩⟩
  · rw [String.toList_append, List.getLast?_append, hb.ended]
    rfl
  · simp only [List.mem_cons, List.mem_append] at ht hmarks hmarks'
    rcases ht with ht | ht | ht | ht
    · exact hmarks t (.inl ht)
    · exact hmarks t (.inr (.inl ht))
    · exact hmarks' t (.inr (.inl ht))
    · exact hmarks' t (.inr (.inr ht))

theorem holds (h : Listed head c a items) : Holds a items := by
  obtain ⟨l, htokens, -, hs⟩ := h.tokens
  exact ⟨_, htokens, hs⟩

end Listed

/-- A text that may stay as it is when a list is put below it. A list in the column `c` is the first
thing in it behind the tokens `head`, and no marks of documents follow. -/
structure Extendable (head : List Token) (c : ℕ) (text : String) : Prop where
  first : ListFirst head c text
  unmarked : ∀ tokens, tokenize text = .ok tokens →
    ∀ t ∈ tokens.drop head.length, t.isMark = false

theorem extendable_of_tokens {head l : List Token} {c : ℕ} {text : String}
    (hfirst : ListFirst head c text) (htokens : tokenize text = .ok l)
    (hmarks : ∀ t ∈ l.drop head.length, t.isMark = false) : Extendable head c text := by
  refine ⟨hfirst, fun tokens' htokens' => ?_⟩
  obtain rfl := Except.ok.inj (htokens.symm.trans htokens')
  exact hmarks

theorem Extendable.listed {head : List Token} {c : ℕ} {text : String} {items : List Source}
    (h : Extendable head c text) (hend : text.toList.getLast? = some '\n')
    (hitems : Holds text items) : Listed head c text items := by
  obtain ⟨tokens, htokens, hs⟩ := hitems
  obtain ⟨l, rfl⟩ := h.first.exists_tokens htokens
  have hmarks := h.unmarked _ htokens
  rw [List.drop_left] at hmarks
  exact ⟨hend, h.first, _, htokens, hmarks, hs⟩

/-- A list in the column `c` that may be put below another. It starts with an entry, or with a
comment that stands no further right. -/
structure Appendable (c : ℕ) (text : String) : Prop where
  extendable : Extendable [] c text
  start : StartsLine text.toList
  lead_le : lead text.toList ≤ c

/-- Texts that may be put one below the other: a single one, or lists in one column whose aliases
may stand in one document. -/
inductive Joinable : List String → Prop where
  | single (a : String) : Joinable [a]
  | below {head : List Token} {c : ℕ} {a : String} {rest : List String}
      {lists : List (List Source)} (ha : Extendable head c a) (hrest : ∀ b ∈ rest, Appendable c b)
      (hlists : List.Forall₂ Holds (a :: rest) lists) (hlinks : Linkable lists) :
      Joinable (a :: rest)

theorem listed_join {head : List Token} {c : ℕ} {a : String} {rest : List String}
    {lists : List (List Source)} (hlists : List.Forall₂ Holds (a :: rest) lists)
    (hended : ∀ b ∈ a :: rest, b.toList.getLast? = some '\n') (ha : Extendable head c a)
    (hrest : ∀ b ∈ rest, Appendable c b) :
    Listed head c (String.join (a :: rest)) lists.flatten := by
  induction rest generalizing head a lists with
  | nil =>
    obtain ⟨items, lists, hitems, hnil, rfl⟩ := List.forall₂_cons_left_iff.1 hlists
    obtain rfl := List.forall₂_nil_left_iff.1 hnil
    simpa using ha.listed (hended a List.mem_cons_self) hitems
  | cons b rest ih =>
    rw [List.forall_mem_cons] at hended hrest
    obtain ⟨items, lists, hitems, hbelow, rfl⟩ := List.forall₂_cons_left_iff.1 hlists
    have hlisted := ih hbelow hended.2 hrest.1.extendable hrest.2
    have hstart := hrest.1.start.append (String.join rest).toList
    rw [← String.toList_append, ← String.join_cons] at hstart
    rw [String.join_cons, List.flatten_cons]
    exact (ha.listed hended.1 hitems).append hlisted hstart.1 (hstart.2.trans_le hrest.1.lead_le)

/-- The value of texts that are put one below the other is made of theirs. -/
theorem parse_join {texts : List String} {values : List (List Value)} (h : Joinable texts)
    (hvalues : List.Forall₂ (fun a vs => Value.parse a = .ok (.seq vs)) texts values)
    (hended : ∀ a ∈ texts, a.toList.getLast? = some '\n') :
    Value.parse (String.join texts) = .ok (.seq values.flatten) := by
  cases h with
  | single a =>
    obtain ⟨vs, rest, ha, hrest, rfl⟩ := List.forall₂_cons_left_iff.1 hvalues
    obtain rfl := List.forall₂_nil_left_iff.1 hrest
    simpa using ha
  | below ha hrest hlists hlinks =>
    exact hlinks.parse_eq (listed_join hlists hended ha hrest).holds hlists hvalues

end Yaml
end LayeredConfig
