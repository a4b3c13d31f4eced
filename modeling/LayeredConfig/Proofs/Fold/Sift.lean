/-
What a fold keeps of a list of entries.

`sift` says it by positions: an entry is kept if its key is neither known from the start nor the
key of an entry before it, or if it is of the sort that is always kept. Sifting a list in two parts
is sifting the first and then the second with the keys of the first known (`sift_append`), which is
how a run of folds sifts the entries of all its layers. `meet` is the matching list of keys.
-/
import Mathlib.Data.List.Basic
import LayeredConfig.Fold.Field

namespace LayeredConfig

/-! ## Keys that are met -/

/-- The keys that are known after some more have been met, each once. -/
def meet (known keys : List String) : List String :=
  keys.foldl (fun known key => if key ∈ known then known else known ++ [key]) known

theorem meet_nil (known : List String) : meet known [] = known := rfl

theorem meet_cons (known : List String) (key : String) (keys : List String) :
    meet known (key :: keys) = meet (if key ∈ known then known else known ++ [key]) keys := rfl

theorem meet_append (known keys more : List String) :
    meet known (keys ++ more) = meet (meet known keys) more :=
  List.foldl_append

theorem mem_meet {known keys : List String} {key : String} :
    key ∈ meet known keys ↔ key ∈ known ∨ key ∈ keys := by
  induction keys generalizing known with
  | nil => simp [meet_nil]
  | cons k keys ih =>
    rw [meet_cons, ih, List.mem_cons]
    by_cases hk : k ∈ known
    · rw [if_pos hk]
      constructor
      · rintro (h | h)
        · exact .inl h
        · exact .inr (.inr h)
      · rintro (h | rfl | h)
        · exact .inl h
        · exact .inl hk
        · exact .inr h
    · rw [if_neg hk, List.mem_append, List.mem_singleton, or_assoc]

theorem nodup_meet {known : List String} (h : known.Nodup) (keys : List String) :
    (meet known keys).Nodup := by
  induction keys generalizing known with
  | nil => exact h
  | cons k keys ih =>
    rw [meet_cons]
    by_cases hk : k ∈ known
    · rw [if_pos hk]
      exact ih h
    · rw [if_neg hk]
      refine ih (List.nodup_append.2 ⟨h, by simp, fun a ha b hb => ?_⟩)
      rw [List.mem_singleton.1 hb]
      exact fun e => hk (e ▸ ha)

theorem meet_eq_self {known keys : List String} (h : ∀ key ∈ keys, key ∈ known) :
    meet known keys = known := by
  induction keys with
  | nil => rfl
  | cons k keys ih =>
    rw [meet_cons, if_pos (h k List.mem_cons_self)]
    exact ih fun key hkey => h key (List.mem_cons_of_mem k hkey)

theorem meet_meet_self (known keys : List String) : meet (meet known keys) keys = meet known keys :=
  meet_eq_self fun _ hkey => mem_meet.2 (.inr hkey)

/-! ## Entries that are kept -/

section Sift

variable {α β : Type} (key : α → String) (always : α → Bool)

/-- The entries that are kept, in order: those whose key is neither known nor the key of an earlier
entry, and those that are always kept. -/
def sift (known : List String) (entries : List α) : List α :=
  (entries.zipIdx.filter fun (a, i) =>
    always a || (key a ∉ known && key a ∉ (entries.take i).map key)).map (·.1)

/-- The entries whose key is neither known nor the key of an earlier entry, in order. -/
abbrev novel (known : List String) (entries : List α) : List α :=
  sift key (fun _ => false) known entries

/-- The first entry is judged by what is known, the others with its key known too. -/
theorem sift_cons (known : List String) (a : α) (rest : List α) :
    sift key always known (a :: rest) =
      (if always a ∨ key a ∉ known then [a] else []) ++ sift key always (key a :: known) rest := by
  -- In front of the rest, the entry moves every position by one and is before all of them.
  have htail : (rest.zipIdx 1).filter (fun (b, i) =>
        always b || (key b ∉ known && key b ∉ ((a :: rest).take i).map key)) =
      (rest.zipIdx.filter fun (b, i) =>
        always b || (key b ∉ key a :: known && key b ∉ (rest.take i).map key)).map
          fun (b, i) => (b, i + 1) := by
    rw [List.zipIdx_succ, List.filter_map]
    congr 1
    refine List.filter_congr fun (b, i) _ => ?_
    simp only [Function.comp, List.take_succ_cons, List.map_cons, List.mem_cons, not_or,
      Bool.decide_and]
    ac_rfl
  rw [sift, List.zipIdx_cons, List.filter_cons, htail]
  by_cases hk : always a ∨ key a ∉ known
  · have hb : (always a || (decide (key a ∉ known) && true)) = true := by simpa using hk
    simp only [List.take_zero, List.map_nil, List.not_mem_nil, not_false_eq_true, decide_true]
    rw [if_pos hb, if_pos hk, sift, List.map_cons, List.map_map]
    rfl
  · have hb : ¬ (always a || (decide (key a ∉ known) && true)) = true := by simpa using hk
    simp only [List.take_zero, List.map_nil, List.not_mem_nil, not_false_eq_true, decide_true]
    rw [if_neg hb, if_neg hk, sift, List.map_map]
    rfl

theorem sift_congr {known known' : List String} (h : ∀ k, k ∈ known ↔ k ∈ known')
    (entries : List α) : sift key always known entries = sift key always known' entries := by
  simp only [sift, h]

theorem sift_append (known : List String) (entries more : List α) :
    sift key always known (entries ++ more) =
      sift key always known entries ++
        sift key always (meet known (entries.map key)) more := by
  induction entries generalizing known with
  | nil => rfl
  | cons a rest ih =>
    rw [List.cons_append, sift_cons, sift_cons, ih, List.append_assoc]
    congr 2
    refine sift_congr key always (fun k => ?_) more
    simp only [mem_meet, List.map_cons, List.mem_cons]
    rw [or_assoc, or_left_comm]

/-- Sifting does not look into an entry beyond its key and its sort. -/
theorem sift_map (g : β → α) (known : List String) (entries : List β) :
    sift key always known (entries.map g) =
      (sift (key ∘ g) (always ∘ g) known entries).map g := by
  induction entries generalizing known with
  | nil => rfl
  | cons b rest ih =>
    rw [List.map_cons, sift_cons, sift_cons, ih, List.map_append]
    by_cases hk : always (g b) ∨ key (g b) ∉ known
    · rw [if_pos hk, if_pos (by exact hk)]
      rfl
    · rw [if_neg hk, if_neg (by exact hk)]
      rfl

theorem sift_sublist (known : List String) (entries : List α) :
    (sift key always known entries).Sublist entries := by
  induction entries generalizing known with
  | nil => exact .slnil
  | cons a rest ih =>
    rw [sift_cons]
    by_cases hk : always a ∨ key a ∉ known
    · rw [if_pos hk]
      exact (ih (key a :: known)).cons_cons a
    · rw [if_neg hk]
      exact (ih (key a :: known)).cons a

/-- No key gets lost: what is not kept has a key that is known or kept. -/
theorem mem_keys_sift {known : List String} {entries : List α} {k : String} :
    k ∈ known ∨ k ∈ (sift key always known entries).map key ↔
      k ∈ known ∨ k ∈ entries.map key := by
  induction entries generalizing known with
  | nil => rfl
  | cons a rest ih =>
    have ih := @ih (key a :: known)
    simp only [List.mem_cons] at ih
    rw [sift_cons, List.map_append, List.map_cons, List.mem_append, List.mem_cons]
    by_cases hk : always a ∨ key a ∉ known
    · rw [if_pos hk, List.map_singleton, List.mem_singleton, ← or_assoc, ← or_assoc,
        or_comm (a := k ∈ known) (b := k = key a)]
      exact ih
    · have ha : key a ∈ known := by
        by_contra hn
        exact hk (.inr hn)
      have hor : (k = key a ∨ k ∈ known) ↔ k ∈ known := or_iff_right_of_imp fun e => e ▸ ha
      rw [hor] at ih
      rw [if_neg hk, List.map_nil, or_iff_right (List.not_mem_nil (a := k)),
        ← or_assoc (b := k = key a), or_comm (a := k ∈ known) (b := k = key a), hor]
      exact ih

/-- An entry is kept for being of the sort that always is, or for being the first of a new key. -/
theorem mem_sift_iff {known : List String} {entries : List α} {a : α} :
    a ∈ sift key always known entries ↔ ∃ before after, entries = before ++ a :: after ∧
      (always a ∨ key a ∉ known ∧ key a ∉ before.map key) := by
  unfold sift
  simp only [List.mem_map, List.mem_filter, Prod.exists, Bool.or_eq_true, Bool.and_eq_true,
    decide_eq_true_eq]
  constructor
  · intro ⟨a', i, ⟨hmem, hkeep⟩, ha⟩
    obtain rfl : a' = a := ha
    have hget : entries[i]? = some a' := List.mk_mem_zipIdx_iff_getElem?.1 hmem
    obtain ⟨hi, rfl⟩ := List.getElem?_eq_some_iff.1 hget
    refine ⟨entries.take i, entries.drop (i + 1), ?_, hkeep⟩
    rw [List.getElem_cons_drop, List.take_append_drop]
  · intro ⟨before, after, hsplit, hkeep⟩
    subst hsplit
    refine ⟨a, before.length, ⟨List.mk_mem_zipIdx_iff_getElem?.2 (by simp), ?_⟩, rfl⟩
    rw [List.take_left]
    exact hkeep

/-- An entry that is not always kept is kept only if its key is new. -/
theorem key_not_mem_of_mem_sift {known : List String} {entries : List α} {a : α}
    (h : a ∈ sift key always known entries) (ha : always a = false) : key a ∉ known := by
  obtain ⟨before, after, -, hkeep⟩ := (mem_sift_iff key always).1 h
  exact (hkeep.resolve_left (by simp [ha])).1

/-- An entry that is not always kept is the first of its key. -/
theorem pairwise_sift (known : List String) (entries : List α) :
    (sift key always known entries).Pairwise fun a b => always b = false → key a ≠ key b := by
  induction entries generalizing known with
  | nil => exact .nil
  | cons a rest ih =>
    have hrest := ih (key a :: known)
    rw [sift_cons]
    by_cases hk : always a ∨ key a ∉ known
    · rw [if_pos hk]
      refine List.pairwise_cons.2 ⟨fun b hb hn e => ?_, hrest⟩
      exact key_not_mem_of_mem_sift key always hb hn (e ▸ List.mem_cons_self)
    · rw [if_neg hk]
      exact hrest

/-- A list is kept as it is if none of its keys is known and each stands for the first time. -/
theorem sift_eq_self {known : List String} {entries : List α}
    (hnew : ∀ a ∈ entries, always a = false → key a ∉ known)
    (hfirst : entries.Pairwise fun a b => always b = false → key a ≠ key b) :
    sift key always known entries = entries := by
  induction entries generalizing known with
  | nil => rfl
  | cons a rest ih =>
    obtain ⟨ha, hrest⟩ := List.pairwise_cons.1 hfirst
    have hkeep : always a ∨ key a ∉ known := by
      cases halways : always a with
      | true => exact .inl rfl
      | false => exact .inr (hnew a List.mem_cons_self halways)
    have hknown : ∀ b ∈ rest, always b = false → key b ∉ key a :: known := by
      intro b hb hn hmem
      rcases List.mem_cons.1 hmem with heq | hmem
      · exact ha b hb hn heq.symm
      · exact hnew b (List.mem_cons_of_mem a hb) hn hmem
    rw [sift_cons, if_pos hkeep, ih hknown hrest, List.singleton_append]

/-- Once all keys are known, only the entries that always are get kept. -/
theorem sift_of_known {known : List String} {entries : List α}
    (h : ∀ a ∈ entries, key a ∈ known) : sift key always known entries = entries.filter always := by
  induction entries generalizing known with
  | nil => rfl
  | cons a rest ih =>
    have ha : key a ∈ known := h a List.mem_cons_self
    have hrest : ∀ b ∈ rest, key b ∈ key a :: known := fun b hb =>
      List.mem_cons_of_mem _ (h b (List.mem_cons_of_mem a hb))
    rw [sift_cons, ih hrest, List.filter_cons]
    by_cases halways : always a = true
    · rw [if_pos (.inl halways), if_pos halways]
      rfl
    · rw [if_neg (not_or.2 ⟨halways, not_not.2 ha⟩), if_neg halways]
      rfl

theorem novel_meet_self (known : List String) (entries : List α) :
    novel key (meet known (entries.map key)) entries = [] := by
  rw [novel, sift_of_known key _ fun a ha => mem_meet.2 (.inr (List.mem_map_of_mem ha))]
  exact List.filter_false entries

theorem novel_eq_self {entries : List α} (h : (entries.map key).Nodup) :
    novel key [] entries = entries := by
  refine sift_eq_self key _ (fun a _ _ => List.not_mem_nil) ?_
  exact (List.pairwise_map.1 h).imp fun hne _ => hne

end Sift

end LayeredConfig
