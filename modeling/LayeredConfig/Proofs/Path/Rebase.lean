/-
Rebasing a path keeps its meaning.

The text of a rebased value is what is left of its location below the root, so reading it from the
root leads back to that location (`location_rebase`). What the result is depends on nothing else
(`rebase_congr`). Both together make the result a name of the location: two values get the same
text exactly if they point to the same place, which `rebase_canonical` puts together with when a
value is refused.
-/
import LayeredConfig.Proofs.Path.Location

namespace LayeredConfig

/-! ## Names as texts -/

theorem NameUnit.eq_char_of_char? {u : NameUnit} {c : Char} (h : u.char? = some c) :
    u = .char c := by
  cases u with
  | char d =>
    obtain rfl := Option.some.inj h
    rfl
  | stray b => simp [NameUnit.char?] at h

theorem NameUnit.map_char_of_mapM {us : List NameUnit} {cs : List Char}
    (h : us.mapM NameUnit.char? = some cs) : cs.map NameUnit.char = us := by
  induction us generalizing cs with
  | nil =>
    obtain rfl := Option.some.inj h
    rfl
  | cons u us ih =>
    rw [List.mapM_cons, Option.bind_eq_bind, Option.bind_eq_some_iff] at h
    obtain ⟨c, hc, h⟩ := h
    rw [Option.bind_eq_bind, Option.bind_eq_some_iff] at h
    obtain ⟨cs', hcs, h⟩ := h
    obtain rfl := Option.some.inj h
    rw [List.map_cons, ih hcs, NameUnit.eq_char_of_char? hc]

theorem Name.text?_ofString (s : String) : Name.text? (Name.ofString s) = some s := by
  have hall : ∀ cs : List Char, (cs.map NameUnit.char).mapM NameUnit.char? = some cs := by
    intro cs
    induction cs with
    | nil => rfl
    | cons c cs ih =>
      rw [List.map_cons, List.mapM_cons, ih]
      rfl
  unfold text? ofString
  rw [hall, Option.map_some, String.ofList_toList]

theorem Name.ofString_of_text? {n : Name} {s : String} (h : Name.text? n = some s) :
    Name.ofString s = n := by
  obtain ⟨cs, hcs, rfl⟩ := Option.map_eq_some_iff.1 h
  rw [Name.ofString, String.toList_ofList]
  exact NameUnit.map_char_of_mapM hcs

theorem Name.ofString_intercalate (ss : List String) :
    Name.ofString ("/".intercalate ss) = [Path.slash].intercalate (ss.map Name.ofString) := by
  rw [Name.ofString, String.toList_intercalate]
  induction ss with
  | nil => rfl
  | cons s ss ih =>
    cases ss with
    | nil => simp [Name.ofString]
    | cons t ts =>
      simp only [List.map_cons, List.intercalate_cons_cons, List.map_append] at ih ⊢
      rw [ih]
      rfl

namespace Path

/-! ## The text of what is left of a location -/

theorem spellings_of_relativeText? {rest : List Part} {text : String}
    (h : relativeText? rest = some text) :
    ∃ ss : List String, ss.map Name.ofString = rest.map Part.spelling ∧
      text = if rest = [] then "." else "/".intercalate ss := by
  obtain ⟨ss, hss, rfl⟩ := Option.map_eq_some_iff.1 h
  have hmap : ss.map Name.ofString = rest.map Part.spelling := by
    clear h
    induction rest generalizing ss with
    | nil =>
      obtain rfl := Option.some.inj hss
      rfl
    | cons part rest ih =>
      rw [List.mapM_cons, Option.bind_eq_bind, Option.bind_eq_some_iff] at hss
      obtain ⟨s, hs, hss⟩ := hss
      rw [Option.bind_eq_bind, Option.bind_eq_some_iff] at hss
      obtain ⟨ss', hss', hcons⟩ := hss
      obtain rfl := Option.some.inj hcons
      rw [List.map_cons, List.map_cons, ih ss' hss', Name.ofString_of_text? hs]
  refine ⟨ss, hmap, ?_⟩
  cases ss with
  | nil =>
    have hrest : rest = [] := by simpa using hmap.symm
    rw [if_pos hrest]
  | cons s ss =>
    have hrest : rest ≠ [] := by
      rintro rfl
      simp at hmap
    rw [if_neg hrest]

theorem relativeText?_of_spellings {rest : List Part} {ss : List String} (hne : rest ≠ [])
    (h : ss.map Name.ofString = rest.map Part.spelling) :
    relativeText? rest = some ("/".intercalate ss) := by
  have htexts : rest.mapM (fun part : Part => part.spelling.text?) = some ss := by
    clear hne
    induction rest generalizing ss with
    | nil =>
      rw [List.map_nil, List.map_eq_nil_iff] at h
      rw [h]
      rfl
    | cons part rest ih =>
      cases ss with
      | nil => exact absurd h (by simp)
      | cons s ss =>
        rw [List.map_cons, List.map_cons, List.cons.injEq] at h
        rw [List.mapM_cons, ih h.2, ← h.1, Name.text?_ofString]
        rfl
  unfold relativeText?
  rw [htexts]
  cases ss with
  | nil =>
    rw [List.map_nil] at h
    exact absurd (List.map_eq_nil_iff.1 h.symm) hne
  | cons s ss => rfl

/-- The text spells the parts that it was made of. With nothing left it is `.`, which does not
count, and a root at the start is spelled by two slashes. -/
theorem solid_of_relativeText? {rest : List Part} {text : String} (h : IsLocation rest)
    (ht : relativeText? rest = some text) : (ofString text).solid = rest := by
  obtain ⟨ss, hss, rfl⟩ := spellings_of_relativeText? ht
  cases rest with
  | nil =>
    rw [if_pos rfl]
    rfl
  | cons part ps =>
    have hunits : ofString (if part :: ps = [] then "." else "/".intercalate ss) =
        ⟨[slash].intercalate ((part :: ps).map Part.spelling)⟩ := by
      rw [if_neg (List.cons_ne_nil part ps), ofString, Name.ofString_intercalate, hss]
    rw [hunits]
    by_cases hr : part = .root
    · subst hr
      have htail : ∀ q ∈ ps, q.Lasting ∧ q ≠ .root := fun q hq =>
        ⟨h.lasting q (List.mem_cons_of_mem _ hq), h.ne_root_of_tail q hq⟩
      cases ps with
      | nil => rfl
      | cons q qs =>
        rw [solid_eq]
        show [Part.root] ++
          solidPieces (slash :: slash :: [slash].intercalate ((q :: qs).map Part.spelling)) = _
        rw [solidPieces_slash, solidPieces_slash, solidPieces_between htail]
        rfl
    · rw [← ofParts_of_ne_root hr]
      exact solid_ofParts h

/-- The text of a location up to some part is the start of the text of the location. -/
theorem relativeText?_upto {before after : List Part} {part : Part} {r : String}
    (h : relativeText? (before ++ part :: after) = some r) :
    ∃ text, relativeText? (before ++ [part]) = some text ∧
      Name.ofString text = (before.map Part.spelling).flatMap (· ++ [slash]) ++ part.spelling ∧
      Name.ofString r = (before.map Part.spelling).flatMap (· ++ [slash]) ++
        (part.spelling ++ (after.map Part.spelling).flatMap (slash :: ·)) := by
  obtain ⟨ss, hss, rfl⟩ := spellings_of_relativeText? h
  rw [if_neg (by simp), Name.ofString_intercalate, hss, List.map_append, List.map_cons,
    intercalate_append_cons]
  rw [List.map_append, List.map_cons] at hss
  obtain ⟨ss₁, ss₂, rfl, h₁, h₂⟩ := List.map_eq_append_iff.1 hss
  obtain ⟨s, ss₃, rfl, hs, -⟩ := List.map_eq_cons_iff.1 h₂
  have hspell : (ss₁ ++ [s]).map Name.ofString = (before ++ [part]).map Part.spelling := by
    rw [List.map_append, List.map_append, h₁, List.map_singleton, hs, List.map_singleton]
  refine ⟨_, relativeText?_of_spellings (by simp) hspell, ?_, rfl⟩
  rw [Name.ofString_intercalate, hspell, List.map_append, List.map_singleton,
    intercalate_append_cons]
  simp

/-- A unit that no part has is not in the text either, unless it is a slash or a dot. -/
theorem not_mem_of_relativeText? {rest : List Part} {r : String} {u : NameUnit}
    (h : relativeText? rest = some r) (hrest : ∀ part ∈ rest, u ∉ part.spelling)
    (hslash : u ≠ slash) (hdot : u ≠ .char '.') : u ∉ Name.ofString r := by
  obtain ⟨ss, hss, rfl⟩ := spellings_of_relativeText? h
  cases rest with
  | nil =>
    rw [if_pos rfl]
    intro hmem
    exact hdot (List.mem_singleton.1 hmem)
  | cons part rest =>
    rw [if_neg (by simp), Name.ofString_intercalate, hss, List.map_cons,
      ← List.nil_append (part.spelling :: _), intercalate_append_cons, List.flatMap_nil,
      List.nil_append, List.mem_append, not_or]
    refine ⟨hrest part List.mem_cons_self, fun hmem => ?_⟩
    obtain ⟨n, hn, hu⟩ := List.mem_flatMap.1 hmem
    obtain ⟨q, hq, rfl⟩ := List.mem_map.1 hn
    rcases List.mem_cons.1 hu with hu | hu
    · exact hslash hu
    · exact hrest q (List.mem_cons_of_mem part hq) hu

/-! ## Rebasing -/

theorem below?_eq_some_iff {base loc rest : List Part} :
    below? base loc = some rest ↔ base ++ rest = loc :=
  List.isPrefixOf?_eq_some_iff_append_eq

theorem below?_eq_none_iff {base loc : List Part} : below? base loc = none ↔ ¬ base <+: loc := by
  rw [Option.eq_none_iff_forall_ne_some]
  constructor
  · rintro h ⟨rest, hrest⟩
    exact h rest (below?_eq_some_iff.2 hrest)
  · intro h rest hrest
    exact h ⟨rest, below?_eq_some_iff.1 hrest⟩

theorem rebase_eq_ok_iff {root dir : Path} {value r : String} :
    root.rebase dir value = .ok r ↔
      ∃ rest, root.location ++ rest = (dir / ofString value).location ∧
        relativeText? rest = some r := by
  rw [rebase]
  cases hb : below? root.location (dir / ofString value).location with
  | none =>
    refine ⟨fun h => by simp at h, ?_⟩
    rintro ⟨rest, hrest, -⟩
    exact absurd ⟨rest, hrest⟩ (below?_eq_none_iff.1 hb)
  | some rest =>
    have hrest := below?_eq_some_iff.1 hb
    cases ht : relativeText? rest with
    | none =>
      refine ⟨fun h => by simp [ht] at h, ?_⟩
      rintro ⟨rest', hrest', ht'⟩
      rw [List.append_cancel_left (hrest.trans hrest'.symm), ht'] at ht
      exact absurd ht (by simp)
    | some text =>
      constructor
      · intro h
        refine ⟨rest, hrest, ?_⟩
        simpa [ht] using h
      · rintro ⟨rest', hrest', ht'⟩
        rw [List.append_cancel_left (hrest'.trans hrest.symm), ht] at ht'
        simpa [ht] using ht'

theorem rebase_eq_outsideRoot_iff {root dir path base : Path} {value : String} :
    root.rebase dir value = .error (.outsideRoot path base) ↔
      path = (dir / ofString value).normalize ∧ base = root.normalize ∧
        ¬ root.location <+: (dir / ofString value).location := by
  rw [rebase]
  cases hb : below? root.location (dir / ofString value).location with
  | none =>
    have hn := below?_eq_none_iff.1 hb
    simp only [normalize, Except.error.injEq, RebaseError.outsideRoot.injEq]
    exact ⟨fun h => ⟨h.1.symm, h.2.symm, hn⟩, fun h => ⟨h.1.symm, h.2.1.symm⟩⟩
  | some rest =>
    have hp : root.location <+: (dir / ofString value).location :=
      ⟨rest, below?_eq_some_iff.1 hb⟩
    cases ht : relativeText? rest <;> simp [ht, hp]

/-- Rebasing sees of a value only where it points. -/
theorem rebase_congr {root dir dir' : Path} {value value' : String}
    (h : (dir / ofString value).location = (dir' / ofString value').location) :
    root.rebase dir value = root.rebase dir' value' := by
  rw [rebase, rebase, h]

/-- Read from the root, a rebased value points where the value pointed. -/
theorem location_rebase {root dir : Path} {value r : String}
    (h : root.rebase dir value = .ok r) :
    (root / ofString r).location = (dir / ofString value).location := by
  obtain ⟨rest, hrest, ht⟩ := rebase_eq_ok_iff.1 h
  have hloc : IsLocation (root.location ++ rest) := hrest ▸ isLocation_location _
  rw [location_join_of_solid (solid_of_relativeText? hloc.append ht) hloc, hrest]

/-- Read from the root, a rebased value needs no rebasing. -/
theorem rebase_of_rebase {root dir : Path} {value r : String}
    (h : root.rebase dir value = .ok r) : root.rebase root r = .ok r :=
  (rebase_congr (location_rebase h)).trans h

/-- Rebasing is sound, stable and canonical, and it refuses for being outside of the root exactly
those values whose normal form does not start with the parts of the root's. -/
theorem rebase_canonical (root : Path) :
    (∀ dir value r, root.rebase dir value = .ok r →
      (root / ofString r).normalize = (dir / ofString value).normalize ∧
        root.rebase root r = .ok r) ∧
    (∀ dir value r dir' value' r',
      root.rebase dir value = .ok r → root.rebase dir' value' = .ok r' →
        (r = r' ↔ (dir / ofString value).normalize = (dir' / ofString value').normalize)) ∧
    ∀ dir value,
      (∃ path base, root.rebase dir value = .error (.outsideRoot path base)) ↔
        ¬ root.normalize.parts <+: (dir / ofString value).normalize.parts := by
  refine ⟨fun dir value r h => ?_, fun dir value r dir' value' r' h h' => ?_, fun dir value => ?_⟩
  · have hloc := location_rebase h
    exact ⟨normalize_eq_iff.2 hloc, (rebase_congr hloc).trans h⟩
  · rw [normalize_eq_iff]
    constructor
    · rintro rfl
      rw [← location_rebase h, ← location_rebase h']
    · intro hloc
      rw [rebase_congr hloc, h'] at h
      exact (Except.ok.inj h).symm
  · rw [parts_normalize, parts_normalize]
    constructor
    · rintro ⟨path, base, h⟩
      exact (rebase_eq_outsideRoot_iff.1 h).2.2
    · intro h
      exact ⟨_, _, rebase_eq_outsideRoot_iff.2 ⟨rfl, rfl, h⟩⟩

example : (ofString "/kf/app").rebase (ofString "/kf/app/overlays/prod") "./a/../../../base//" =
    .ok "base" := by rfl

end Path
end LayeredConfig
