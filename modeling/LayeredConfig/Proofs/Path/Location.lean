/-
The shape of a location, and what joining two paths does to their locations.

A location is the root or some steps up, and names from there; `IsLocation` says so of a list of
parts by what may follow what, so that it is inherited by what is left of a location below another
one. Such a list is the location of the path that it spells (`parts_normalize`), and walking on
from one location through another one just puts the two together (`walk_of_isLocation`). The
location of `p / q` is where a walk along `q` ends that starts at the location of `p`
(`location_join`).
-/
import Mathlib.Data.List.Induction
import LayeredConfig.Proofs.Path.Spelling

namespace LayeredConfig
namespace Path

/-! ## The shape of a location -/

/-- `b` may stand somewhere after `a` in a location: a name may follow anything, and a step up may
follow a step up. -/
def Part.Precedes (a b : Part) : Prop := (∃ n, b = .name n) ∨ (a = .up ∧ b = .up)

/-- A list of parts that a walk can leave over. -/
structure IsLocation (loc : List Part) : Prop where
  lasting : ∀ part ∈ loc, part.Lasting
  ordered : loc.Pairwise Part.Precedes

theorem isLocation_nil : IsLocation [] := ⟨by simp, .nil⟩

theorem IsLocation.sublist {loc rest : List Part} (h : IsLocation loc) (hs : rest.Sublist loc) :
    IsLocation rest :=
  ⟨fun part hp => h.lasting part (hs.subset hp), h.ordered.sublist hs⟩

theorem IsLocation.append {base rest : List Part} (h : IsLocation (base ++ rest)) :
    IsLocation rest :=
  h.sublist (List.sublist_append_right base rest)

theorem IsLocation.concat {loc : List Part} {part : Part} (h : IsLocation loc)
    (hp : part.Lasting) (hf : ∀ a ∈ loc, Part.Precedes a part) : IsLocation (loc ++ [part]) := by
  refine ⟨fun a ha => ?_, List.pairwise_append.2 ⟨h.ordered, by simp, fun a ha b hb => ?_⟩⟩
  · rcases List.mem_append.1 ha with ha | ha
    · exact h.lasting a ha
    · rw [List.mem_singleton.1 ha]
      exact hp
  · rw [List.mem_singleton.1 hb]
    exact hf a ha

theorem IsLocation.eq_up_of_concat {loc : List Part} (h : IsLocation (loc ++ [.up])) :
    ∀ a ∈ loc, a = .up := by
  intro a ha
  have hf := (List.pairwise_append.1 h.ordered).2.2 a ha .up (List.mem_singleton_self _)
  rcases hf with ⟨n, hn⟩ | ⟨he, -⟩
  · exact absurd hn (by simp)
  · exact he

/-- After a part that is not a step up, a location has only names. -/
theorem IsLocation.exists_name {base rest : List Part} (h : IsLocation (base ++ rest))
    {a : Part} (ha : a ∈ base) (hne : a ≠ .up) {b : Part} (hb : b ∈ rest) : ∃ n, b = .name n := by
  rcases (List.pairwise_append.1 h.ordered).2.2 a ha b hb with hn | ⟨he, -⟩
  · exact hn
  · exact absurd he hne

/-- The root stands only at the start of a location, and then the rest are names. -/
theorem IsLocation.eq_nil_of_root {base rest : List Part}
    (h : IsLocation (base ++ .root :: rest)) : base = [] := by
  cases base with
  | nil => rfl
  | cons a base =>
    have hf := (List.pairwise_append.1 h.ordered).2.2 a List.mem_cons_self .root
      List.mem_cons_self
    rcases hf with ⟨n, hn⟩ | ⟨-, he⟩
    · exact absurd hn (by simp)
    · exact absurd he (by simp)

theorem IsLocation.ne_root_of_tail {first : Part} {rest : List Part}
    (h : IsLocation (first :: rest)) : ∀ part ∈ rest, part ≠ .root := by
  intro part hp
  rcases (List.pairwise_cons.1 h.ordered).1 part hp with ⟨n, rfl⟩ | ⟨-, rfl⟩ <;> simp

/-! ## Walking -/

/-- A step keeps the shape. The stack of a walk has the last part first. -/
theorem isLocation_step {walked : List Part} (h : IsLocation walked.reverse) {part : Part}
    (hp : part.Lasting) (hr : part ≠ .root) : IsLocation (step walked part).reverse := by
  cases part with
  | root => exact absurd rfl hr
  | here => exact absurd hp id
  | name n =>
    show IsLocation (Part.name n :: walked).reverse
    rw [List.reverse_cons]
    exact h.concat hp fun _ _ => .inl ⟨n, rfl⟩
  | up =>
    cases walked with
    | nil => exact ⟨by simp [step, Part.Lasting], by simp [step]⟩
    | cons top rest =>
      cases top with
      | root => exact h
      | here => exact absurd rfl (Part.ne_here_of_lasting (h.lasting .here (by simp)))
      | name n => exact h.sublist (by simp [step])
      | up =>
        show IsLocation (Part.up :: Part.up :: rest).reverse
        rw [List.reverse_cons]
        rw [List.reverse_cons] at h ⊢
        refine h.concat trivial fun a ha => .inr ⟨?_, rfl⟩
        rcases List.mem_append.1 ha with ha | ha
        · exact h.eq_up_of_concat a ha
        · exact List.mem_singleton.1 ha

theorem isLocation_walk {walked : List Part} (h : IsLocation walked.reverse) {ps : List Part}
    (hps : ∀ part ∈ ps, part.Lasting ∧ part ≠ .root) :
    IsLocation (ps.foldl step walked).reverse := by
  induction ps generalizing walked with
  | nil => exact h
  | cons part ps ih =>
    have hp := hps part List.mem_cons_self
    exact ih (isLocation_step h hp.1 hp.2) fun q hq => hps q (List.mem_cons_of_mem _ hq)

theorem walk_filter (ps walked : List Part) :
    (ps.filter (· ≠ .here)).foldl step walked = ps.foldl step walked := by
  induction ps generalizing walked with
  | nil => rfl
  | cons part ps ih =>
    by_cases hp : part = .here
    · rw [hp, List.filter_cons_of_neg (by simp)]
      exact ih walked
    · rw [List.filter_cons_of_pos (by simpa using hp)]
      exact ih (step walked part)

/-- A walk from one location along the rest of another one ends there. -/
theorem walk_of_isLocation {base rest : List Part} (h : IsLocation (base ++ rest)) :
    rest.foldl step base.reverse = (base ++ rest).reverse := by
  induction rest generalizing base with
  | nil => simp
  | cons part rest ih =>
    have hstep : step base.reverse part = (base ++ [part]).reverse := by
      rw [List.reverse_append]
      cases part with
      | root => rfl
      | here => exact absurd rfl (Part.ne_here_of_lasting (h.lasting .here (by simp)))
      | name n => rfl
      | up =>
        have hup : ∀ a ∈ base.reverse, a = .up := by
          intro a ha
          refine IsLocation.eq_up_of_concat (h.sublist ?_) a (List.mem_reverse.1 ha)
          simp
        cases hb : base.reverse with
        | nil => rfl
        | cons top tail =>
          rw [hup top (hb ▸ List.mem_cons_self)]
          rfl
    have happ : base ++ part :: rest = (base ++ [part]) ++ rest := by simp
    rw [List.foldl_cons, hstep, happ]
    exact ih (happ ▸ h)

theorem location_eq_walk (p : Path) : p.location = (p.solid.foldl step []).reverse := by
  rw [location, solid, walk_filter]

theorem isLocation_location (p : Path) : IsLocation p.location := by
  rw [location_eq_walk, solid_eq, List.foldl_append]
  refine isLocation_walk ?_ fun part h => lasting_of_mem_solidPieces h
  by_cases ha : p.isAbsolute
  · rw [if_pos ha]
    exact ⟨by simp [step, Part.Lasting], by simp [step]⟩
  · rw [if_neg ha]
    exact isLocation_nil

theorem walk_nil_of_isLocation {loc : List Part} (h : IsLocation loc) :
    loc.foldl step [] = loc.reverse := by
  have hwalk := @walk_of_isLocation [] loc h
  exact hwalk

/-! ## Joining -/

theorem join_of_isAbsolute {p q : Path} (h : q.isAbsolute = true) : p / q = q := if_pos h

theorem solid_join {p q : Path} (h : q.isAbsolute = false) :
    (p / q).solid = p.solid ++ q.solid := by
  have hj : p / q = if p.units.isEmpty || p.units.getLast? == some slash then ⟨p.units ++ q.units⟩
      else ⟨p.units ++ slash :: q.units⟩ := if_neg (by simp [h])
  by_cases he : p.units = []
  · have hp : p = ⟨[]⟩ := by rw [← he]
    rw [hj, hp]
    rfl
  · have habs (tail : List NameUnit) : isAbsolute ⟨p.units ++ tail⟩ = p.isAbsolute := by
      obtain ⟨u, us, hu⟩ := List.exists_cons_of_ne_nil he
      simp [isAbsolute, hu]
    rw [hj, solid_eq p, solid_eq q, h, List.append_assoc]
    by_cases hl : p.units.getLast? = some slash
    · obtain ⟨us, hus⟩ := List.getLast?_eq_some_iff.1 hl
      rw [if_pos (by simp [hl]), solid_eq, habs]
      show _ ++ solidPieces (p.units ++ q.units) = _
      rw [hus, List.append_assoc, List.singleton_append, solidPieces_append, solidPieces_append]
      simp [solidPieces_nil]
    · rw [if_neg (by simp [he, hl]), solid_eq, habs]
      show _ ++ solidPieces (p.units ++ slash :: q.units) = _
      rw [solidPieces_append]
      simp

theorem location_join {p q : Path} (h : q.isAbsolute = false) :
    (p / q).location = (q.solid.foldl step p.location.reverse).reverse := by
  rw [location_eq_walk, location_eq_walk p, solid_join h, List.foldl_append, List.reverse_reverse]

/-- Reading a path that spells the rest of a location below `p` leads to that location. -/
theorem location_join_of_solid {p q : Path} {rest : List Part} (hq : q.solid = rest)
    (h : IsLocation (p.location ++ rest)) : (p / q).location = p.location ++ rest := by
  by_cases ha : q.isAbsolute = true
  · have hroot : .root ∈ rest := by
      rw [← hq]
      exact root_mem_solid.2 ha
    obtain ⟨before, after, hr⟩ := List.append_of_mem hroot
    have hsplit : IsLocation ((p.location ++ before) ++ .root :: after) := by
      rw [hr] at h
      simpa using h
    have hnil : p.location ++ before = [] := hsplit.eq_nil_of_root
    have hp : p.location = [] := (List.append_eq_nil_iff.1 hnil).1
    rw [hp, List.nil_append] at h ⊢
    rw [join_of_isAbsolute ha, location_eq_walk, hq, walk_nil_of_isLocation h, List.reverse_reverse]
  · rw [location_join (by simpa using ha), hq, walk_of_isLocation h, List.reverse_reverse]

/-! ### What a join keeps -/

theorem step_cases (walked : List Part) (part : Part) :
    step walked part = walked ∨ step walked part = part :: walked ∨
      step walked part = walked.tail := by
  cases part with
  | root => exact .inr (.inl rfl)
  | here => exact .inl rfl
  | name n => exact .inr (.inl rfl)
  | up =>
    cases walked with
    | nil => exact .inr (.inl rfl)
    | cons top rest =>
      cases top with
      | root => exact .inl rfl
      | here => exact .inr (.inl rfl)
      | up => exact .inr (.inl rfl)
      | name n => exact .inr (.inr rfl)

/-- A walk keeps some of what is there at the start and adds some of the parts it goes along. -/
theorem walk_split (ps walked : List Part) :
    ∃ kept added, (ps.foldl step walked).reverse = kept ++ added ∧ kept <+: walked.reverse ∧
      ∀ part ∈ added, part ∈ ps := by
  -- The last part is the one to look at, since a step changes the end of the walk.
  induction ps using List.reverseRecOn with
  | nil =>
    refine ⟨walked.reverse, [], (List.append_nil _).symm, List.prefix_rfl, ?_⟩
    intro part hpart
    exact absurd hpart List.not_mem_nil
  | append_singleton ps part ih =>
    obtain ⟨kept, added, hwalk, hkept, hadded⟩ := ih
    have hmem : ∀ q ∈ added, q ∈ ps ++ [part] := fun q hq =>
      List.mem_append_left _ (hadded q hq)
    rw [List.foldl_append, List.foldl_cons, List.foldl_nil]
    rcases step_cases (ps.foldl step walked) part with hs | hs | hs
    · rw [hs]
      exact ⟨kept, added, hwalk, hkept, hmem⟩
    · refine ⟨kept, added ++ [part], ?_, hkept, ?_⟩
      · rw [hs, List.reverse_cons, hwalk, List.append_assoc]
      · intro q hq
        rcases List.mem_append.1 hq with hq | hq
        · exact hmem q hq
        · exact List.mem_append_right ps hq
    · have htail : (ps.foldl step walked).tail.reverse = (kept ++ added).dropLast := by
        rw [← hwalk, List.dropLast_reverse]
      rw [hs, htail]
      by_cases ha : added = []
      · refine ⟨kept.dropLast, [], ?_, (List.dropLast_prefix kept).trans hkept, ?_⟩
        · rw [ha, List.append_nil, List.append_nil]
        · intro q hq
          exact absurd hq List.not_mem_nil
      · refine ⟨kept, added.dropLast, List.dropLast_append_of_ne_nil ha, hkept, ?_⟩
        intro q hq
        exact hmem q (List.dropLast_subset added hq)

theorem mem_solid_of_mem_location {p : Path} {part : Part} (h : part ∈ p.location) :
    part ∈ p.solid := by
  obtain ⟨kept, added, hwalk, hkept, hadded⟩ := walk_split p.solid []
  obtain rfl : kept = [] := List.prefix_nil.1 hkept
  rw [location_eq_walk, hwalk, List.nil_append] at h
  exact hadded part h

theorem location_join_split (p q : Path) :
    ∃ kept added, (p / q).location = kept ++ added ∧ kept <+: p.location ∧
      ∀ part ∈ added, part ∈ q.solid := by
  by_cases ha : q.isAbsolute = true
  · refine ⟨[], q.location, ?_, List.nil_prefix, fun part => mem_solid_of_mem_location⟩
    rw [join_of_isAbsolute ha, List.nil_append]
  · obtain ⟨kept, added, hwalk, hkept, hadded⟩ := walk_split q.solid p.location.reverse
    rw [List.reverse_reverse] at hkept
    refine ⟨kept, added, ?_, hkept, hadded⟩
    rw [location_join (by simpa using ha), hwalk]

/-- A part that has a unit which is not in `q` is on the way to `p`. -/
theorem isPrefix_of_not_mem {p q : Path} {before after : List Part} {part : Part} {u : NameUnit}
    (hloc : (p / q).location = before ++ part :: after) (hpart : u ∈ part.spelling)
    (hq : u ∉ q.units) : before ++ [part] <+: p.location := by
  obtain ⟨kept, added, hsplit, hkept, hadded⟩ := location_join_split p q
  have hnot : part ∉ added := by
    intro hmem
    exact hq (mem_units_of_mem_solid (hadded part hmem) u hpart)
  rw [hsplit] at hloc
  rcases List.append_eq_append_iff.1 hloc with ⟨mid, -, hmid⟩ | ⟨mid, hmid, htail⟩
  · rw [hmid] at hnot
    exact absurd (List.mem_append_right mid List.mem_cons_self) hnot
  · cases mid with
    | nil =>
      rw [List.nil_append] at htail
      rw [← htail] at hnot
      exact absurd List.mem_cons_self hnot
    | cons q mid =>
      rw [List.cons_append, List.cons.injEq] at htail
      refine List.IsPrefix.trans ⟨mid, ?_⟩ hkept
      rw [hmid, ← htail.1, List.append_assoc]
      rfl

theorem walk_up {base names : List Part} (h : ∀ part ∈ names, ∃ n, part = .name n) :
    (List.replicate names.length .up).foldl step (names ++ base) = base := by
  induction names with
  | nil => rfl
  | cons part names ih =>
    obtain ⟨n, rfl⟩ := h part List.mem_cons_self
    rw [List.length_cons, List.replicate_succ, List.foldl_cons]
    exact ih fun q hq => h q (List.mem_cons_of_mem _ hq)

/-! ## The plainest path to a location -/

theorem ofParts_of_ne_root {part : Part} {ps : List Part} (h : part ≠ .root) :
    ofParts (part :: ps) = ⟨[slash].intercalate ((part :: ps).map Part.spelling)⟩ := by
  cases part with
  | root => exact absurd rfl h
  | here => rfl
  | up => rfl
  | name n => rfl

theorem solid_ofParts {loc : List Part} (h : IsLocation loc) : (ofParts loc).solid = loc := by
  cases loc with
  | nil => rfl
  | cons part ps =>
    have htail : ∀ q ∈ ps, q.Lasting ∧ q ≠ .root := fun q hq =>
      ⟨h.lasting q (List.mem_cons_of_mem _ hq), h.ne_root_of_tail q hq⟩
    by_cases hr : part = .root
    · subst hr
      have ha : (ofParts (.root :: ps)).isAbsolute = true := rfl
      rw [solid_eq, ha]
      show [Part.root] ++ solidPieces (slash :: [slash].intercalate (ps.map Part.spelling)) = _
      rw [solidPieces_slash, solidPieces_between htail]
      rfl
    · have hp : part.Lasting := h.lasting part List.mem_cons_self
      rw [ofParts_of_ne_root hr, solid_eq, isAbsolute_between hp hr]
      refine solidPieces_between fun q hq => ?_
      rcases List.mem_cons.1 hq with rfl | hq
      · exact ⟨hp, hr⟩
      · exact htail q hq

/-- A path that does not start with a `.` has only parts that count. -/
theorem parts_eq_solid {p : Path} (h : (pieces p.units).head? ≠ some dot) : p.parts = p.solid := by
  refine (List.filter_eq_self.2 fun part hp => ?_).symm
  suffices hn : part ≠ .here by simpa using hn
  rintro rfl
  rw [parts] at hp
  cases hpieces : pieces p.units with
  | nil => exact pieces_ne_nil _ hpieces
  | cons first rest =>
    rw [hpieces] at hp h
    rcases List.mem_append.1 hp with hp | hp
    · by_cases ha : p.isAbsolute
      · simp [ha] at hp
      · cases first with
        | nil => simp [ha, Part.ofPiece] at hp
        | cons u us =>
          have hd : u :: us ≠ dot := fun e => h (by rw [e]; rfl)
          rw [if_neg ha, Part.ofPiece_of_ne_nil (List.cons_ne_nil u us), if_neg hd,
            Option.toList_some, List.mem_singleton] at hp
          split at hp <;> exact absurd hp (by simp)
    · simp at hp

theorem parts_ofParts {loc : List Part} (h : IsLocation loc) : (ofParts loc).parts = loc := by
  have hs := solid_ofParts h
  rw [parts_eq_solid, hs]
  cases loc with
  | nil => decide
  | cons part ps =>
    by_cases hr : part = .root
    · subst hr
      show (pieces (slash :: [slash].intercalate (ps.map Part.spelling))).head? ≠ some dot
      rw [pieces_slash]
      simp [dot]
    · have hne (q : Part) (hq : q ∈ part :: ps) : q.Lasting ∧ q ≠ .root := by
        refine ⟨h.lasting q hq, ?_⟩
        rcases List.mem_cons.1 hq with rfl | hq
        · exact hr
        · exact h.ne_root_of_tail q hq
      rw [ofParts_of_ne_root hr]
      show (pieces ([slash].intercalate ((part :: ps).map Part.spelling))).head? ≠ some dot
      rw [pieces_between (by simp)]
      · simpa using Part.spelling_ne_dot (hne part List.mem_cons_self).1
      · intro n hn
        obtain ⟨q, hq, rfl⟩ := List.mem_map.1 hn
        exact Part.slash_not_mem_spelling (hne q hq).1 (hne q hq).2

theorem parts_normalize (p : Path) : p.normalize.parts = p.location :=
  parts_ofParts (isLocation_location p)

theorem normalize_eq_iff {p q : Path} : p.normalize = q.normalize ↔ p.location = q.location := by
  constructor
  · intro h
    rw [← parts_normalize, ← parts_normalize, h]
  · intro h
    rw [normalize, normalize, h]

end Path
end LayeredConfig
