/-
What a path and its parts say about each other.

A walk does not move at a `.`, so what counts of a path are its other parts. They are read off its
pieces one by one, and a slash between two texts keeps the pieces of both. The parts that can stand
in a location have a spelling that is read back as the same part, so that a list of them is
determined by the path that it spells.
-/
import Mathlib.Data.List.Basic
import LayeredConfig.Path.Rebase

namespace LayeredConfig

theorem Name.ofString_injective : Function.Injective Name.ofString := fun _ _ h =>
  String.toList_injective (List.map_injective_iff.2 (fun _ _ => NameUnit.char.inj) h)

namespace Path

/-! ## Pieces -/

theorem pieces_cons {us : List NameUnit} {n : Name} {rest : List Name}
    (h : pieces us = n :: rest) (u : NameUnit) :
    pieces (u :: us) = if u = slash then [] :: n :: rest else (u :: n) :: rest := by
  unfold pieces at h ⊢
  rw [List.foldr_cons, h]

theorem pieces_eq_splitOn (us : List NameUnit) : pieces us = us.splitOn slash := by
  induction us with
  | nil => rfl
  | cons u us ih =>
    rw [List.splitOn_cons_eq_if_modifyHead, ← ih]
    cases hp : pieces us with
    | nil => exact absurd (ih ▸ hp) (List.splitOn_ne_nil slash us)
    | cons n rest =>
      rw [pieces_cons hp]
      by_cases hu : u = slash <;> simp [hu]

theorem pieces_ne_nil (us : List NameUnit) : pieces us ≠ [] := by
  rw [pieces_eq_splitOn]
  exact List.splitOn_ne_nil slash us

theorem pieces_append (us vs : List NameUnit) :
    pieces (us ++ slash :: vs) = pieces us ++ pieces vs := by
  simp only [pieces_eq_splitOn]
  exact List.splitOn_append_cons_self us vs

theorem pieces_slash (us : List NameUnit) : pieces (slash :: us) = [] :: pieces us := by
  exact pieces_append [] us

theorem pieces_between {names : List Name} (hne : names ≠ []) (h : ∀ n ∈ names, slash ∉ n) :
    pieces ([slash].intercalate names) = names := by
  rw [pieces_eq_splitOn]
  exact List.splitOn_intercalate slash h hne

theorem slash_not_mem_of_mem_pieces {us : List NameUnit} {n : Name} (h : n ∈ pieces us) :
    slash ∉ n := by
  induction us generalizing n with
  | nil => simp [pieces] at h; simp [h]
  | cons u us ih =>
    cases hp : pieces us with
    | nil => exact absurd hp (pieces_ne_nil us)
    | cons m rest =>
      rw [pieces_cons hp] at h
      rw [hp] at ih
      by_cases hu : u = slash
      · rw [if_pos hu] at h
        rcases List.mem_cons.1 h with rfl | h
        · simp
        · exact ih h
      · rw [if_neg hu] at h
        rcases List.mem_cons.1 h with rfl | h
        · have hm := ih (List.mem_cons_self (a := m) (l := rest))
          simp [hm, Ne.symm hu]
        · exact ih (List.mem_cons_of_mem m h)

theorem mem_of_mem_pieces {us : List NameUnit} {n : Name} (h : n ∈ pieces us) :
    ∀ u ∈ n, u ∈ us := by
  induction us generalizing n with
  | nil =>
    obtain rfl : n = [] := by simpa [pieces] using h
    exact fun u hu => hu
  | cons v vs ih =>
    cases hp : pieces vs with
    | nil => exact absurd hp (pieces_ne_nil vs)
    | cons m rest =>
      rw [pieces_cons hp] at h
      rw [hp] at ih
      intro u hu
      by_cases hv : v = slash
      · rw [if_pos hv] at h
        rcases List.mem_cons.1 h with rfl | h
        · exact absurd hu List.not_mem_nil
        · exact List.mem_cons_of_mem v (ih h u hu)
      · rw [if_neg hv] at h
        rcases List.mem_cons.1 h with rfl | h
        · rcases List.mem_cons.1 hu with rfl | hu
          · exact List.mem_cons_self
          · exact List.mem_cons_of_mem v (ih List.mem_cons_self u hu)
        · exact List.mem_cons_of_mem v (ih (List.mem_cons_of_mem m h) u hu)

/-- A name among others, with what a slash between any two puts before and after it. -/
theorem intercalate_append_cons (before : List Name) (n : Name) (after : List Name) :
    [slash].intercalate (before ++ n :: after) =
      before.flatMap (· ++ [slash]) ++ (n ++ after.flatMap (slash :: ·)) := by
  induction before with
  | nil =>
    show [slash].intercalate (n :: after) = n ++ after.flatMap (slash :: ·)
    induction after generalizing n with
    | nil => simp
    | cons m after ih =>
      rw [List.intercalate_cons_cons, ih, List.flatMap_cons, List.append_assoc]
      rfl
  | cons m before ih =>
    have hne : before ++ n :: after ≠ [] := by simp
    rw [List.cons_append, List.intercalate_cons_of_ne_nil hne, ih, List.flatMap_cons]
    simp only [List.append_assoc]

/-! ## Parts that last

A location holds the root, steps up and names; a `.` never gets into one. -/

/-- A part that a location can have. The spelling of such a name is one piece and means the name. -/
def Part.Lasting : Part → Prop
  | .root => True
  | .here => False
  | .up => True
  | .name n => n ≠ [] ∧ slash ∉ n ∧ n ≠ dot ∧ n ≠ dotDot

instance : (part : Part) → Decidable part.Lasting
  | .root => isTrue trivial
  | .here => isFalse id
  | .up => isTrue trivial
  | .name n => inferInstanceAs (Decidable (n ≠ [] ∧ slash ∉ n ∧ n ≠ dot ∧ n ≠ dotDot))

/-- A longer text without slashes is a name, since those that mean something else are short. -/
theorem Part.lasting_ofString {s : String} (h : '/' ∉ s.toList) (hlength : 3 ≤ s.toList.length) :
    (Part.name (Name.ofString s)).Lasting := by
  have hunits : 3 ≤ (Name.ofString s).length := by
    rw [Name.ofString, List.length_map]
    exact hlength
  have hshort {n : Name} (hn : n.length < 3) : Name.ofString s ≠ n := by
    rintro rfl
    omega
  refine ⟨hshort (by decide), ?_, hshort (by decide), hshort (by decide)⟩
  intro hmem
  obtain ⟨c, hc, heq⟩ := List.mem_map.1 hmem
  obtain rfl : c = '/' := NameUnit.char.inj heq
  exact h hc

theorem Part.ne_here_of_lasting {part : Part} (h : part.Lasting) : part ≠ .here := by
  rintro rfl
  exact h

theorem Part.ofPiece_of_ne_nil {n : Name} (h : n ≠ []) :
    Part.ofPiece n =
      some (if n = dot then .here else if n = dotDot then .up else .name n) := by
  cases n with
  | nil => exact absurd rfl h
  | cons u us => rfl

/-- Reading the spelling of a part gives the part. Only the root is not spelled by a piece. -/
theorem Part.ofPiece_spelling {part : Part} (h : part.Lasting) (hr : part ≠ .root) :
    Part.ofPiece part.spelling = some part := by
  cases part with
  | root => exact absurd rfl hr
  | here => exact absurd h id
  | up => rfl
  | name n =>
    obtain ⟨hne, -, hd, hdd⟩ := h
    show Part.ofPiece n = some (.name n)
    rw [Part.ofPiece_of_ne_nil hne, if_neg hd, if_neg hdd]

theorem Part.slash_not_mem_spelling {part : Part} (h : part.Lasting) (hr : part ≠ .root) :
    slash ∉ part.spelling := by
  cases part with
  | root => exact absurd rfl hr
  | here => exact absurd h id
  | up => decide
  | name n => exact h.2.1

theorem Part.spelling_ne_nil {part : Part} (h : part.Lasting) : part.spelling ≠ [] := by
  cases part with
  | root => simp [Part.spelling]
  | here => exact absurd h id
  | up => simp [Part.spelling, dotDot]
  | name n => exact h.1

theorem Part.spelling_ne_dot {part : Part} (h : part.Lasting) : part.spelling ≠ dot := by
  cases part with
  | root => decide
  | here => exact absurd h id
  | up => decide
  | name n => exact h.2.2.1

theorem Part.spelling_of_ofPiece {n : Name} {part : Part} (h : Part.ofPiece n = some part) :
    part.spelling = n := by
  cases n with
  | nil => exact absurd h (by simp [Part.ofPiece])
  | cons u us =>
    rw [Part.ofPiece_of_ne_nil (by simp)] at h
    obtain rfl := Option.some.inj h
    by_cases hd : u :: us = dot
    · rw [if_pos hd, hd]
      rfl
    · by_cases hdd : u :: us = dotDot
      · rw [if_neg hd, if_pos hdd, hdd]
        rfl
      · rw [if_neg hd, if_neg hdd]
        rfl

/-- A piece means a part that lasts, a `.`, or nothing, and never the root. -/
theorem Part.lasting_of_ofPiece {n : Name} {part : Part} (hn : slash ∉ n)
    (h : Part.ofPiece n = some part) (hh : part ≠ .here) : part.Lasting ∧ part ≠ .root := by
  cases n with
  | nil => simp [Part.ofPiece] at h
  | cons u us =>
    rw [Part.ofPiece_of_ne_nil (by simp)] at h
    obtain rfl := Option.some.inj h
    by_cases hd : u :: us = dot
    · rw [if_pos hd] at hh
      exact absurd rfl hh
    · by_cases hdd : u :: us = dotDot
      · rw [if_neg hd, if_pos hdd]
        exact ⟨trivial, by decide⟩
      · rw [if_neg hd, if_neg hdd]
        exact ⟨⟨by simp, hn, hd, hdd⟩, by simp⟩

/-! ## The parts that count -/

/-- The parts of a path that a walk looks at. -/
def solid (p : Path) : List Part := p.parts.filter (· ≠ .here)

/-- Those of them that the pieces of a spelling mean; an absolute path has the root before them. -/
def solidPieces (us : List NameUnit) : List Part :=
  ((pieces us).filterMap Part.ofPiece).filter (· ≠ .here)

theorem solidPieces_nil : solidPieces [] = [] := rfl

theorem solidPieces_append (us vs : List NameUnit) :
    solidPieces (us ++ slash :: vs) = solidPieces us ++ solidPieces vs := by
  rw [solidPieces, pieces_append, List.filterMap_append, List.filter_append]
  rfl

theorem solidPieces_slash (us : List NameUnit) : solidPieces (slash :: us) = solidPieces us :=
  solidPieces_append [] us

theorem isAbsolute_iff {p : Path} : p.isAbsolute = true ↔ ∃ us, p.units = slash :: us := by
  rw [isAbsolute, beq_iff_eq]
  exact List.head?_eq_some_iff

theorem solid_eq (p : Path) :
    p.solid = (if p.isAbsolute then [.root] else []) ++ solidPieces p.units := by
  rw [solid, parts, solidPieces]
  by_cases ha : p.isAbsolute
  · obtain ⟨us, hus⟩ := isAbsolute_iff.1 ha
    have hf : Part.ofPiece [] = none := rfl
    simp [ha, hus, pieces_slash, hf]
  · cases hp : pieces p.units with
    | nil => exact absurd hp (pieces_ne_nil _)
    | cons first rest =>
      cases hf : Part.ofPiece first <;> simp [ha, hf, List.filter_cons]

theorem lasting_of_mem_solidPieces {us : List NameUnit} {part : Part}
    (h : part ∈ solidPieces us) : part.Lasting ∧ part ≠ .root := by
  rw [solidPieces, List.mem_filter, List.mem_filterMap] at h
  obtain ⟨⟨n, hn, hpart⟩, hh⟩ := h
  exact Part.lasting_of_ofPiece (slash_not_mem_of_mem_pieces hn) hpart (by simpa using hh)

theorem mem_units_of_mem_solid {p : Path} {part : Part} (h : part ∈ p.solid) :
    ∀ u ∈ part.spelling, u ∈ p.units := by
  intro u hu
  rw [solid_eq, List.mem_append] at h
  rcases h with h | h
  · by_cases ha : p.isAbsolute = true
    · obtain ⟨us, hus⟩ := isAbsolute_iff.1 ha
      rw [if_pos ha, List.mem_singleton] at h
      rw [h] at hu
      rw [hus, List.mem_singleton.1 hu]
      exact List.mem_cons_self
    · rw [if_neg ha] at h
      exact absurd h List.not_mem_nil
  · obtain ⟨n, hn, hpart⟩ := List.mem_filterMap.1 (List.mem_filter.1 h).1
    rw [Part.spelling_of_ofPiece hpart] at hu
    exact mem_of_mem_pieces hn u hu

theorem root_mem_solid {p : Path} : .root ∈ p.solid ↔ p.isAbsolute = true := by
  rw [solid_eq, List.mem_append]
  constructor
  · rintro (h | h)
    · by_contra hn
      rw [if_neg hn] at h
      exact List.not_mem_nil h
    · exact absurd rfl (lasting_of_mem_solidPieces h).2
  · intro h
    simp [h]

theorem mem_parts_iff {p : Path} {part : Part} (h : part ≠ .here) :
    part ∈ p.parts ↔ part ∈ p.solid := by
  simp [solid, h]

/-! ## Spelling a location -/

theorem solidPieces_between {ps : List Part} (h : ∀ part ∈ ps, part.Lasting ∧ part ≠ .root) :
    solidPieces ([slash].intercalate (ps.map Part.spelling)) = ps := by
  by_cases hne : ps = []
  · rw [hne]
    rfl
  · have hread : (ps.map Part.spelling).filterMap Part.ofPiece = ps := by
      rw [List.filterMap_map]
      calc ps.filterMap (Part.ofPiece ∘ Part.spelling)
          = ps.filterMap some :=
            List.filterMap_congr fun part hp => Part.ofPiece_spelling (h part hp).1 (h part hp).2
        _ = ps := List.filterMap_some
    have hslash : ∀ n ∈ ps.map Part.spelling, slash ∉ n := by
      intro n hn
      obtain ⟨part, hp, rfl⟩ := List.mem_map.1 hn
      exact Part.slash_not_mem_spelling (h part hp).1 (h part hp).2
    rw [solidPieces, pieces_between (by simpa using hne) hslash, hread, List.filter_eq_self]
    intro part hp
    simpa using Part.ne_here_of_lasting (h part hp).1

theorem isAbsolute_between {part : Part} {ps : List Part} (h : part.Lasting) (hr : part ≠ .root) :
    isAbsolute ⟨[slash].intercalate ((part :: ps).map Part.spelling)⟩ = false := by
  have hs := Part.slash_not_mem_spelling h hr
  cases hp : part.spelling with
  | nil => exact absurd hp (Part.spelling_ne_nil h)
  | cons u us =>
    rw [hp] at hs
    have hu : u ≠ slash := fun e => hs (e ▸ List.mem_cons_self)
    simp [isAbsolute, hp, hu]

/-! ## A name after a path -/

theorem parts_eq {p : Path} {first : Name} {rest : List Name}
    (h : pieces p.units = first :: rest) :
    p.parts = (if p.isAbsolute then [.root] else (Part.ofPiece first).toList) ++
      (rest.filterMap Part.ofPiece).filter (· ≠ .here) := by
  rw [parts, h]

/-- The root is only ever the first part. -/
theorem root_not_mem_tail (p : Path) : .root ∉ p.parts.tail := by
  obtain ⟨first, rest, hp⟩ := List.exists_cons_of_ne_nil (pieces_ne_nil p.units)
  have hrest : .root ∉ (rest.filterMap Part.ofPiece).filter (· ≠ .here) := by
    intro hmem
    obtain ⟨n, hn, hpart⟩ := List.mem_filterMap.1 (List.mem_of_mem_filter hmem)
    have hpiece : n ∈ pieces p.units := hp ▸ List.mem_cons_of_mem first hn
    have hslash : slash ∉ n := slash_not_mem_of_mem_pieces hpiece
    exact (Part.lasting_of_ofPiece hslash hpart (by simp)).2 rfl
  rw [parts_eq hp]
  split
  · exact hrest
  · cases Part.ofPiece first with
    | none => exact fun hmem => hrest (List.mem_of_mem_tail hmem)
    | some part => exact hrest

theorem parts_slash (us : List NameUnit) : parts ⟨slash :: us⟩ = .root :: solidPieces us := by
  rw [parts_eq (pieces_slash us), if_pos (isAbsolute_iff.2 ⟨us, rfl⟩)]
  rfl

/-- Only the first piece of a path is read in its own way. -/
theorem parts_append_slash {us : List NameUnit} (hus : us ≠ []) (vs : List NameUnit) :
    parts ⟨us ++ slash :: vs⟩ = parts ⟨us⟩ ++ solidPieces vs := by
  obtain ⟨first, rest, hp⟩ := List.exists_cons_of_ne_nil (pieces_ne_nil us)
  have happ : pieces (us ++ slash :: vs) = first :: (rest ++ pieces vs) := by
    rw [pieces_append, hp, List.cons_append]
  have habs : isAbsolute ⟨us ++ slash :: vs⟩ = isAbsolute ⟨us⟩ := by
    rw [isAbsolute, isAbsolute, List.head?_append_of_ne_nil _ hus]
  rw [parts_eq happ, parts_eq hp, habs, List.filterMap_append, List.filter_append,
    List.append_assoc]
  rfl

theorem pieces_name {n : Name} (h : (Part.name n).Lasting) : pieces n = [n] := by
  have hn := @pieces_between [n] (by simp) (by simpa using h.2.1)
  rwa [List.intercalate_singleton] at hn

theorem solidPieces_name {n : Name} (h : (Part.name n).Lasting) : solidPieces n = [.name n] := by
  have hn := @solidPieces_between [.name n] (by simpa using h)
  rwa [List.map_singleton, List.intercalate_singleton] at hn

theorem isAbsolute_name {n : Name} (h : (Part.name n).Lasting) : isAbsolute ⟨n⟩ = false := by
  have hn := @isAbsolute_between (.name n) [] h (by simp)
  rwa [List.map_singleton, List.intercalate_singleton] at hn

theorem parts_name {n : Name} (h : (Part.name n).Lasting) : parts ⟨n⟩ = [.name n] := by
  have hpiece : Part.ofPiece n = some (.name n) := Part.ofPiece_spelling h (by simp)
  rw [parts_eq (p := ⟨n⟩) (pieces_name h), isAbsolute_name h, hpiece]
  rfl

/-- What comes after a slash is read as if nothing were before it. -/
theorem parts_after_slash (us vs : List NameUnit) :
    parts ⟨us ++ slash :: vs⟩ = parts ⟨us ++ [slash]⟩ ++ solidPieces vs := by
  by_cases hus : us = []
  · subst hus
    show parts ⟨slash :: vs⟩ = parts ⟨slash :: []⟩ ++ _
    rw [parts_slash, parts_slash]
    rfl
  · rw [parts_append_slash hus, parts_append_slash hus, solidPieces_nil, List.append_nil]

/-- Joining puts a slash before a relative path, unless there is nothing before it. -/
theorem join_of_relative (p : Path) {q : Path} (h : q.isAbsolute = false) :
    (p.units = [] ∧ p / q = q) ∨
      ∃ us, p / q = ⟨us ++ slash :: q.units⟩ ∧ parts ⟨us ++ [slash]⟩ = p.parts := by
  obtain ⟨us⟩ := p
  show (us = [] ∧ join ⟨us⟩ q = _) ∨ ∃ vs, join ⟨us⟩ q = _ ∧ _
  rw [join, h, if_neg (by simp)]
  by_cases hnil : us = []
  · subst hnil
    exact .inl ⟨rfl, rfl⟩
  refine .inr ?_
  by_cases hlast : us.getLast? = some slash
  · obtain ⟨vs, rfl⟩ := List.getLast?_eq_some_iff.1 hlast
    refine ⟨vs, ?_, rfl⟩
    rw [if_pos (by simp), List.append_assoc]
    rfl
  · refine ⟨us, ?_, ?_⟩
    · rw [if_neg (by simp [hnil, hlast])]
    · rw [parts_append_slash hnil, solidPieces_nil, List.append_nil]

theorem parts_join_name (p : Path) {n : Name} (h : (Part.name n).Lasting) :
    (p / ⟨n⟩).parts = p.parts ++ [.name n] := by
  rcases join_of_relative p (isAbsolute_name h) with ⟨hnil, hjoin⟩ | ⟨us, hjoin, hparts⟩
  · obtain rfl : p = ⟨[]⟩ := congrArg Path.mk hnil
    rw [hjoin, parts_name h]
    rfl
  · rw [hjoin, parts_after_slash, hparts, solidPieces_name h]

theorem parts_join {p q : Path} (hp : p.units ≠ []) (hq : q.isAbsolute = false) :
    (p / q).parts = p.parts ++ q.solid := by
  rcases join_of_relative p hq with ⟨hnil, -⟩ | ⟨us, hjoin, hparts⟩
  · exact absurd hnil hp
  · have hsolid : q.solid = solidPieces q.units := by rw [solid_eq, hq]; rfl
    rw [hjoin, parts_after_slash, hparts, hsolid]

theorem exists_units_join (p q : Path) : ∃ before, (p / q).units = before ++ q.units := by
  show ∃ before, (join p q).units = before ++ q.units
  unfold join
  split
  · exact ⟨[], rfl⟩
  · split
    · exact ⟨p.units, rfl⟩
    · exact ⟨p.units ++ [slash], by simp⟩

/-- A path whose last characters are no slashes ends in a name that has them at its end. -/
theorem exists_parts_concat {last : List NameUnit} (hslash : slash ∉ last)
    (hlength : 3 ≤ last.length) (us : List NameUnit) :
    ∃ ps before, parts ⟨us ++ last⟩ = ps ++ [.name (before ++ last)] := by
  have hname {before : List NameUnit} (h : slash ∉ before) :
      (Part.name (before ++ last)).Lasting := by
    have hlong {n : Name} (hn : n.length < 3) : before ++ last ≠ n := by
      rintro rfl
      rw [List.length_append] at hn
      omega
    refine ⟨hlong (by decide), ?_, hlong (by decide), hlong (by decide)⟩
    rw [List.mem_append]
    exact not_or.2 ⟨h, hslash⟩
  by_cases hus : slash ∈ us
  · -- The name starts after the last slash.
    obtain ⟨back, front, hsplit, hback⟩ := List.eq_append_cons_of_mem (List.mem_reverse.2 hus)
    have hunits : us = front.reverse ++ slash :: back.reverse := by
      rw [← List.reverse_reverse us, hsplit]
      simp
    refine ⟨parts ⟨front.reverse ++ [slash]⟩, back.reverse, ?_⟩
    rw [hunits, List.append_assoc, List.cons_append, parts_after_slash,
      solidPieces_name (hname (by simpa using hback))]
  · exact ⟨[], us, parts_name (hname hus)⟩

end Path
end LayeredConfig
