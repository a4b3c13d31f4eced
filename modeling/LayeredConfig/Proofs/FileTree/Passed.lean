/-
Making a directory is a matter of what is on the way to it.

Following a path looks at the places that its parts lead to, and at no others. So two trees that
agree on them make the directory alike (`AgreeOn.makeDirectory`), also when they differ at a place
that the path does not go through (`AgreeOn.makeDirectory_of_ne`).
-/
import Mathlib
import LayeredConfig.Proofs.FileTree.Open

namespace LayeredConfig

/-! ## The first parts of a path -/

namespace Path

variable {p : Path} {part : Part} {ps : List Part}

theorem lasting_of_mem_tail (h : part ∈ p.parts.tail) : part.Lasting ∧ part ≠ .root := by
  obtain ⟨first, rest, hp⟩ := List.exists_cons_of_ne_nil (pieces_ne_nil p.units)
  have hrest (h : part ∈ (rest.filterMap Part.ofPiece).filter (· ≠ .here)) :
      part.Lasting ∧ part ≠ .root := by
    obtain ⟨hmem, hhere⟩ := List.mem_filter.1 h
    obtain ⟨n, hn, hpart⟩ := List.mem_filterMap.1 hmem
    have hpiece : n ∈ pieces p.units := hp ▸ List.mem_cons_of_mem first hn
    exact Part.lasting_of_ofPiece (slash_not_mem_of_mem_pieces hpiece) hpart (by simpa using hhere)
  rw [parts_eq hp] at h
  split at h
  · exact hrest h
  · cases hfirst : Part.ofPiece first with
    | none =>
      rw [hfirst] at h
      exact hrest (List.mem_of_mem_tail h)
    | some q =>
      rw [hfirst] at h
      exact hrest h

theorem lasting_of_mem_parts (h : part ∈ p.parts) (hhere : part ≠ .here) : part.Lasting := by
  rw [mem_parts_iff hhere, solid_eq, List.mem_append] at h
  rcases h with h | h
  · split at h
    · rw [List.mem_singleton.1 h]
      exact trivial
    · exact absurd h List.not_mem_nil
  · exact (lasting_of_mem_solidPieces h).1

theorem parts_spelling (h : part ≠ .here → part.Lasting) (hroot : part ≠ .root) :
    parts ⟨part.spelling⟩ = [part] := by
  cases part with
  | root => exact absurd rfl hroot
  | here => decide
  | up => decide
  | name n => exact parts_name (h nofun)

/-- The plainest path to a directory around `p` has the parts that lead there. -/
theorem parts_ofParts_of_isPrefix (h : ps <+: p.parts) : (ofParts ps).parts = ps := by
  cases ps with
  | nil => rfl
  | cons part ps =>
    obtain ⟨more, hmore⟩ := h
    have htail : ∀ q ∈ ps, q.Lasting ∧ q ≠ .root := fun q hq => by
      refine lasting_of_mem_tail (p := p) ?_
      rw [← hmore]
      exact List.mem_append_left more hq
    have hpart : part ≠ .here → part.Lasting := fun hhere => by
      refine lasting_of_mem_parts (p := p) ?_ hhere
      rw [← hmore]
      exact List.mem_cons_self
    by_cases hroot : part = .root
    · subst hroot
      show parts ⟨slash :: [slash].intercalate (ps.map Part.spelling)⟩ = _
      rw [parts_slash, solidPieces_between htail]
    · have hspelling := parts_spelling hpart hroot
      rw [ofParts_of_ne_root hroot, List.map_cons]
      by_cases hps : ps = []
      · subst hps
        rwa [List.map_nil, List.intercalate_singleton]
      · have hne : part.spelling ≠ [] := by
          intro hnil
          have hempty : parts ⟨[]⟩ = [] := rfl
          rw [hnil, hempty] at hspelling
          exact absurd hspelling nofun
        rw [List.intercalate_cons_of_ne_nil (by simpa using hps), List.append_assoc]
        refine (parts_append_slash hne ([slash].intercalate (ps.map Part.spelling))).trans ?_
        rw [hspelling, solidPieces_between htail]
        rfl

theorem parts_of_mem_directories {q : Path} (h : q ∈ p.directories) :
    q.parts ≠ [] ∧ q.parts <+: p.parts := by
  obtain ⟨hmem, hparts⟩ := List.mem_filter.1 h
  have hne : q.parts ≠ [] := (of_decide_eq_true hparts).1
  refine ⟨hne, ?_⟩
  rcases List.mem_cons.1 hmem with rfl | houter
  · exact List.prefix_refl _
  · obtain ⟨n, -, rfl⟩ := List.mem_map.1 houter
    rw [parts_ofParts_of_isPrefix (List.take_prefix _ _)]
    exact List.take_prefix _ _

end Path

namespace FileTree

variable {t t' u start : FileTree} {dir q : Path} {loc base : Location} {P : Location → Prop}

/-! ## Places on the way -/

/-- Following the path goes through this place, or ends there. -/
def Passes (t : FileTree) (dir : Path) (loc : Location) : Prop :=
  (∃ before part after, dir.parts = before ++ part :: after ∧ part ≠ .root ∧
    loc = before.foldl Path.Part.follow t.home) ∨ loc = t.place dir

theorem passes_iff_of_home (h : t'.home = t.home) : t'.Passes dir loc ↔ t.Passes dir loc := by
  rw [Passes, Passes, place, place, h]

/-- What a path around it goes through is on the way. -/
theorem Passes.of_isPrefix (h : t.Passes q loc) (hne : q.parts ≠ []) (hq : q.parts <+: dir.parts) :
    t.Passes dir loc := by
  obtain ⟨more, hmore⟩ := hq
  rcases h with ⟨before, part, after, hparts, hroot, hloc⟩ | hloc
  · refine .inl ⟨before, part, after ++ more, ?_, hroot, hloc⟩
    rw [← hmore, hparts, List.append_assoc, List.cons_append]
  · rw [place, Path.foldl_follow_location] at hloc
    cases more with
    | nil =>
      rw [List.append_nil] at hmore
      rw [hmore, ← Path.foldl_follow_location] at hloc
      exact .inr hloc
    | cons part more =>
      refine .inl ⟨q.parts, part, more, hmore.symm, ?_, hloc⟩
      rintro rfl
      have htail : Path.Part.root ∈ dir.parts.tail := by
        rw [← hmore, List.tail_append_of_ne_nil hne]
        exact List.mem_append_right _ List.mem_cons_self
      exact dir.root_not_mem_tail htail

/-- On the way to a directory that is there are directories only. -/
theorem OpenAt.directory_of_passes (h : t.OpenAt dir base) (hloc : t.Passes dir loc) :
    t.get? loc = some .directory := by
  have hwalk := h.walk
  rw [FileTree.walk] at hwalk
  rcases hloc with ⟨before, part, after, hparts, hroot, rfl⟩ | rfl
  · rw [hparts, List.foldlM_append] at hwalk
    obtain ⟨mid, hmid, hrest⟩ := bind_eq_ok_iff.1 hwalk
    rw [List.foldlM_cons] at hrest
    obtain ⟨next, hnext, -⟩ := bind_eq_ok_iff.1 hrest
    rw [← steps_eq_follow hmid]
    exact directory_of_step hroot hnext
  · rw [place, Path.foldl_follow_location, ← steps_eq_follow hwalk]
    exact h.directory

theorem run_change_eq_ok_iff {ε : Type} {f : FileTree → Except ε FileTree} :
    (Files.change f).run t = .ok () u ↔ f t = .ok u := by
  show Files.change f t = _ ↔ _
  rw [Files.change]
  cases f t <;> simp

theorem run_createFirst_eq_ok_iff {dirs inner : List Path} :
    (Files.createFirst dirs).run t = .ok inner u ↔ t.createOuter [] dirs = .ok (u, inner) := by
  show Files.createFirst dirs t = _ ↔ _
  rw [Files.createFirst]
  cases t.createOuter [] dirs with
  | error e => simp
  | ok r => rw [EStateM.Result.ok.injEq, Except.ok.injEq, Prod.ext_iff, and_comm]

/-! ## Agreement -/

/-- The trees have the same entries in `P`, and writing is refused at the same places in `P`. -/
structure AgreeOn (P : Location → Prop) (t t' : FileTree) : Prop where
  home : t'.home = t.home
  entry : ∀ loc, P loc → t'.get? loc = t.get? loc
  refusal : ∀ loc, P loc → t'.refusal? loc = t.refusal? loc

namespace AgreeOn

theorem symm (h : AgreeOn P t t') : AgreeOn P t' t :=
  ⟨h.home.symm, fun loc hloc => (h.entry loc hloc).symm, fun loc hloc => (h.refusal loc hloc).symm⟩

theorem walk_eq (h : AgreeOn P t t') (hP : ∀ loc, t.Passes q loc → P loc) :
    t'.walk q.parts = t.walk q.parts := by
  -- A walk only looks at places that it goes on from.
  have hsteps (parts : List Path.Part) (start : Location)
      (hpasses : ∀ before part after, parts = before ++ part :: after → part ≠ .root →
        P (before.foldl Path.Part.follow start)) :
      parts.foldlM t'.step start = parts.foldlM t.step start := by
    induction parts generalizing start with
    | nil => rfl
    | cons part parts ih =>
      have hstep : t'.step start part = t.step start part := by
        by_cases hroot : part = .root
        · subst hroot
          rfl
        · have hentry := h.entry start (hpasses [] part parts rfl hroot)
          cases part <;> simp only [step, hentry]
      rw [List.foldlM_cons, List.foldlM_cons, hstep]
      cases hnext : t.step start part with
      | error e => rfl
      | ok next =>
        obtain rfl := follow_of_step hnext
        refine ih _ fun before q after hparts hroot => ?_
        exact hpasses (part :: before) q after (by rw [hparts]; rfl) hroot
  rw [walk, walk, h.home, hsteps q.parts t.home]
  exact fun before part after hparts hroot =>
    hP _ (.inl ⟨before, part, after, hparts, hroot, rfl⟩)

theorem find_eq (h : AgreeOn P t t') (hP : ∀ loc, t.Passes q loc → P loc) :
    t'.find q = t.find q := by
  rw [find, find, h.walk_eq hP]

theorem openAt (h : AgreeOn P t t') (hP : ∀ loc, t.Passes dir loc → P loc)
    (hopen : t.OpenAt dir base) : t'.OpenAt dir base := by
  have hbase : base = t.place dir := by
    rw [place, Path.foldl_follow_location]
    exact steps_eq_follow hopen.walk
  exact ⟨hopen.spelled, (h.walk_eq hP).trans hopen.walk,
    (h.entry base (hP base (.inr hbase))).trans hopen.directory⟩

theorem isDirectory_eq (h : AgreeOn P t t') (hP : ∀ loc, t.Passes q loc → P loc) :
    t'.isDirectory q = t.isDirectory q := by
  rw [isDirectory, isDirectory, h.find_eq hP]
  cases hfind : t.find q with
  | error e => rfl
  | ok loc => simp only [h.entry loc (hP loc (.inr (find_eq_follow hfind)))]

theorem set (h : AgreeOn P t t') (hloc : loc ≠ []) (e : Entry) :
    AgreeOn P (t.set loc e) (t'.set loc e) := by
  refine ⟨h.home, fun other hother => ?_, h.refusal⟩
  rw [get?_set t hloc, get?_set t' hloc, h.entry other hother]

theorem createDirectory_cases (h : AgreeOn P t t') (hP : ∀ loc, t.Passes q loc → P loc) :
    (∃ e, t.createDirectory q = .error e ∧ t'.createDirectory q = .error e) ∨
      ∃ u u', t.createDirectory q = .ok u ∧ t'.createDirectory q = .ok u' ∧ AgreeOn P u u' := by
  rw [createDirectory, createDirectory, h.find_eq hP]
  cases hfind : t.find q with
  | error e => exact .inl ⟨e, rfl, rfl⟩
  | ok loc =>
    have hloc := hP loc (.inr (find_eq_follow hfind))
    simp only [ok_bind, h.entry loc hloc, h.refusal loc hloc]
    rcases q.parts.getLast? with _ | _ | _ | _ | n
    case some.name =>
      cases hget : t.get? loc with
      | some e => exact .inl ⟨_, rfl, rfl⟩
      | none =>
        cases t.refusal? loc with
        | some e => exact .inl ⟨e, rfl, rfl⟩
        | none =>
          refine .inr ⟨_, _, rfl, rfl, h.set ?_ _⟩
          rintro rfl
          exact absurd hget (Option.some_ne_none _)
    all_goals exact .inl ⟨_, rfl, rfl⟩

theorem createOuter (h : AgreeOn P t t') {pending outer inner : List Path}
    (hP : ∀ q ∈ outer, ∀ loc, t.Passes q loc → P loc)
    (hcreate : t.createOuter pending outer = .ok (u, inner)) :
    ∃ u', t'.createOuter pending outer = .ok (u', inner) ∧ AgreeOn P u u' := by
  induction outer generalizing pending with
  | nil =>
    obtain ⟨rfl, rfl⟩ := Prod.mk.inj (Except.ok.inj hcreate)
    exact ⟨t', rfl, h⟩
  | cons q outer ih =>
    have hq := hP q List.mem_cons_self
    rw [FileTree.createOuter] at hcreate ⊢
    rcases h.createDirectory_cases hq with ⟨e, he, he'⟩ | ⟨v, v', hv, hv', hagree⟩
    · rw [he] at hcreate
      rw [he']
      cases e with
      | notFound => exact ih (fun q hq => hP q (List.mem_cons_of_mem _ hq)) hcreate
      | alreadyExists =>
        simp only [h.isDirectory_eq hq] at hcreate ⊢
        split at hcreate
        · next hdir =>
          obtain ⟨rfl, rfl⟩ := Prod.mk.inj (Except.ok.inj hcreate)
          exact ⟨t', if_pos hdir, h⟩
        · cases hcreate
      | _ => cases hcreate
    · rw [hv] at hcreate
      rw [hv']
      obtain ⟨rfl, rfl⟩ := Prod.mk.inj (Except.ok.inj hcreate)
      exact ⟨v', rfl, hagree⟩

theorem ensureDirectory (h : AgreeOn P t t') (hP : ∀ loc, t.Passes q loc → P loc)
    (hensure : t.ensureDirectory q = .ok u) :
    ∃ u', t'.ensureDirectory q = .ok u' ∧ AgreeOn P u u' := by
  rw [FileTree.ensureDirectory] at hensure ⊢
  rcases h.createDirectory_cases hP with ⟨e, he, he'⟩ | ⟨v, v', hv, hv', hagree⟩
  · rw [he] at hensure
    rw [he']
    simp only [h.isDirectory_eq hP] at hensure ⊢
    split at hensure
    · next hthere =>
      obtain rfl := Except.ok.inj hensure
      exact ⟨t', if_pos hthere, h⟩
    · cases hensure
  · rw [hv] at hensure
    rw [hv']
    obtain rfl := Except.ok.inj hensure
    exact ⟨v', rfl, hagree⟩

theorem run_forM_ensureDirectory (h : AgreeOn P t t') {dirs : List Path}
    (hP : ∀ q ∈ dirs, ∀ loc, t.Passes q loc → P loc)
    (hrun : (dirs.forM fun q => Files.change fun t => t.ensureDirectory q).run t = .ok () u) :
    ∃ u', (dirs.forM fun q => Files.change fun t => t.ensureDirectory q).run t' = .ok () u' ∧
      AgreeOn P u u' := by
  induction dirs generalizing t t' with
  | nil =>
    obtain rfl := (EStateM.Result.ok.inj hrun).2
    exact ⟨t', rfl, h⟩
  | cons q dirs ih =>
    obtain ⟨⟨⟩, mid, hfirst, hrest⟩ := Files.run_bind_eq_ok_iff.1 hrun
    have hensure := run_change_eq_ok_iff.1 hfirst
    obtain ⟨mid', hensure', hagree⟩ := h.ensureDirectory (hP q List.mem_cons_self) hensure
    have hhome : mid.home = t.home := (Grown.of_ensureDirectory hensure).home
    obtain ⟨u', hrest', hu⟩ := ih hagree (fun q hq loc hloc =>
      hP q (List.mem_cons_of_mem _ hq) loc ((passes_iff_of_home hhome).1 hloc)) hrest
    exact ⟨u', Files.run_bind_eq_ok_iff.2
      ⟨(), mid', run_change_eq_ok_iff.2 hensure', hrest'⟩, hu⟩

/-- Trees that agree on the way to a directory make it alike. -/
theorem makeDirectory (h : AgreeOn P t t') (hP : ∀ loc, t.Passes dir loc → P loc)
    (hmake : (Files.makeDirectory dir).run t = .ok () u) :
    ∃ u', (Files.makeDirectory dir).run t' = .ok () u' ∧ AgreeOn P u u' := by
  have hq (q : Path) (hq : q ∈ dir.directories) (loc : Location) (hloc : t.Passes q loc) :
      P loc := by
    obtain ⟨hne, hprefix⟩ := Path.parts_of_mem_directories hq
    exact hP loc (hloc.of_isPrefix hne hprefix)
  cases hdir : t.isDirectory dir with
  | true =>
    rw [Files.run_makeDirectory_of_isDirectory hdir] at hmake
    obtain rfl := (EStateM.Result.ok.inj hmake).2
    exact ⟨t', Files.run_makeDirectory_of_isDirectory ((h.isDirectory_eq hP).trans hdir), h⟩
  | false =>
    rw [Files.run_makeDirectory_of_not_isDirectory hdir, Files.createDirectories_eq,
      Files.run_bind_eq_ok_iff] at hmake
    obtain ⟨inner, mid, hfirst, hinner⟩ := hmake
    rw [Files.run_makeDirectory_of_not_isDirectory ((h.isDirectory_eq hP).trans hdir),
      Files.createDirectories_eq]
    have houter := run_createFirst_eq_ok_iff.1 hfirst
    obtain ⟨hgrown, hmem⟩ := grown_of_createOuter houter
    obtain ⟨mid', houter', hagree⟩ := h.createOuter hq houter
    obtain ⟨u', hinner', hu⟩ := hagree.run_forM_ensureDirectory (fun q hqmem loc hloc =>
      hq q ((hmem q hqmem).resolve_left List.not_mem_nil) loc
        ((passes_iff_of_home hgrown.home).1 hloc)) hinner
    exact ⟨u', Files.run_bind_eq_ok_iff.2
      ⟨inner, mid', run_createFirst_eq_ok_iff.2 houter', hinner'⟩, hu⟩

/-- A place that the path does not go through has no part in it. -/
theorem makeDirectory_of_ne (h : AgreeOn (· ≠ loc) t t')
    (hmake : (Files.makeDirectory dir).run t = .ok () start) (hopen : start.OpenAt dir base)
    (hloc : start.get? loc ≠ some .directory) :
    ∃ start', (Files.makeDirectory dir).run t' = .ok () start' ∧
      AgreeOn (· ≠ loc) start start' ∧ start'.OpenAt dir base := by
  have hgrown := Files.after_makeDirectory dir t
  rw [Files.after_of_run_ok hmake] at hgrown
  have hpasses (other : Location) (hother : start.Passes dir other) : other ≠ loc := by
    rintro rfl
    exact hloc (hopen.directory_of_passes hother)
  obtain ⟨start', hmake', hagree⟩ := h.makeDirectory
    (fun other hother => hpasses other ((passes_iff_of_home hgrown.home).2 hother)) hmake
  exact ⟨start', hmake', hagree, hagree.openAt hpasses hopen⟩

end AgreeOn

end FileTree
end LayeredConfig
