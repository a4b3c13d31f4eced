/-
File entries of generators, and how they are read again.

An entry is a path, or a key and a path with `=` between them. Rebasing takes an entry without `=`
for a path, and the directory that it is rebased from may have `=` in its name: then the result has
one too and is read as a key and another path, unless the value is `Unmarked`. `SafeDir` says of a
directory that no such path leaves the root, which is all that can go wrong below an anchored root
(`contained_readFile`, `exists_escape_of_not_safeDir`).
-/
import LayeredConfig.Proofs.Fold.Accepted
import LayeredConfig.Proofs.Path.Contained
import LayeredConfig.Proofs.Text.Lines

namespace LayeredConfig

/-! ## Reading an entry -/

namespace Generator

/-- The key of a file entry, if it has one, and its path. -/
def readFile (entry : String) : Option String × String :=
  match Text.cut '=' entry.toList with
  | (key, some path) => (some (String.ofList key), String.ofList path)
  | (_, none) => (none, entry)

theorem readFile_of_not_mem {entry : String} (h : '=' ∉ entry.toList) :
    readFile entry = (none, entry) := by
  unfold readFile
  rw [Text.cut_of_not_mem h]

theorem readFile_append {key path : String} (h : '=' ∉ key.toList) :
    readFile (key ++ "=" ++ path) = (some key, path) := by
  have hlist : (key ++ "=" ++ path).toList = key.toList ++ '=' :: path.toList := by simp
  unfold readFile
  rw [hlist, Text.cut_append h]
  simp

theorem eq_of_readFile {entry key path : String} (h : readFile entry = (some key, path)) :
    entry = key ++ "=" ++ path ∧ '=' ∉ key.toList := by
  unfold readFile at h
  cases hcut : Text.cut '=' entry.toList with
  | mk before after =>
    cases after with
    | none =>
      rw [hcut] at h
      exact absurd h (by simp)
    | some after =>
      rw [hcut, Prod.mk.injEq, Option.some.injEq] at h
      obtain ⟨hlist, hmark⟩ := Text.eq_of_cut_some hcut
      obtain ⟨rfl, rfl⟩ := h
      refine ⟨String.toList_inj.1 ?_, by simpa using hmark⟩
      simpa using hlist

theorem exists_key_of_mem {entry : String} (h : '=' ∈ entry.toList) :
    ∃ key path, readFile entry = (some key, path) := by
  obtain ⟨before, after, hlist, hkey⟩ := List.eq_append_cons_of_mem h
  refine ⟨String.ofList before, String.ofList after, ?_⟩
  unfold readFile
  rw [hlist, Text.cut_append hkey]

theorem rebaseFile_of_key {file key path : String} (h : readFile file = (some key, path))
    (site : Site) (field : Field) :
    rebaseFile site field file = (site.rebase field path).map (key ++ "=" ++ ·) := by
  obtain ⟨rfl, hkey⟩ := eq_of_readFile h
  have hlist : (key ++ "=" ++ path).toList = key.toList ++ '=' :: path.toList := by simp
  unfold rebaseFile
  rw [hlist, Text.cut_append hkey]
  simp only [String.ofList_toList]
  cases site.rebase field path <;> rfl

theorem rebaseFile_of_not_mem {file : String} (h : '=' ∉ file.toList) (site : Site)
    (field : Field) : rebaseFile site field file = site.rebase field file := by
  unfold rebaseFile
  rw [Text.cut_of_not_mem h]

/-! ### In units -/

/-- The mark between a key and a path, in a name. -/
def mark : NameUnit := .char '='

theorem mark_mem_ofString {s : String} : mark ∈ Name.ofString s ↔ '=' ∈ s.toList := by
  unfold mark Name.ofString
  simp

theorem readFile_of_mark {entry : String} {before after : List NameUnit}
    (h : Name.ofString entry = before ++ mark :: after) (hb : mark ∉ before) :
    ∃ key path, readFile entry = (some key, path) ∧ Name.ofString key = before ∧
      Name.ofString path = after := by
  unfold Name.ofString at h
  obtain ⟨key, rest, hlist, rfl, hrest⟩ := List.map_eq_append_iff.1 h
  obtain ⟨c, path, rfl, hc, rfl⟩ := List.map_eq_cons_iff.1 hrest
  obtain rfl : c = '=' := NameUnit.char.inj hc
  have hkey : '=' ∉ key := fun hk => hb (List.mem_map_of_mem hk)
  refine ⟨String.ofList key, String.ofList path, ?_, by simp [Name.ofString],
    by simp [Name.ofString]⟩
  unfold readFile
  rw [hlist, Text.cut_append hkey]

end Generator

/-! ## Directories from which entries stay below the root -/

namespace Generator

open LayeredConfig.Path

/-- On the way from the root to the directory nothing reads as a key with no path or `..` after
it. -/
def SafeDir (root dir : Path) : Prop :=
  ∀ rest text, root.location ++ rest <+: dir.location → relativeText? rest = some text →
    ∀ key path, readFile text = (some key, path) → path ≠ "" ∧ path ≠ ".."

theorem ofString_ne_of_ne {s t : String} (h : s ≠ t) : Name.ofString s ≠ Name.ofString t := by
  intro heq
  have hs := Name.text?_ofString s
  rw [heq, Name.text?_ofString t] at hs
  exact h (Option.some.inj hs).symm

/-- From a safe directory, a path is rebased to an entry whose path is contained, whether it is
then read with a key or not. -/
theorem contained_readFile {root dir : Path} {value r : String} (ha : root.Anchored)
    (hs : SafeDir root dir) (hv : '=' ∉ value.toList) (h : root.rebase dir value = .ok r) :
    (ofString (readFile r).2).Contained := by
  obtain ⟨rest, hrest, ht⟩ := Path.rebase_eq_ok_iff.1 h
  obtain ⟨names, hnames, hinside⟩ := inside_of_isPrefix ha ⟨rest, hrest⟩
  obtain rfl : rest = names := List.append_cancel_left (hrest.trans hinside)
  have hloc : IsLocation (root.location ++ rest) := hrest ▸ isLocation_location _
  -- Only the first part with a mark matters: it is where the text is cut, and it is a part of the
  -- directory, since the value has no mark.
  cases hfind : rest.find? (fun part => mark ∈ part.spelling) with
  | none =>
    have hno : mark ∉ Name.ofString r := by
      refine not_mem_of_relativeText? ht (fun part hpart => ?_) (by decide) (by decide)
      simpa using List.find?_eq_none.1 hfind part hpart
    rw [readFile_of_not_mem fun hmem => hno (mark_mem_ofString.2 hmem)]
    exact contained_of_anchored ha h
  | some part =>
    obtain ⟨hmark, before, after, rfl, hbefore⟩ := List.find?_eq_some_iff_append.1 hfind
    have hmark : mark ∈ part.spelling := by simpa using hmark
    obtain ⟨x, y, hxy, hx⟩ := List.eq_append_cons_of_mem hmark
    obtain ⟨text, htext, hunits, hr⟩ := relativeText?_upto ht
    have hlead : mark ∉ (before.map Part.spelling).flatMap (· ++ [slash]) ++ x := by
      rw [List.mem_append, not_or]
      refine ⟨fun hmem => ?_, hx⟩
      obtain ⟨n, hn, hmark⟩ := List.mem_flatMap.1 hmem
      obtain ⟨q, hq, rfl⟩ := List.mem_map.1 hn
      rcases List.mem_append.1 hmark with hmark | hmark
      · have hq' := hbefore q hq
        exact absurd hmark (by simpa using hq')
      · exact absurd (List.mem_singleton.1 hmark) (by decide)
    rw [hxy, ← List.append_assoc] at hunits
    rw [hxy, List.append_assoc, List.cons_append, ← List.append_assoc] at hr
    obtain ⟨key, path, hread, -, hpath⟩ := readFile_of_mark hr hlead
    obtain ⟨key', path', hread', -, hpath'⟩ := readFile_of_mark hunits hlead
    have hon : root.location ++ (before ++ [part]) <+: dir.location := by
      have hsplit : (dir / ofString value).location =
          (root.location ++ before) ++ part :: after := by
        rw [← hrest, List.append_assoc]
      have hway := isPrefix_of_not_mem hsplit hmark fun hmem => hv (mark_mem_ofString.1 hmem)
      rwa [List.append_assoc] at hway
    obtain ⟨hempty, hdotDot⟩ := hs _ text hon htext key' path' hread'
    have hlast : part.Lasting := hloc.append.lasting part (by simp)
    have hname : part ≠ .root := by
      obtain ⟨n, rfl⟩ := hnames part (by simp)
      simp
    have hslash : slash ∉ y := by
      intro hmem
      refine Part.slash_not_mem_spelling hlast hname ?_
      rw [hxy]
      exact List.mem_append_right x (List.mem_cons_of_mem _ hmem)
    rw [hread]
    refine @contained_of_units (ofString path) y after hpath ?_ ?_ hslash ?_
    · rw [← hpath']
      exact ofString_ne_of_ne hempty
    · rw [← hpath']
      exact ofString_ne_of_ne hdotDot
    · intro q hq
      exact ⟨hloc.append.lasting q (by simp [hq]), hnames q (by simp [hq])⟩

/-! ### Directories without a mark -/

/-- No name on the way from the root to where the value points has a `=`. -/
def Unmarked (root dir : Path) (value : String) : Prop :=
  ∀ rest, root.location ++ rest = (dir / ofString value).location →
    ∀ part ∈ rest, mark ∉ part.spelling

theorem unmarked_iff {root dir : Path} {value r : String} (h : root.rebase dir value = .ok r) :
    Unmarked root dir value ↔ '=' ∉ r.toList := by
  obtain ⟨rest, hrest, htext⟩ := Path.rebase_eq_ok_iff.1 h
  rw [← mark_mem_ofString]
  constructor
  · intro hu
    exact not_mem_of_relativeText? htext (hu rest hrest) (by decide) (by decide)
  · intro hr other hother part hpart hmem
    obtain rfl : other = rest := List.append_cancel_left (hother.trans hrest.symm)
    have hloc : IsLocation (root.location ++ other) := hother ▸ isLocation_location _
    have hsolid : (ofString r).solid = other := solid_of_relativeText? hloc.append htext
    rw [← hsolid] at hpart
    exact hr (mem_units_of_mem_solid hpart mark hmem)

theorem unmarked_of_not_mem {root dir : Path} {value : String} (hd : mark ∉ dir.units)
    (hv : '=' ∉ value.toList) : Unmarked root dir value := by
  intro rest hrest part hpart hmem
  obtain ⟨kept, added, hsplit, hkept, hadded⟩ := location_join_split dir (ofString value)
  have hloc : part ∈ kept ++ added := by
    rw [← hsplit, ← hrest]
    exact List.mem_append_right _ hpart
  rcases List.mem_append.1 hloc with hloc | hloc
  · have hsolid : part ∈ dir.solid := mem_solid_of_mem_location (hkept.subset hloc)
    exact hd (mem_units_of_mem_solid hsolid mark hmem)
  · have hunits : mark ∈ Name.ofString value := mem_units_of_mem_solid (hadded part hloc) mark hmem
    exact hv (mark_mem_ofString.1 hunits)

theorem not_mem_of_rebase {root dir : Path} {value r : String} (hd : mark ∉ dir.units)
    (hv : '=' ∉ value.toList) (h : root.rebase dir value = .ok r) : '=' ∉ r.toList :=
  (unmarked_iff h).1 (unmarked_of_not_mem hd hv)

/-- From such a directory, a rebased entry is read with the key that it had before, and then needs
no rebasing. -/
theorem rebaseFile_of_rebaseFile {root dir : Path} {field other : Field} {file entry : String}
    (hd : mark ∉ dir.units) (h : rebaseFile ⟨root, dir⟩ field file = .ok entry) :
    rebaseFile ⟨root, root⟩ other entry = .ok entry := by
  by_cases hkey : '=' ∈ file.toList
  · obtain ⟨key, path, hread⟩ := exists_key_of_mem hkey
    rw [rebaseFile_of_key hread] at h
    obtain ⟨r, hr, rfl⟩ := map_eq_ok_iff.1 h
    have hsame : root.rebase root r = .ok r := rebase_of_rebase (Site.rebase_eq_ok_iff.1 hr)
    have hsite : Site.rebase ⟨root, root⟩ other r = .ok r := Site.rebase_eq_ok_iff.2 hsame
    have hread' : readFile (key ++ "=" ++ r) = (some key, r) :=
      readFile_append (eq_of_readFile hread).2
    rw [rebaseFile_of_key hread', hsite, map_ok]
  · rw [rebaseFile_of_not_mem hkey] at h
    have hr : root.rebase dir file = .ok entry := Site.rebase_eq_ok_iff.1 h
    rw [rebaseFile_of_not_mem (not_mem_of_rebase hd hkey hr)]
    exact Site.rebase_eq_ok_iff.2 (rebase_of_rebase hr)

/-! ### And the other directories -/

/-- A value that leaves as many directories as it says and goes to a name there. -/
def outward : Nat → String
  | 0 => "b"
  | k + 1 => "../" ++ outward k

theorem ofString_outward (k : Nat) :
    Name.ofString (outward (k + 1)) = dotDot ++ slash :: Name.ofString (outward k) := by
  show (("../" ++ outward k).toList).map NameUnit.char = _
  rw [String.toList_append, List.map_append]
  rfl

theorem mark_not_mem_outward (k : Nat) : '=' ∉ (outward k).toList := by
  induction k with
  | zero => decide
  | succ k ih =>
    show '=' ∉ ("../" ++ outward k).toList
    rw [String.toList_append, List.mem_append, not_or]
    exact ⟨by decide, ih⟩

theorem isAbsolute_outward (k : Nat) : (ofString (outward k)).isAbsolute = false := by
  cases k with
  | zero => rfl
  | succ k =>
    unfold isAbsolute ofString
    rw [ofString_outward]
    rfl

theorem solid_outward (k : Nat) :
    (ofString (outward k)).solid = List.replicate k .up ++ [.name (Name.ofString "b")] := by
  rw [solid_eq, isAbsolute_outward, if_neg (by simp), List.nil_append]
  induction k with
  | zero => rfl
  | succ k ih =>
    have hunits : (ofString (outward (k + 1))).units =
        dotDot ++ slash :: (ofString (outward k)).units := ofString_outward k
    rw [hunits, solidPieces_append, ih]
    rfl

theorem location_join_outward {dir : Path} {base suffix : List Part}
    (h : dir.location = base ++ suffix) (hsuffix : ∀ part ∈ suffix, ∃ n, part = .name n) :
    (dir / ofString (outward suffix.length)).location =
      base ++ [.name (Name.ofString "b")] := by
  have hup := @walk_up base.reverse suffix.reverse fun part hpart =>
    hsuffix part (List.mem_reverse.1 hpart)
  rw [List.length_reverse] at hup
  rw [location_join (isAbsolute_outward _), solid_outward, List.foldl_append, h,
    List.reverse_append, hup]
  show (Part.name (Name.ofString "b") :: base.reverse).reverse = _
  rw [List.reverse_cons, List.reverse_reverse]

/-- From a directory that is not safe, some path is rebased to an entry that is read with a key and
a path that leaves the root. -/
theorem exists_escape_of_not_safeDir {root dir : Path} (ha : root.Anchored)
    (hs : ¬ SafeDir root dir) :
    ∃ value r, '=' ∉ value.toList ∧ root.rebase dir value = .ok r ∧
      ¬ (ofString (readFile r).2).Contained := by
  unfold SafeDir at hs
  push Not at hs
  obtain ⟨rest, text, ⟨suffix, hdir⟩, htext, key, path, hread, hpath⟩ := hs
  obtain ⟨part, hpart, hne⟩ := ha
  have hloc : IsLocation (root.location ++ (rest ++ suffix)) := by
    rw [← List.append_assoc, hdir]
    exact isLocation_location dir
  have hnames : ∀ q ∈ suffix, ∃ n, q = .name n := fun q hq =>
    hloc.exists_name hpart hne (List.mem_append_right rest hq)
  have hjoin := location_join_outward hdir.symm hnames
  have hrest : rest ≠ [] := by
    rintro rfl
    obtain rfl : "." = text := Option.some.inj htext
    exact absurd hread (by simp [readFile_of_not_mem (show '=' ∉ ".".toList by decide)])
  obtain ⟨ss, hss, rfl⟩ := spellings_of_relativeText? htext
  rw [if_neg hrest] at hread
  have hspell : (ss ++ ["b"]).map Name.ofString =
      (rest ++ [Part.name (Name.ofString "b")]).map Part.spelling := by
    rw [List.map_append, List.map_append, hss]
    rfl
  have hssne : ss ≠ [] := by
    rintro rfl
    exact hrest (List.map_eq_nil_iff.1 hss.symm)
  have hr : relativeText? (rest ++ [Part.name (Name.ofString "b")]) =
      some ("/".intercalate ss ++ "/" ++ "b") := by
    rw [relativeText?_of_spellings (by simp) hspell,
      String.intercalate_append_of_ne_nil hssne (by simp), String.intercalate_singleton]
  obtain ⟨htexteq, hkey⟩ := eq_of_readFile hread
  refine ⟨outward suffix.length, _, mark_not_mem_outward _,
    Path.rebase_eq_ok_iff.2 ⟨_, ?_, hr⟩, ?_⟩
  · rw [hjoin, List.append_assoc]
  · have hentry : "/".intercalate ss ++ "/" ++ "b" = key ++ "=" ++ (path ++ "/b") := by
      rw [htexteq]
      simp only [String.append_assoc]
      rfl
    rw [hentry, readFile_append hkey]
    have habsolute : ¬ (ofString ("" ++ "/b")).Contained := fun hc => absurd hc.1 (by decide)
    have hup : ¬ (ofString (".." ++ "/b")).Contained := fun hc => hc.2 (by decide)
    by_cases hempty : path = ""
    · rw [hempty]
      exact habsolute
    · rw [hpath hempty]
      exact hup

end Generator
end LayeredConfig
