/-
Keys that a fold would lose.

The document of a fragment is a mapping with mappings inside, each for an object that declares some
keys. A fold loses no other key: a fragment is folded only if there is none, and otherwise the error
names the first one and nothing has changed (`Fragment.foldInto_document`).

The generator options are looked at right after the fragment itself, although they come after all
lists of objects in the order of the fields. So the key that is named is not always the first one
in field order (`Fragment.options_named_before_images`).
-/
import Mathlib
import LayeredConfig.Fold.Layer
import LayeredConfig.Proofs.Fragment.Fields
import LayeredConfig.Proofs.Yaml.Decide

namespace LayeredConfig
namespace Fragment

open Yaml (Value Node Record Kept Error)

/-! ## Mappings -/

/-- A mapping in the document of a fragment: where it stands, the keys that its object declares,
and the keys that it has. -/
structure Mapping where
  place : String
  declared : List String
  keys : List String

namespace Mapping

/-- The mapping at a node; it has no keys if the node is not a mapping. -/
def ofNode (place : String) (declared : List String) (n : Node) : Mapping :=
  ⟨place, declared, n.keys⟩

/-- Where a key of the mapping is; the outermost mapping has no name. -/
def locate (m : Mapping) (key : String) : String :=
  if m.place.isEmpty then key else m.place ++ "." ++ key

def Undeclared (m : Mapping) (key : String) : Prop := key ∈ m.keys ∧ key ∉ m.declared

/-- Whether the object declares all keys. -/
def Declared (m : Mapping) : Prop := ∀ key ∈ m.keys, key ∈ m.declared

instance (m : Mapping) : Decidable m.Declared :=
  inferInstanceAs (Decidable (∀ key ∈ m.keys, key ∈ m.declared))

/-- The undeclared keys in order, each once. -/
def undeclared (m : Mapping) : List String :=
  (Dict.ofList ((m.keys.filter (· ∉ m.declared)).map fun key => (key, ()))).keys

def locations (m : Mapping) : List String := m.undeclared.map m.locate

variable {m : Mapping} {key : String}

theorem mem_undeclared : key ∈ m.undeclared ↔ m.Undeclared key := by
  rw [undeclared, Dict.mem_keys_ofList, List.map_map]
  simp [Undeclared]

theorem undeclared_eq_nil_iff : m.undeclared = [] ↔ m.Declared := by
  rw [List.eq_nil_iff_forall_not_mem]
  refine forall_congr' fun key => ?_
  rw [mem_undeclared, Undeclared, not_and, not_not]

theorem locations_of_kept {place : String} {names : List String} {n : Node} {d : Dict Value}
    (h : Kept names n d) : Scope.locations (place, d) = (ofNode place names n).locations := by
  have hmem (key : String) : key ∈ d.keys ↔ key ∈ (ofNode place names n).undeclared := by
    rw [mem_undeclared]
    exact h.mem_keys key
  have hkeys : d.keys = (ofNode place names n).undeclared := Dict.keys_eq_of_mem_iff hmem
  rw [locations, ← hkeys]
  rfl

/-! ## The first key -/

/-- The least undeclared key of the first mapping that has one. -/
def First (ms : List Mapping) (m : Mapping) (key : String) : Prop :=
  ∃ before after, ms = before ++ m :: after ∧ (∀ b ∈ before, b.Declared) ∧
    m.Undeclared key ∧ ∀ other, m.Undeclared other → key ≤ other

theorem flatMap_locations_eq_nil_iff {ms : List Mapping} :
    ms.flatMap locations = [] ↔ ∀ m ∈ ms, m.Declared := by
  rw [List.flatMap_eq_nil_iff]
  refine forall₂_congr fun m _ => ?_
  rw [locations, List.map_eq_nil_iff, undeclared_eq_nil_iff]

theorem first_of_head? {ms : List Mapping} {location : String}
    (h : (ms.flatMap locations).head? = some location) :
    ∃ m key, First ms m key ∧ location = m.locate key := by
  induction ms with
  | nil => exact absurd h nofun
  | cons m ms ih =>
    rw [List.flatMap_cons, List.head?_append, locations, List.head?_map] at h
    cases hkeys : m.undeclared with
    | nil =>
      rw [hkeys] at h
      obtain ⟨m', key, ⟨before, after, rfl, hbefore, hfirst⟩, hlocation⟩ := ih h
      refine ⟨m', key, ⟨m :: before, after, rfl, ?_, hfirst⟩, hlocation⟩
      exact List.forall_mem_cons.2 ⟨undeclared_eq_nil_iff.1 hkeys, hbefore⟩
    | cons key keys =>
      rw [hkeys] at h
      obtain rfl : m.locate key = location := Option.some.inj h
      have hsorted : (key :: keys).Pairwise (· < ·) := hkeys ▸ Dict.sorted_keys _
      refine ⟨m, key, ⟨[], ms, rfl, nofun, ?_, fun other hother => ?_⟩, rfl⟩
      · rw [← mem_undeclared, hkeys]
        exact List.mem_cons_self
      · rw [← mem_undeclared, hkeys] at hother
        rcases List.mem_cons.1 hother with rfl | hother
        · exact String.le_refl other
        · exact String.not_lt.1 (String.lt_asymm ((List.pairwise_cons.1 hsorted).1 other hother))

theorem First.mem {ms : List Mapping} (h : First ms m key) : m ∈ ms := by
  obtain ⟨before, after, rfl, -⟩ := h
  exact List.mem_append_right _ List.mem_cons_self

/-- The first key of several mappings, if not that of the first ones, is that of the others. -/
theorem first_append_iff {ms ms' : List Mapping} :
    First (ms ++ ms') m key ↔ First ms m key ∨ ((∀ m ∈ ms, m.Declared) ∧ First ms' m key) := by
  constructor
  · rintro ⟨before, after, heq, hbefore, hfirst⟩
    rcases List.append_eq_append_iff.1 heq with ⟨rest, rfl, rfl⟩ | ⟨rest, rfl, hrest⟩
    · refine .inr ⟨fun b hb => hbefore b (List.mem_append_left _ hb), rest, after, rfl, ?_, hfirst⟩
      exact fun b hb => hbefore b (List.mem_append_right _ hb)
    · cases rest with
      | nil =>
        refine .inr ⟨by simpa using hbefore, [], after, hrest.symm, nofun, hfirst⟩
      | cons m' rest =>
        obtain ⟨rfl, rfl⟩ := List.cons.inj hrest
        exact .inl ⟨before, rest, rfl, hbefore, hfirst⟩
  · rintro (⟨before, after, rfl, hbefore, hfirst⟩ | ⟨hms, before, after, rfl, hbefore, hfirst⟩)
    · exact ⟨before, after ++ ms', by simp, hbefore, hfirst⟩
    · refine ⟨ms ++ before, after, by simp, ?_, hfirst⟩
      exact List.forall_mem_append.2 ⟨hms, hbefore⟩

end Mapping

/-! ## Documents -/

open Mapping

/-- The mappings of the items under a key. -/
def itemMappings (list : String) (mappings : String → Node → List Mapping) (n : Node) :
    List Mapping :=
  (n.under list).elements.zipIdx.flatMap fun (item, i) => mappings (itemName list i) item

def ownMapping (n : Node) : List Mapping := [.ofNode "" fieldNames n]

def optionsMapping (n : Node) : List Mapping :=
  [.ofNode "generatorOptions" GeneratorOptions.fieldNames (n.under "generatorOptions")]

def patchMappings (place : String) (n : Node) : List Mapping :=
  [.ofNode place JsonPatch.fieldNames n,
    .ofNode (place ++ ".target") PatchTarget.fieldNames (n.under "target")]

def varMappings (place : String) (n : Node) : List Mapping :=
  [.ofNode place Var.fieldNames n,
    .ofNode (place ++ ".objref") ObjectRef.fieldNames (n.under "objref"),
    .ofNode (place ++ ".fieldref") FieldRef.fieldNames (n.under "fieldref")]

/-- The mappings inside the lists of a document. -/
def listMappings (n : Node) : List Mapping :=
  itemMappings "patchesJson6902" patchMappings n ++
  itemMappings "images" (fun place i => [.ofNode place Image.fieldNames i]) n ++
  itemMappings "vars" varMappings n ++
  itemMappings "configMapGenerator" (fun place g => [.ofNode place Generator.fieldNames g]) n ++
  itemMappings "secretGenerator" (fun place s => [.ofNode place SecretGenerator.fieldNames s]) n

/-- All mappings of a document, as a fold goes through them. -/
def mappings (n : Node) : List Mapping := ownMapping n ++ optionsMapping n ++ listMappings n

/-- All mappings of a document in field order. -/
def mappingsByField (n : Node) : List Mapping := ownMapping n ++ listMappings n ++ optionsMapping n

variable {n : Node} {f : Fragment}

theorem locations_zipIdx {α : Type} {R : Node → α → Prop} {list : String}
    {scopes : String → α → List Scope} {mappings : String → Node → List Mapping}
    (hstep : ∀ place item a, R item a →
      (scopes place a).flatMap Scope.locations = (mappings place item).flatMap locations)
    {items : List Node} {l : List α} (h : List.Forall₂ R items l) (start : Nat) :
    ((l.zipIdx start).flatMap fun (a, i) => scopes (itemName list i) a).flatMap Scope.locations =
      ((items.zipIdx start).flatMap fun (item, i) => mappings (itemName list i) item).flatMap
        locations := by
  induction h generalizing start with
  | nil => rfl
  | cons hitem _ ih =>
    rw [List.zipIdx_cons, List.zipIdx_cons, List.flatMap_cons, List.flatMap_cons,
      List.flatMap_append, List.flatMap_append, hstep _ _ _ hitem, ih]

theorem locations_itemScopes {α : Type} {read : Node → Except Error α} {list : String}
    {scopes : String → α → List Scope} {mappings : String → Node → List Mapping} {l : List α}
    (hstep : ∀ place item a, read item = .ok a →
      (scopes place a).flatMap Scope.locations = (mappings place item).flatMap locations)
    (h : Node.list read (n.under list) = .ok l) :
    (itemScopes list scopes l).flatMap Scope.locations =
      (itemMappings list mappings n).flatMap locations := by
  obtain ⟨items, hitems, hl⟩ := bind_eq_ok_iff.1 h
  obtain rfl := Node.items_eq_ok hitems
  exact locations_zipIdx hstep (mapM_eq_ok_iff.1 hl) 0

theorem locations_optional {α : Type} {read : Node → Except Error α} {unsupported : α → Dict Value}
    {names : List String} {o : Option α}
    (hread : ∀ a, read n = .ok a → Kept names n (unsupported a))
    (place : String) (h : Node.optional read n = .ok o) :
    (o.toList.map fun a => (place, unsupported a)).flatMap Scope.locations =
      (Mapping.ofNode place names n).locations := by
  rcases Node.optional_eq_ok h with ⟨rfl, hkeys⟩ | ⟨a, rfl, ha⟩
  · have hdeclared : (Mapping.ofNode place names n).Declared := fun key hkey => by
      rw [Mapping.ofNode, hkeys] at hkey
      exact absurd hkey List.not_mem_nil
    rw [locations, undeclared_eq_nil_iff.2 hdeclared]
    rfl
  · rw [← locations_of_kept (hread a ha)]
    exact List.flatMap_singleton _ _

theorem locations_patch (place : String) (n : Node) (p : JsonPatch)
    (h : JsonPatch.ofNode n = .ok p) :
    [(place, p.unsupported), (place ++ ".target", p.target.unsupported)].flatMap Scope.locations =
      (patchMappings place n).flatMap locations := by
  obtain ⟨r, hr, htarget, -, -⟩ := JsonPatch.ofNode_eq_ok_iff.1 h
  have htarget := Record.required_eq_ok hr htarget (by decide)
  simp only [patchMappings, List.flatMap_cons, List.flatMap_nil,
    locations_of_kept (JsonPatch.kept h),
    locations_of_kept (PatchTarget.kept htarget)]

theorem locations_var (place : String) (n : Node) (v : Var) (h : Var.ofNode n = .ok v) :
    ([(place, v.unsupported), (place ++ ".objref", v.object.unsupported)] ++
      v.field.toList.map fun r => (place ++ ".fieldref", r.unsupported)).flatMap Scope.locations =
      (varMappings place n).flatMap locations := by
  obtain ⟨r, hr, -, hobject, hfield, -⟩ := Var.ofNode_eq_ok_iff.1 h
  have hobject := Record.required_eq_ok hr hobject (by decide)
  have hfield := Record.get?_eq_ok hr hfield (by decide)
  rw [List.flatMap_append, locations_optional (fun _ => FieldRef.kept) _ hfield]
  simp only [varMappings, List.flatMap_cons, List.flatMap_nil, List.append_nil, List.append_assoc,
    locations_of_kept (Var.kept h), locations_of_kept (ObjectRef.kept hobject)]

/-- An object without objects inside has one mapping. -/
theorem locations_single {α : Type} {read : Node → Except Error α} {unsupported : α → Dict Value}
    {names : List String} (hread : ∀ n a, read n = .ok a → Kept names n (unsupported a))
    (place : String) (n : Node) (a : α) (h : read n = .ok a) :
    [(place, unsupported a)].flatMap Scope.locations =
      [Mapping.ofNode place names n].flatMap locations := by
  rw [List.flatMap_singleton, List.flatMap_singleton, locations_of_kept (hread n a h)]

/-- What a fragment reports as unsupported are the undeclared keys of its document. -/
theorem unsupportedFields_eq (h : ofNode n = .ok f) :
    f.unsupportedFields = (mappings n).flatMap locations := by
  obtain ⟨r, hr, -, -, -, -, -, -, -, -, hpatches, himages, hvars, -, -, -, hmaps, hsecrets,
    hoptions, -, -⟩ := ofNode_eq_ok_iff.1 h
  have hown := locations_single (fun _ _ => kept) "" n f h
  have hoptions := locations_optional (fun _ => GeneratorOptions.kept) "generatorOptions"
    (Record.get?_eq_ok hr hoptions (by decide))
  have hpatches := locations_itemScopes locations_patch
    (Record.getD_eq_ok hr hpatches (by decide) rfl)
  have himages := locations_itemScopes (locations_single fun _ _ => Image.kept)
    (Record.getD_eq_ok hr himages (by decide) rfl)
  have hvars := locations_itemScopes locations_var (Record.getD_eq_ok hr hvars (by decide) rfl)
  have hmaps := locations_itemScopes (locations_single fun _ _ => Generator.kept)
    (Record.getD_eq_ok hr hmaps (by decide) rfl)
  have hsecrets := locations_itemScopes (locations_single fun _ _ => SecretGenerator.kept)
    (Record.getD_eq_ok hr hsecrets (by decide) rfl)
  unfold unsupportedFields scopes mappings listMappings
  simp only [List.flatMap_append, hown, hoptions, hpatches, himages, hvars, hmaps, hsecrets]
  simp only [ownMapping, optionsMapping, List.flatMap_singleton, List.append_assoc]

/-! ## Folding a document -/

theorem bracket_mem_place_of_mem_list {m : Mapping} (h : m ∈ listMappings n) :
    '[' ∈ m.place.toList := by
  have hitem (list : String) (i : Nat) : '[' ∈ (itemName list i).toList := by simp [itemName]
  have hitems {list : String} {mappings : String → Node → List Mapping}
      (hplace : ∀ place item, ∀ m ∈ mappings place item, place.toList ⊆ m.place.toList)
      (h : m ∈ itemMappings list mappings n) : '[' ∈ m.place.toList := by
    obtain ⟨⟨item, i⟩, -, hm⟩ := List.mem_flatMap.1 h
    exact hplace _ _ m hm (hitem list i)
  simp only [listMappings, List.mem_append] at h
  rcases h with (((h | h) | h) | h) | h
  · exact hitems (by simp [patchMappings, Mapping.ofNode]) h
  · exact hitems (by simp [Mapping.ofNode]) h
  · exact hitems (by simp [varMappings, Mapping.ofNode]) h
  · exact hitems (by simp [Mapping.ofNode]) h
  · exact hitems (by simp [Mapping.ofNode]) h

/-- The mapping of the generator options is told from the others by its place. -/
theorem not_mem_options {m : Mapping} (h : m ∈ ownMapping n ++ listMappings n) :
    m ∉ optionsMapping n := by
  intro hoptions
  obtain rfl := List.mem_singleton.1 hoptions
  rcases List.mem_append.1 h with h | h
  · have hplace : "generatorOptions" = "" := congrArg Mapping.place (List.mem_singleton.1 h)
    exact absurd hplace (by decide)
  · have hplace : '[' ∈ "generatorOptions".toList := bracket_mem_place_of_mem_list h
    exact absurd hplace (by decide)

/-- The first key in the order of a fold is the first one in field order, unless it belongs to the
generator options and there is one in a list as well. -/
theorem first_byField_iff {m : Mapping} {key : String} (h : First (mappings n) m key) :
    First (mappingsByField n) m key ↔
      ¬ (m ∈ optionsMapping n ∧ ∃ other ∈ listMappings n, ¬ other.Declared) := by
  unfold mappingsByField
  rcases first_append_iff.1 h with h | ⟨hbefore, h⟩
  · rcases first_append_iff.1 h with h | ⟨hown, h⟩
    · have hfirst : First (ownMapping n ++ listMappings n) m key := first_append_iff.2 (.inl h)
      exact iff_of_true (first_append_iff.2 (.inl hfirst)) fun hm => not_mem_options hfirst.mem hm.1
    · rw [first_append_iff, List.forall_mem_append, not_and, not_exists]
      constructor
      · rintro (hfirst | ⟨⟨-, hlists⟩, -⟩)
        · exact absurd h.mem (not_mem_options hfirst.mem)
        · exact fun _ other ⟨hother, hnot⟩ => hnot (hlists other hother)
      · intro hlists
        exact .inr ⟨⟨hown, fun other hother => not_not.1 fun hnot =>
          hlists h.mem other ⟨hother, hnot⟩⟩, h⟩
  · have hfirst : First (ownMapping n ++ listMappings n) m key :=
      first_append_iff.2 (.inr ⟨(List.forall_mem_append.1 hbefore).1, h⟩)
    exact iff_of_true (first_append_iff.2 (.inl hfirst)) fun hm => not_mem_options hfirst.mem hm.1

theorem foldInto_of_unsupported {site : Site} {acc : Accumulator} {location : String}
    (h : f.unsupportedFields.head? = some location) :
    (f.foldInto site).run acc = .error (.unsupported location site.file) acc := by
  unfold foldInto
  rw [h]
  rfl

/-- A fold of a fragment read from a document loses no key. It takes the fragment only if all keys
are declared; otherwise it changes nothing and the error names the first key that is not. -/
theorem foldInto_document (h : ofNode n = .ok f) (site : Site) (acc : Accumulator) :
    ((∃ acc', (f.foldInto site).run acc = .ok () acc') → ∀ m ∈ mappings n, m.Declared) ∧
    ((∃ m ∈ mappings n, ¬ m.Declared) → ∃ m key, First (mappings n) m key ∧
      (f.foldInto site).run acc = .error (.unsupported (m.locate key) site.file) acc ∧
      (First (mappingsByField n) m key ↔
        ¬ (m ∈ optionsMapping n ∧ ∃ other ∈ listMappings n, ¬ other.Declared))) := by
  have hfields := unsupportedFields_eq h
  cases hhead : ((mappings n).flatMap locations).head? with
  | none =>
    have hall := flatMap_locations_eq_nil_iff.1 (List.head?_eq_none_iff.1 hhead)
    exact ⟨fun _ => hall, fun ⟨m, hm, hnot⟩ => absurd (hall m hm) hnot⟩
  | some location =>
    have hrun : (f.foldInto site).run acc = .error (.unsupported location site.file) acc :=
      foldInto_of_unsupported (hfields ▸ hhead)
    obtain ⟨m, key, hfirst, rfl⟩ := first_of_head? hhead
    refine ⟨fun ⟨acc', hacc⟩ => absurd (hrun.symm.trans hacc) nofun, fun _ => ?_⟩
    exact ⟨m, key, hfirst, hrun, first_byField_iff hfirst⟩

/-- The type of a secret is declared by secrets alone. -/
theorem foldInto_document_of_secret :
    let text (s : String) : Node := .scalar none .plain s
    let n : Node := .map none [(text "secretGenerator", .seq none
      [.map none [(text "name", text "tls"), (text "type", text "t"), (text "options", text "")]])]
    let site : Site := ⟨.ofString "app", .ofString "app/x"⟩
    ∃ f, ofNode n = .ok f ∧ (∃ m ∈ mappings n, ¬ m.Declared) ∧ ∃ m key, First (mappings n) m key ∧
      (f.foldInto site).run .blank = .error (.unsupported (m.locate key) site.file) .blank := by
  intro text n site
  have hn : ofNode n = .ok { secrets := [
      { name := "tls", secretType := some "t",
        unsupported := ⟨[("options", .null)], List.pairwise_singleton _ _⟩ }] } := by
    decide +kernel
  have hmappings : mappings n = [⟨"", fieldNames, ["secretGenerator"]⟩,
      ⟨"generatorOptions", GeneratorOptions.fieldNames, []⟩,
      ⟨"secretGenerator[0]", SecretGenerator.fieldNames, ["name", "type", "options"]⟩] := by cbv
  have hundeclared : ∃ m ∈ mappings n, ¬ m.Declared := by
    rw [hmappings]
    exact ⟨_, List.mem_cons_of_mem _ (List.mem_cons_of_mem _ List.mem_cons_self), by decide⟩
  obtain ⟨m, key, hfirst, hrun, -⟩ := (foldInto_document hn site .blank).2 hundeclared
  exact ⟨_, hn, hundeclared, m, key, hfirst, hrun⟩

/-- A key of the generator options is named although one of an image comes first in field order. -/
theorem options_named_before_images :
    let text (s : String) : Node := .scalar none .plain s
    let n : Node := .map none [
      (text "generatorOptions", .map none [(text "immutable", text "true")]),
      (text "images", .seq none
        [.map none [(text "name", text "a"), (text "tagSuffix", text "x")]])]
    let site : Site := ⟨.ofString "app", .ofString "app/x"⟩
    let image : Mapping := ⟨"images[0]", Image.fieldNames, ["name", "tagSuffix"]⟩
    ∃ f, ofNode n = .ok f ∧
      (f.foldInto site).run .blank =
        .error (.unsupported "generatorOptions.immutable" site.file) .blank ∧
      First (mappingsByField n) image "tagSuffix" ∧
      image.locate "tagSuffix" = "images[0].tagSuffix" := by
  intro text n site image
  have hn : ofNode n = .ok {
      images := [
        { name := "a", unsupported := ⟨[("tagSuffix", .string "x")], List.pairwise_singleton _ _⟩ }]
      generatorOptions := some
        { unsupported := ⟨[("immutable", .bool true)], List.pairwise_singleton _ _⟩ } } := by
    decide +kernel
  have hmappings : mappingsByField n =
      [⟨"", fieldNames, ["generatorOptions", "images"]⟩, image,
        ⟨"generatorOptions", GeneratorOptions.fieldNames, ["immutable"]⟩] := by cbv
  refine ⟨_, hn, foldInto_of_unsupported (by decide +kernel), ⟨[_], _, hmappings, ?_, ?_, ?_⟩, by decide⟩
  · exact List.forall_mem_singleton.2 (by decide)
  · exact ⟨by decide, by decide⟩
  · rintro other ⟨hkey, hnot⟩
    simp only [image, List.mem_cons, List.not_mem_nil, or_false] at hkey
    rcases hkey with rfl | rfl
    · exact absurd (by decide) hnot
    · exact String.le_refl _

end Fragment
end LayeredConfig
