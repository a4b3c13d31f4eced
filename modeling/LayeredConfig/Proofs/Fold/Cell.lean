/-
An accumulator as one cell for each field.

The cell of a field holds what the accumulated fragment has there and the keys that the ledger has
met there. The cells and the header, which no field covers, are all of an accumulator
(`Accumulator.ext_cells`), and putting a cell in place leaves the others as they are. So what a
fold does can be said field by field.
-/
import LayeredConfig.Fold.Basic
import LayeredConfig.Proofs.Fold.Sift

namespace LayeredConfig

/-! ## Fields of a fragment -/

/-- What a field of a fragment holds. -/
abbrev Field.Value : Field → Type
  | .bases => Option (List String)
  | .namePrefix | .nameSuffix | .nameSpace => String
  | .commonLabels | .commonAnnotations => Dict String
  | .generatorOptions => Option GeneratorOptions
  | .resources | .crds | .strategicPatches | .configurations => List String
  | .images => List Image
  | .configMaps => List Generator
  | .secrets => List SecretGenerator
  | .vars => List Var
  | .jsonPatches => List JsonPatch

namespace Fragment

def get (f : Fragment) : (field : Field) → field.Value
  | .bases => f.bases
  | .namePrefix => f.namePrefix
  | .nameSuffix => f.nameSuffix
  | .nameSpace => f.nameSpace
  | .commonLabels => f.commonLabels
  | .commonAnnotations => f.commonAnnotations
  | .generatorOptions => f.generatorOptions
  | .resources => f.resources
  | .images => f.images
  | .crds => f.crds
  | .configMaps => f.configMaps
  | .secrets => f.secrets
  | .vars => f.vars
  | .strategicPatches => f.strategicPatches
  | .jsonPatches => f.jsonPatches
  | .configurations => f.configurations

def set (f : Fragment) : (field : Field) → field.Value → Fragment
  | .bases, v => { f with bases := v }
  | .namePrefix, v => { f with namePrefix := v }
  | .nameSuffix, v => { f with nameSuffix := v }
  | .nameSpace, v => { f with nameSpace := v }
  | .commonLabels, v => { f with commonLabels := v }
  | .commonAnnotations, v => { f with commonAnnotations := v }
  | .generatorOptions, v => { f with generatorOptions := v }
  | .resources, v => { f with resources := v }
  | .images, v => { f with images := v }
  | .crds, v => { f with crds := v }
  | .configMaps, v => { f with configMaps := v }
  | .secrets, v => { f with secrets := v }
  | .vars, v => { f with vars := v }
  | .strategicPatches, v => { f with strategicPatches := v }
  | .jsonPatches, v => { f with jsonPatches := v }
  | .configurations, v => { f with configurations := v }

structure Header where
  apiVersion : Option String
  kind : Option String
  unsupported : Dict Yaml.Value

def header (f : Fragment) : Header := ⟨f.apiVersion, f.kind, f.unsupported⟩

theorem get_set_self (f : Fragment) (field : Field) (v : field.Value) :
    (f.set field v).get field = v := by
  cases field <;> rfl

theorem get_set_of_ne (f : Fragment) {field other : Field} (v : field.Value) (h : other ≠ field) :
    (f.set field v).get other = f.get other := by
  cases field <;> cases other <;> first | rfl | exact absurd rfl h

theorem header_set (f : Fragment) (field : Field) (v : field.Value) :
    (f.set field v).header = f.header := by
  cases field <;> rfl

def ofFields (h : Header) (v : (field : Field) → field.Value) : Fragment where
  apiVersion := h.apiVersion
  kind := h.kind
  namePrefix := v .namePrefix
  nameSuffix := v .nameSuffix
  nameSpace := v .nameSpace
  commonLabels := v .commonLabels
  commonAnnotations := v .commonAnnotations
  strategicPatches := v .strategicPatches
  jsonPatches := v .jsonPatches
  images := v .images
  vars := v .vars
  resources := v .resources
  crds := v .crds
  bases := v .bases
  configMaps := v .configMaps
  secrets := v .secrets
  generatorOptions := v .generatorOptions
  configurations := v .configurations
  unsupported := h.unsupported

theorem get_ofFields (h : Header) (v : (field : Field) → field.Value) (field : Field) :
    (ofFields h v).get field = v field := by
  cases field <;> rfl

/-- The header and the fields are all of a fragment. -/
theorem ext_get {f g : Fragment} (hh : f.header = g.header)
    (h : ∀ field, f.get field = g.get field) : f = g := by
  obtain ⟨hv, hk, hu⟩ := Header.mk.inj hh
  cases f
  cases g
  simp only [mk.injEq]
  exact ⟨hv, hk, h .namePrefix, h .nameSuffix, h .nameSpace, h .commonLabels,
    h .commonAnnotations, h .strategicPatches, h .jsonPatches, h .images, h .vars, h .resources,
    h .crds, h .bases, h .configMaps, h .secrets, h .generatorOptions, h .configurations, hu⟩

end Fragment

/-! ## Keys of a ledger -/

namespace Ledger

theorem ext_seen {l l' : Ledger} (h : ∀ field, l.seen field = l'.seen field) : l = l' := by
  cases l
  cases l'
  rw [mk.injEq]
  exact funext h

/-- The ledger with these keys met in the field. -/
def set (l : Ledger) (field : Field) (keys : List String) (h : keys.Nodup) : Ledger where
  seen g := if g = field then keys else l.seen g
  nodup g := by
    by_cases hg : g = field
    · rw [if_pos hg]
      exact h
    · rw [if_neg hg]
      exact l.nodup g

theorem seen_set_self (l : Ledger) (field : Field) {keys : List String} (h : keys.Nodup) :
    (l.set field keys h).seen field = keys := if_pos rfl

theorem seen_set_of_ne (l : Ledger) {field other : Field} {keys : List String} (h : keys.Nodup)
    (hne : other ≠ field) : (l.set field keys h).seen other = l.seen other := if_neg hne

theorem add_of_mem {l : Ledger} {field : Field} {key : String} (h : key ∈ l.seen field) :
    l.add field key = l := dif_pos h

theorem seen_add_self (l : Ledger) (field : Field) (key : String) :
    (l.add field key).seen field = meet (l.seen field) [key] := by
  rw [meet_cons, meet_nil]
  by_cases h : key ∈ l.seen field
  · simp [add, h]
  · simp [add, h]

theorem seen_add_of_ne (l : Ledger) {field other : Field} (key : String) (h : other ≠ field) :
    (l.add field key).seen other = l.seen other := by
  by_cases hk : key ∈ l.seen field
  · simp [add, hk]
  · simp [add, hk, h]

end Ledger

/-! ## Cells -/

/-- What a fold has built up for one field. -/
structure Cell (field : Field) where
  value : field.Value
  seen : List String
  nodup : seen.Nodup

namespace Cell

variable {field : Field}

theorem ext_of {c d : Cell field} (hv : c.value = d.value) (hs : c.seen = d.seen) : c = d := by
  cases c
  cases d
  simp only [mk.injEq]
  exact ⟨hv, hs⟩

/-- The cell with a new value after some keys have been met. -/
def take (c : Cell field) (keys : List String) (value : field.Value) : Cell field :=
  ⟨value, meet c.seen keys, nodup_meet c.nodup keys⟩

end Cell

namespace Accumulator

def cell (acc : Accumulator) (field : Field) : Cell field :=
  ⟨acc.fragment.get field, acc.ledger.seen field, acc.ledger.nodup field⟩

def put (acc : Accumulator) (field : Field) (c : Cell field) : Accumulator :=
  ⟨acc.fragment.set field c.value, acc.ledger.set field c.seen c.nodup⟩

theorem cell_put_self (acc : Accumulator) (field : Field) (c : Cell field) :
    (acc.put field c).cell field = c :=
  Cell.ext_of (Fragment.get_set_self _ field c.value) (Ledger.seen_set_self _ field c.nodup)

theorem cell_put_of_ne (acc : Accumulator) {field other : Field} (c : Cell field)
    (h : other ≠ field) : (acc.put field c).cell other = acc.cell other :=
  Cell.ext_of (Fragment.get_set_of_ne _ c.value h) (Ledger.seen_set_of_ne _ c.nodup h)

theorem header_put (acc : Accumulator) (field : Field) (c : Cell field) :
    (acc.put field c).fragment.header = acc.fragment.header :=
  Fragment.header_set _ field c.value

/-- The header and the cells are all of an accumulator. -/
theorem ext_cells {acc acc' : Accumulator} (hh : acc.fragment.header = acc'.fragment.header)
    (h : ∀ field, acc.cell field = acc'.cell field) : acc = acc' := by
  have hf : acc.fragment = acc'.fragment :=
    Fragment.ext_get hh fun field => congrArg Cell.value (h field)
  have hl : acc.ledger = acc'.ledger :=
    Ledger.ext_seen fun field => congrArg Cell.seen (h field)
  cases acc
  cases acc'
  rw [mk.injEq]
  exact ⟨hf, hl⟩

theorem exists_of_cells (h : Fragment.Header) (cells : (field : Field) → Cell field) :
    ∃ acc : Accumulator, acc.fragment.header = h ∧ ∀ field, acc.cell field = cells field := by
  let fragment := Fragment.ofFields h fun field => (cells field).value
  let ledger : Ledger := ⟨fun field => (cells field).seen, fun field => (cells field).nodup⟩
  refine ⟨⟨fragment, ledger⟩, rfl, fun field => ?_⟩
  have hvalue : fragment.get field = (cells field).value := Fragment.get_ofFields h _ field
  exact Cell.ext_of hvalue rfl

theorem put_cell (acc : Accumulator) (field : Field) : acc.put field (acc.cell field) = acc := by
  refine ext_cells (header_put acc field _) fun g => ?_
  by_cases hg : g = field
  · subst hg
    exact cell_put_self acc g _
  · exact cell_put_of_ne acc _ hg

theorem put_put (acc : Accumulator) {field : Field} (c d : Cell field) :
    (acc.put field c).put field d = acc.put field d := by
  refine ext_cells ?_ fun g => ?_
  · rw [header_put, header_put, header_put]
  · by_cases hg : g = field
    · subst hg
      rw [cell_put_self, cell_put_self]
    · rw [cell_put_of_ne _ _ hg, cell_put_of_ne _ _ hg, cell_put_of_ne _ _ hg]

/-- Changing one cell is changing that cell and no other. -/
theorem put_eq_iff {acc acc' : Accumulator} {field : Field} {c : Cell field} :
    acc.put field c = acc' ↔ acc'.fragment.header = acc.fragment.header ∧
      acc'.cell field = c ∧ ∀ g, g ≠ field → acc'.cell g = acc.cell g := by
  constructor
  · intro h
    subst h
    refine ⟨header_put acc field c, cell_put_self acc field c, ?_⟩
    intro g hg
    exact cell_put_of_ne acc c hg
  · intro ⟨hh, hc, hrest⟩
    refine ext_cells ?_ fun g => ?_
    · rw [header_put, hh]
    · by_cases hg : g = field
      · subst hg
        rw [cell_put_self, hc]
      · rw [cell_put_of_ne acc c hg, hrest g hg]

end Accumulator
end LayeredConfig
