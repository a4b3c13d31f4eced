/-
What a record takes from a mapping.

A record splits the entries of a mapping by its names, and no entry gets lost on the way: a field
is read from what stands under its name (`Record.required_eq_ok`, `Record.getD_eq_ok`), and the
other keys are the keys of what is left over (`Record.kept_rest`).
-/
import LayeredConfig.Proofs.Dict
import LayeredConfig.Proofs.Yaml.Plain
import LayeredConfig.Yaml.Record

namespace LayeredConfig
namespace Yaml

/-! ## Entries of a node -/

namespace Node

variable {n : Node}

/-- The entries of a mapping that have a scalar as their key, by its text. -/
def named : Node → List (String × Node)
  | .map _ entries => entries.filterMap fun
    | (.scalar _ _ key, v) => some (key, v)
    | _ => none
  | _ => []

def keys (n : Node) : List String := n.named.map (·.1)

/-- The node under a key, an empty one if there is none. -/
def under (n : Node) (key : String) : Node := (n.named.lookup key).getD .empty

/-- The nodes in a sequence. -/
def elements : Node → List Node
  | .seq _ items => items
  | _ => []

theorem named_map {tag : Option String} {entries : List (Node × Node)}
    {fields : List (String × Node)}
    (h : List.Forall₂ (fun e field => e.1.text = .ok field.1 ∧ e.2 = field.2) entries fields) :
    (Node.map tag entries).named = fields := by
  unfold named
  induction h with
  | nil => rfl
  | @cons e field _ _ he _ ih =>
    obtain ⟨k, v⟩ := e
    obtain ⟨name, m⟩ := field
    obtain ⟨hk, rfl⟩ := he
    cases k with
    | scalar tag style text =>
      obtain rfl : text = name := Except.ok.inj hk
      exact congrArg (List.cons _) ih
    | seq => exact absurd hk nofun
    | map => exact absurd hk nofun

theorem fields_eq_ok {fields : List (String × Node)} (h : n.fields = .ok fields) :
    fields = n.named := by
  obtain ⟨es, hes, h⟩ := bind_eq_ok_iff.1 h
  have hall := mapM_eq_ok_iff.1 h
  cases n with
  | map tag entries =>
    obtain rfl : entries = es := Except.ok.inj hes
    refine (named_map (hall.imp fun e field he => ?_)).symm
    obtain ⟨key, hkey, hfield⟩ := bind_eq_ok_iff.1 he
    obtain rfl : (key, e.2) = field := Except.ok.inj hfield
    exact ⟨hkey, rfl⟩
  | scalar tag style text =>
    replace hes : (if (Node.scalar tag style text).isEmpty then Except.ok [] else
      Except.error Error.shape) = Except.ok es := hes
    by_cases hempty : (Node.scalar tag style text).isEmpty = true
    · rw [if_pos hempty] at hes
      obtain rfl : [] = es := Except.ok.inj hes
      exact List.forall₂_nil_left_iff.1 hall
    · rw [if_neg hempty] at hes
      exact absurd hes nofun
  | seq tag items => exact absurd hes nofun

theorem items_eq_ok {items : List Node} (h : n.items = .ok items) : items = n.elements := by
  cases n with
  | seq tag xs => exact (Except.ok.inj h).symm
  | map tag entries => exact absurd h nofun
  | scalar tag style text =>
    replace h : (if (Node.scalar tag style text).isEmpty then Except.ok [] else
      Except.error Error.shape) = Except.ok items := h
    by_cases hempty : (Node.scalar tag style text).isEmpty = true
    · rw [if_pos hempty] at h
      exact (Except.ok.inj h).symm
    · rw [if_neg hempty] at h
      exact absurd h nofun

/-- Where a value may be left out, there is one or the node has no keys. -/
theorem optional_eq_ok {α : Type} {read : Node → Except Error α} {o : Option α}
    (h : n.optional read = .ok o) :
    (o = none ∧ n.keys = []) ∨ ∃ a, o = some a ∧ read n = .ok a := by
  obtain ⟨nothing, hnothing, h⟩ := bind_eq_ok_iff.1 h
  cases nothing with
  | true =>
    obtain rfl := Except.ok.inj h
    cases n with
    | scalar tag style text => exact .inl ⟨rfl, rfl⟩
    | seq tag items => exact absurd (Except.ok.inj hnothing) Bool.false_ne_true
    | map tag entries => exact absurd (Except.ok.inj hnothing) Bool.false_ne_true
  | false =>
    obtain ⟨a, ha, h⟩ := bind_eq_ok_iff.1 h
    exact .inr ⟨a, (Except.ok.inj h).symm, ha⟩

end Node

/-! ## Records -/

namespace Record

variable {α : Type} {names : List String} {n : Node} {r : Record} {name : String} {d : Dict Value}
variable {read : Node → Except Error α} {a default : α}

theorem ofNode_eq_ok (h : ofNode names n = .ok r) :
    r.known = n.named.filter (·.1 ∈ names) ∧ r.others = n.named.filter (·.1 ∉ names) := by
  obtain ⟨fields, hfields, h⟩ := bind_eq_ok_iff.1 h
  obtain rfl := Node.fields_eq_ok hfields
  unfold ofFields at h
  cases hrep : repeated? ((n.named.filter (·.1 ∈ names)).map (·.1)) with
  | some name =>
    simp only [hrep] at h
    exact absurd h nofun
  | none =>
    simp only [hrep] at h
    obtain rfl := Except.ok.inj h
    exact ⟨rfl, rfl⟩

theorem lookup_known (h : ofNode names n = .ok r) (hname : name ∈ names) :
    r.known.lookup name = n.named.lookup name := by
  rw [(ofNode_eq_ok h).1, Dict.lookup_filter (fun _ => by simpa using hname)]

theorem required_eq_ok (h : ofNode names n = .ok r) (ha : r.required name read = .ok a)
    (hname : name ∈ names) : read (n.under name) = .ok a := by
  rw [required, lookup_known h hname] at ha
  rw [Node.under]
  cases hm : n.named.lookup name with
  | none =>
    rw [hm] at ha
    exact absurd ha nofun
  | some m =>
    rw [hm] at ha
    exact ha

/-- A field whose default is what an empty node is read as is read from the node under its name. -/
theorem getD_eq_ok (h : ofNode names n = .ok r) (ha : r.getD name default read = .ok a)
    (hname : name ∈ names) (hdefault : read .empty = .ok default) :
    read (n.under name) = .ok a := by
  rw [getD, lookup_known h hname] at ha
  rw [Node.under]
  cases hm : n.named.lookup name with
  | none =>
    rw [hm] at ha
    exact hdefault.trans ha
  | some m =>
    rw [hm] at ha
    exact ha

theorem get?_eq_ok {o : Option α} (h : ofNode names n = .ok r) (ho : r.get? name read = .ok o)
    (hname : name ∈ names) : Node.optional read (n.under name) = .ok o :=
  getD_eq_ok h ho hname rfl

end Record

/-! ## What is left over -/

/-- A dictionary keeps what a mapping has beside the given names: it has the other keys, and its
values are without tags. -/
structure Kept (names : List String) (n : Node) (d : Dict Value) : Prop where
  mem_keys : ∀ key, key ∈ d.keys ↔ key ∈ n.keys ∧ key ∉ names
  plain : ∀ e ∈ d.entries, e.2.isPlain

theorem keys_filter {β : Type} (names : List String) (l : List (String × β)) :
    (l.filter (·.1 ∉ names)).map (·.1) = (l.map (·.1)).filter (· ∉ names) := by
  rw [List.filter_map]
  rfl

section

variable {entries : List (String × Node)} {values : List (String × Value)}

/-- Reading the values of some entries leaves their keys. -/
theorem keys_of_mapM (h : (entries.mapM fun (k, n) => return (k, ← Value.ofNode false n) :
    Except Error (List (String × Value))) = .ok values) :
    values.map (·.1) = entries.map (·.1) := by
  have hall := (mapM_eq_ok_iff.1 h).flip
  rw [← List.forall₂_eq_eq_eq, List.forall₂_map_left_iff, List.forall₂_map_right_iff]
  refine hall.imp fun value entry hvalue => ?_
  obtain ⟨v, -, hpair⟩ := bind_eq_ok_iff.1 hvalue
  exact congrArg Prod.fst (Except.ok.inj hpair).symm

theorem plain_of_mapM (h : (entries.mapM fun (k, n) => return (k, ← Value.ofNode false n) :
    Except Error (List (String × Value))) = .ok values) : ∀ e ∈ values, e.2.isPlain := by
  intro e he
  obtain ⟨entry, -, hentry⟩ := exists_of_mem_mapM h he
  obtain ⟨v, hv, hpair⟩ := bind_eq_ok_iff.1 hentry
  obtain rfl := Except.ok.inj hpair
  exact Value.isPlain_of_ofNode entry.2 hv

end

theorem Record.kept_rest {names : List String} {n : Node} {r : Record} {d : Dict Value}
    (h : ofNode names n = .ok r) (hd : r.rest = .ok d) : Kept names n d := by
  obtain ⟨values, hvalues, hd⟩ := bind_eq_ok_iff.1 hd
  obtain rfl := Except.ok.inj hd
  refine ⟨fun key => ?_, fun e he => plain_of_mapM hvalues e (Dict.mem_of_mem_ofList he)⟩
  rw [Dict.mem_keys_ofList, keys_of_mapM hvalues, (ofNode_eq_ok h).2, keys_filter, List.mem_filter,
    decide_eq_true_eq, Node.keys]

end Yaml
end LayeredConfig
