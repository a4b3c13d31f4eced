/-
Values that may stand where tags have no place: those without tags and without equal keys in a
mapping. No other value is read there (`Value.isPlain_of_ofNode`).
-/
import LayeredConfig.Proofs.Result
import LayeredConfig.Yaml.Fields

namespace LayeredConfig
namespace Yaml

/-- Whether a value has no tags, and no key twice in any of its mappings. -/
def Value.isPlain : Value → Bool
  | .tagged .. => false
  | .seq items => itemsPlain items
  | .map entries => distinctKeys entries && entriesPlain entries
  | _ => true
where
  itemsPlain : List Value → Bool
    | [] => true
    | x :: rest => isPlain x && itemsPlain rest
  entriesPlain : List (Value × Value) → Bool
    | [] => true
    | (k, v) :: rest => isPlain k && isPlain v && entriesPlain rest

/-- A scalar as a value. -/
def Scalar.value : Scalar → Value
  | .null => .null
  | .bool b => .bool b
  | .int n => .int n
  | .float x => .float x
  | .text s => .string s

namespace Value

variable {n : Node} {v : Value} {s : Scalar} {tag : Option String}

theorem ofScalar_eq_ok (h : ofScalar s = .ok v) : s.value = v := by
  cases s with
  | int i =>
    change (if -Scalar.signedLimit ≤ i ∧ i < Scalar.unsignedLimit then Except.ok (Value.int i) else
      Except.error Error.shape) = .ok v at h
    by_cases hi : -Scalar.signedLimit ≤ i ∧ i < Scalar.unsignedLimit
    · rw [if_pos hi] at h
      exact Except.ok.inj h
    · rw [if_neg hi] at h
      exact absurd h nofun
  | _ => exact Except.ok.inj h

theorem withTag_eq_ok {w : Value} (h : withTag false tag w = .ok v) : w = v := by
  unfold withTag at h
  cases htag : tag.bind ownTag? with
  | none =>
    rw [htag] at h
    exact Except.ok.inj h
  | some name =>
    rw [htag] at h
    exact absurd h nofun

@[simp]
theorem isPlain_string (s : String) : (string s).isPlain = true := rfl

@[simp]
theorem isPlain_texts (l : List String) : (texts l).isPlain = true := by
  show isPlain.itemsPlain (l.map .string) = true
  induction l with
  | nil => rfl
  | cons s l ih => exact ih

mutual

/-- What is read without tags is plain. -/
theorem isPlain_of_ofNode : ∀ (n : Node) {v : Value}, ofNode false n = .ok v → v.isPlain
  | .scalar tag style text, v, h => by
    unfold ofNode at h
    obtain ⟨s, hs, h⟩ := bind_eq_ok_iff.1 h
    obtain ⟨w, hw, h⟩ := bind_eq_ok_iff.1 h
    obtain rfl := withTag_eq_ok h
    obtain rfl := ofScalar_eq_ok hw
    cases s <;> rfl
  | .seq tag items, v, h => by
    unfold ofNode at h
    obtain ⟨values, hvalues, h⟩ := bind_eq_ok_iff.1 h
    obtain rfl := withTag_eq_ok h
    exact itemsPlain_of_ofItems items hvalues
  | .map tag entries, v, h => by
    unfold ofNode at h
    obtain ⟨fields, hfields, h⟩ := bind_eq_ok_iff.1 h
    cases hdistinct : distinctKeys fields with
    | false =>
      rw [hdistinct] at h
      exact absurd h nofun
    | true =>
      rw [hdistinct] at h
      obtain rfl := withTag_eq_ok h
      exact Bool.and_eq_true_iff.2 ⟨hdistinct, entriesPlain_of_ofEntries entries hfields⟩

theorem itemsPlain_of_ofItems : ∀ (items : List Node) {values : List Value},
    ofNode.ofItems false items = .ok values → isPlain.itemsPlain values
  | [], values, h => by
    obtain rfl := Except.ok.inj h
    rfl
  | x :: items, values, h => by
    unfold ofNode.ofItems at h
    obtain ⟨v, hv, h⟩ := bind_eq_ok_iff.1 h
    obtain ⟨rest, hrest, h⟩ := bind_eq_ok_iff.1 h
    obtain rfl := Except.ok.inj h
    exact Bool.and_eq_true_iff.2 ⟨isPlain_of_ofNode x hv, itemsPlain_of_ofItems items hrest⟩

theorem entriesPlain_of_ofEntries : ∀ (entries : List (Node × Node))
    {fields : List (Value × Value)}, ofNode.ofEntries false entries = .ok fields →
      isPlain.entriesPlain fields
  | [], fields, h => by
    obtain rfl := Except.ok.inj h
    rfl
  | (k, x) :: entries, fields, h => by
    unfold ofNode.ofEntries at h
    obtain ⟨key, hkey, h⟩ := bind_eq_ok_iff.1 h
    obtain ⟨v, hv, h⟩ := bind_eq_ok_iff.1 h
    obtain ⟨rest, hrest, h⟩ := bind_eq_ok_iff.1 h
    obtain rfl := Except.ok.inj h
    exact Bool.and_eq_true_iff.2 ⟨Bool.and_eq_true_iff.2 ⟨isPlain_of_ofNode k hkey,
      isPlain_of_ofNode x hv⟩, entriesPlain_of_ofEntries entries hrest⟩

end

end Value
end Yaml
end LayeredConfig
