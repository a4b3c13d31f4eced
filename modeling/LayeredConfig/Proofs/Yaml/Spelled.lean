/-
What a value that was written is read as.

A node spells a value if it has the structure of the value, in untagged nodes whose scalars mean
those of the value (`Node.Spells`). That is all that is said about the text in between. The readers
find in such a node what the value was made of; the value itself is found again if it has no tags
and no key twice (`Node.Spells.value`).
-/
import LayeredConfig.Proofs.Dict
import LayeredConfig.Proofs.Yaml.Plain
import LayeredConfig.Yaml.Fields
import LayeredConfig.Yaml.Record

namespace LayeredConfig
namespace Yaml

/-! ## Nodes that spell values -/

/-- Whether an untagged node has the structure of a value and the same scalars. -/
def Node.Spells : Node → Value → Prop
  | .scalar none style text, v =>
    ∃ s, Scalar.ofNode none style text = .ok s ∧ Value.ofScalar s = .ok v
  | .seq none items, .seq values => itemsSpell items values
  | .map none entries, .map fields => entriesSpell entries fields
  | _, _ => False
where
  itemsSpell : List Node → List Value → Prop
    | [], [] => True
    | x :: items, v :: values => x.Spells v ∧ itemsSpell items values
    | _, _ => False
  entriesSpell : List (Node × Node) → List (Value × Value) → Prop
    | [], [] => True
    | (k, x) :: entries, (key, v) :: fields =>
      k.Spells key ∧ x.Spells v ∧ entriesSpell entries fields
    | _, _ => False

namespace Node

variable {n : Node} {items : List Node} {entries : List (Node × Node)} {values : List Value}
variable {fields : List (Value × Value)} {v : Value}

theorem itemsSpell_iff : Spells.itemsSpell items values ↔ List.Forall₂ Spells items values := by
  induction items generalizing values with
  | nil => cases values <;> simp [Spells.itemsSpell]
  | cons x items ih => cases values <;> simp [Spells.itemsSpell, ih]

theorem entriesSpell_iff : Spells.entriesSpell entries fields ↔
    List.Forall₂ (fun e f => e.1.Spells f.1 ∧ e.2.Spells f.2) entries fields := by
  induction entries generalizing fields with
  | nil => cases fields <;> simp [Spells.entriesSpell]
  | cons e entries ih => cases fields <;> simp [Spells.entriesSpell, ih, and_assoc]

end Node

/-! ## Values of nodes -/

namespace Node

mutual

/-- A plain value is what a node is read as that spells it. -/
theorem Spells.value : ∀ (n : Node) {v : Value}, n.Spells v → v.isPlain →
    Value.ofNode false n = .ok v
  | .scalar none style text, v, ⟨s, hs, hv⟩, _ => by
    unfold Value.ofNode
    show (Scalar.ofNode none style text >>= fun s => Value.ofScalar s >>= _) = _
    rw [hs, ok_bind, hv]
    rfl
  | .seq none items, .seq values, h, hplain => by
    unfold Value.ofNode
    rw [Spells.itemsValue items h hplain]
    rfl
  | .map none entries, .map fields, h, hplain => by
    obtain ⟨hdistinct, hplain⟩ := Bool.and_eq_true_iff.1 hplain
    unfold Value.ofNode
    rw [Spells.entriesValue entries h hplain, ok_bind, hdistinct]
    rfl

theorem Spells.itemsValue : ∀ (items : List Node) {values : List Value},
    itemsSpell items values → Value.isPlain.itemsPlain values →
      Value.ofNode.ofItems false items = .ok values
  | [], [], _, _ => rfl
  | x :: items, v :: values, ⟨hx, h⟩, hplain => by
    obtain ⟨hv, hplain⟩ := Bool.and_eq_true_iff.1 hplain
    unfold Value.ofNode.ofItems
    rw [Spells.value x hx hv, Spells.itemsValue items h hplain]
    rfl

theorem Spells.entriesValue : ∀ (entries : List (Node × Node)) {fields : List (Value × Value)},
    entriesSpell entries fields → Value.isPlain.entriesPlain fields →
      Value.ofNode.ofEntries false entries = .ok fields
  | [], [], _, _ => rfl
  | (k, x) :: entries, (key, v) :: fields, ⟨hk, hx, h⟩, hplain => by
    obtain ⟨hplain, hrest⟩ := Bool.and_eq_true_iff.1 hplain
    obtain ⟨hkey, hv⟩ := Bool.and_eq_true_iff.1 hplain
    unfold Value.ofNode.ofEntries
    rw [Spells.value k hk hkey, Spells.value x hx hv, Spells.entriesValue entries h hrest]
    rfl

end

/-! ## What readers find -/

theorem bool?_of_ofPlain {s : String} {b : Bool} (h : Scalar.ofPlain s = .bool b) :
    Scalar.bool? s = some b := by
  unfold Scalar.ofPlain at h
  by_cases hnull : s = "" ∨ Scalar.isNull s
  · rw [if_pos hnull] at h
    exact absurd h nofun
  · rw [if_neg hnull] at h
    cases hb : Scalar.bool? s with
    | some b' =>
      rw [hb] at h
      exact congrArg some (Scalar.bool.inj h)
    | none =>
      simp only [hb] at h
      cases hi : Scalar.int? s.toList with
      | some i =>
        rw [hi] at h
        exact absurd h nofun
      | none =>
        simp only [hi] at h
        cases hx : (if Scalar.isZeroPadded s.toList then none else Scalar.float? s) with
        | some x =>
          rw [hx] at h
          exact absurd h nofun
        | none =>
          rw [hx] at h
          exact absurd h nofun

namespace Spells

variable {n : Node} {s : String}

theorem exists_scalar (sc : Scalar) (h : n.Spells sc.value) :
    ∃ style text, n = .scalar none style text ∧ Scalar.ofNode none style text = .ok sc := by
  have hvalue {a b : Scalar} (h : a.value = b.value) : a = b := by
    cases a <;> cases b <;> simp_all [Scalar.value]
  match n, h with
  | .scalar none style text, ⟨sc', hsc, h⟩ =>
    obtain rfl := hvalue (Value.ofScalar_eq_ok h)
    exact ⟨style, text, rfl, hsc⟩
  | .seq none items, h => cases sc <;> exact h.elim
  | .map none entries, h => cases sc <;> exact h.elim

theorem exists_text (h : n.Spells (.string s)) :
    ∃ style, n = .scalar none style s ∧ (style = .plain → Scalar.ofPlain s = .text s) := by
  obtain ⟨style, text, rfl, hsc⟩ := exists_scalar (.text s) h
  have hsc : (if style = .plain then Scalar.ofPlain text else .text text) = .text s :=
    Except.ok.inj hsc
  by_cases hplain : style = .plain
  · rw [if_pos hplain] at hsc
    have htext := Scalar.ofPlain_of_isText (by rw [hsc]; rfl)
    obtain rfl : text = s := Scalar.text.inj (htext.symm.trans hsc)
    exact ⟨style, rfl, fun _ => htext⟩
  · rw [if_neg hplain] at hsc
    obtain rfl := Scalar.text.inj hsc
    exact ⟨style, rfl, fun h => absurd h hplain⟩

theorem text (h : n.Spells (.string s)) : n.text = .ok s := by
  obtain ⟨style, rfl, -⟩ := exists_text h
  rfl

theorem isNothing_text (h : n.Spells (.string s)) : n.isNothing = .ok false := by
  obtain ⟨style, rfl, hplain⟩ := exists_text h
  cases style with
  | plain =>
    have hnull : ¬ (s = "" ∨ Scalar.isNull s) := fun hnull => by
      have htext := hplain rfl
      rw [Scalar.ofPlain, if_pos hnull] at htext
      cases htext
    show Except.ok (decide (s = "") || Scalar.isNull s) = .ok false
    simpa using hnull
  | _ => rfl

theorem flag {b : Bool} (h : n.Spells (.bool b)) : n.flag = .ok b := by
  obtain ⟨style, text, rfl, hsc⟩ := exists_scalar (.bool b) h
  have hsc : (if style = .plain then Scalar.ofPlain text else .text text) = .bool b :=
    Except.ok.inj hsc
  by_cases hplain : style = .plain
  · subst hplain
    have hbool := bool?_of_ofPlain (by simpa using hsc)
    have htext : Node.text (.scalar none .plain text) = .ok text := rfl
    simp only [Node.flag, htext, ok_bind, hbool]
    rfl
  · rw [if_neg hplain] at hsc
    cases hsc

/-! ### Collections -/

theorem exists_seq {values : List Value} (h : n.Spells (.seq values)) :
    ∃ items, n = .seq none items ∧ List.Forall₂ Spells items values := by
  match n, h with
  | .scalar none style text, ⟨sc, _, h⟩ =>
    have hvalue := Value.ofScalar_eq_ok h
    cases sc <;> exact absurd hvalue nofun
  | .seq none items, h => exact ⟨items, rfl, itemsSpell_iff.1 h⟩

theorem exists_map {fields : List (Value × Value)} (h : n.Spells (.map fields)) :
    ∃ entries, n = .map none entries ∧
      List.Forall₂ (fun e f => e.1.Spells f.1 ∧ e.2.Spells f.2) entries fields := by
  match n, h with
  | .scalar none style text, ⟨sc, _, h⟩ =>
    have hvalue := Value.ofScalar_eq_ok h
    cases sc <;> exact absurd hvalue nofun
  | .map none entries, h => exact ⟨entries, rfl, entriesSpell_iff.1 h⟩

variable {α : Type} {read : Node → Except Error α} {write : α → Value} {l : List α}

theorem isNothing_seq {values : List Value} (h : n.Spells (.seq values)) :
    n.isNothing = .ok false := by
  obtain ⟨items, rfl, -⟩ := exists_seq h
  rfl

theorem isNothing_map {fields : List (Value × Value)} (h : n.Spells (.map fields)) :
    n.isNothing = .ok false := by
  obtain ⟨entries, rfl, -⟩ := exists_map h
  rfl

/-- A list is read item by item. -/
theorem list (hread : ∀ a ∈ l, ∀ m : Node, m.Spells (write a) → read m = .ok a)
    (h : n.Spells (.seq (l.map write))) : Node.list read n = .ok l := by
  obtain ⟨items, rfl, hall⟩ := exists_seq h
  rw [List.forall₂_map_right_iff] at hall
  refine mapM_eq_ok_iff.2 ?_
  clear h
  induction hall with
  | nil => exact .nil
  | cons hm _ ih =>
    have hrest := ih fun a ha => hread a (List.mem_cons_of_mem _ ha)
    exact .cons (hread _ List.mem_cons_self _ hm) hrest

theorem texts {l : List String} (h : n.Spells (Value.texts l)) : n.texts = .ok l :=
  list (fun _ _ _ => text) h

theorem textDict {d : Dict String} (h : n.Spells (Value.ofTextDict d)) : n.textDict = .ok d := by
  obtain ⟨entries, rfl, hall⟩ := exists_map h
  rw [List.forall₂_map_right_iff] at hall
  have hread : (entries.mapM fun e => return (← e.1.text, ← e.2.text) :
      Except Error (List (String × String))) = .ok d.entries := by
    refine mapM_eq_ok_iff.2 (hall.imp fun e f he => ?_)
    have hk : e.1.text = .ok f.1 := text he.1
    have hv : e.2.text = .ok f.2 := text he.2
    show (e.1.text >>= fun k => e.2.text >>= fun v => Except.ok (k, v)) = .ok f
    rw [hk, hv]
    rfl
  show (_ >>= fun es => Except.ok (Dict.ofList es)) = _
  rw [hread]
  exact congrArg Except.ok (Dict.empty_merge d)

end Spells
end Node
end Yaml
end LayeredConfig
