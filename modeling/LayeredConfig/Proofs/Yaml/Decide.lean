/-
Deciding what a given text says, and how a given value is written.

To take a literal apart, the kernel decodes its bytes, and for every character it starts at the
front. But that a literal is made of its characters it sees at once. So such facts are decided on
the characters (`parse_ofList`, `Value.print_ofList`, `Value.parse_of_print`).
-/
import LayeredConfig.ConfigMap.Basic
import LayeredConfig.Fragment.Basic
import LayeredConfig.Yaml.Printer

namespace LayeredConfig
namespace Yaml

/-! ## Equality -/

namespace Value

/-- Whether two values are the same tree. -/
def isEqual : Value → Value → Bool
  | .null, .null => true
  | .bool a, .bool b => a == b
  | .int a, .int b => a == b
  | .float a, .float b => a == b
  | .string a, .string b => a == b
  | .seq a, .seq b => itemsEqual a b
  | .map a, .map b => entriesEqual a b
  | .tagged s a, .tagged t b => s == t && isEqual a b
  | _, _ => false
where
  itemsEqual : List Value → List Value → Bool
    | [], [] => true
    | v :: vs, w :: ws => isEqual v w && itemsEqual vs ws
    | _, _ => false
  entriesEqual : List (Value × Value) → List (Value × Value) → Bool
    | [], [] => true
    | (k, v) :: es, (l, w) :: fs => isEqual k l && isEqual v w && entriesEqual es fs
    | _, _ => false

mutual

theorem isEqual_iff : ∀ v w : Value, v.isEqual w = true ↔ v = w
  | .seq a, w => by cases w <;> simp [isEqual, itemsEqual_iff a]
  | .map a, w => by cases w <;> simp [isEqual, entriesEqual_iff a]
  | .tagged _ a, w => by cases w <;> simp [isEqual, isEqual_iff a]
  | .null, w | .bool _, w | .int _, w | .float _, w | .string _, w => by
    cases w <;> simp [isEqual]

theorem itemsEqual_iff : ∀ vs ws : List Value, isEqual.itemsEqual vs ws = true ↔ vs = ws
  | [], ws => by cases ws <;> simp [isEqual.itemsEqual]
  | v :: vs, ws => by
    cases ws <;> simp [isEqual.itemsEqual, isEqual_iff v, itemsEqual_iff vs]

theorem entriesEqual_iff : ∀ es fs : List (Value × Value),
    isEqual.entriesEqual es fs = true ↔ es = fs
  | [], fs => by cases fs <;> simp [isEqual.entriesEqual]
  | (k, v) :: es, fs => by
    cases fs <;> simp [isEqual.entriesEqual, isEqual_iff k, isEqual_iff v, entriesEqual_iff es,
      Prod.ext_iff]

end

instance : DecidableEq Value := fun v w => decidable_of_iff _ (isEqual_iff v w)

end Value

/-! ## Reading -/

/-- The tokens of a text with the given characters. -/
def tokensOf (l : List Char) : Except Error (List Token) :=
  if l.all isAllowed then
    (Scanner.run (l.length + 2) (Scanner.start (unifyBreaks l))).map (·.tokens.reverse)
  else .error .character

theorem tokenize_ofList (l : List Char) : tokenize (String.ofList l) = tokensOf l := by
  rw [tokenize, tokensOf, String.toList_ofList]
  by_cases hall : l.all isAllowed = true
  · simp only [hall, not_true_eq_false, if_false, if_true]
    rfl
  · simp only [hall]
    rfl

theorem parse_ofList (shape : Shape) (l : List Char) : parse shape (String.ofList l) =
    tokensOf l >>= fun tokens => Source.ofTokens tokens >>= Option.mapM (Node.ofSource shape) := by
  rw [parse, tokenize_ofList]
  refine bind_congr fun tokens => bind_congr fun s? => ?_
  cases s? <;> rfl

/-! ## Writing -/

namespace Value

/-- The characters of the text of a value. -/
def chars (v : Value) : List Char := ((v.write {} {}).indent 0).written.reverse

theorem print_eq_ok_iff {v : Value} {s : String} :
    v.print = .ok s ↔ v.isWritable false = true ∧ String.ofList v.chars = s := by
  unfold print
  split
  case isTrue h => simp [h, Pen.text, chars]
  case isFalse h => simp [h]

theorem print_ofList {v : Value} {l : List Char} (h : v.isWritable false = true ∧ v.chars = l) :
    v.print = .ok (String.ofList l) := print_eq_ok_iff.2 ⟨h.1, congrArg String.ofList h.2⟩

/-- What the text of a value is read as. -/
def reread (shape : Shape) (v : Value) : Except Error (Option Node) :=
  tokensOf v.chars >>= fun tokens => Source.ofTokens tokens >>= Option.mapM (Node.ofSource shape)

theorem parse_of_print {v : Value} {s : String} (h : v.print = .ok s) (shape : Shape) :
    Yaml.parse shape s = v.reread shape := by
  obtain ⟨-, rfl⟩ := print_eq_ok_iff.1 h
  exact parse_ofList shape v.chars

/-- Whether the text of a value is read as something is decided without the text. -/
theorem reads_iff {α : Type} {v : Value} {shape : Shape} {read : Option Node → Except Error α}
    {a : α} : (∀ s, v.print = .ok s → (Yaml.parse shape s >>= read) = .ok a) ↔
      (v.isWritable false = true → (v.reread shape >>= read) = .ok a) := by
  constructor
  · intro h hwritable
    have hprint : v.print = .ok (String.ofList v.chars) := print_ofList ⟨hwritable, rfl⟩
    exact parse_of_print hprint shape ▸ h _ hprint
  · intro h s hprint
    rw [parse_of_print hprint]
    exact h (print_eq_ok_iff.1 hprint).1

end Value

end Yaml

/-! ## Objects -/

deriving instance DecidableEq for
  Generator, SecretGenerator, GeneratorOptions, Image, ObjectRef, FieldRef, Var, PatchTarget,
  JsonPatch, Fragment, ManagedFields, Metadata, ConfigMap

end LayeredConfig
