/-
What an action on files answers and what it leaves behind.

The two together are its run (`run_eq_ok_iff`, `run_eq_error_iff`). An action that fails leaves a
tree behind as well, so a law about what may have changed has to speak of `after` and not of the
runs that succeed. A sequence changes no more than its steps (`after_bind_of_trans`), and a sequence
of questions changes nothing (`Asks`). What an action may do to a value that is held in memory is said
by a program that runs the action `beside` it.
-/
import LayeredConfig.Proofs.FileTree.Access

namespace LayeredConfig
namespace Files

variable {ε ε' α β : Type} {t t' : FileTree}

def answer (x : Files ε α) (t : FileTree) : Except ε α :=
  match x.run t with
  | .ok a _ => .ok a
  | .error e _ => .error e

/-- The tree that the action leaves behind, also when it fails. -/
def after (x : Files ε α) (t : FileTree) : FileTree :=
  match x.run t with
  | .ok _ t' => t'
  | .error _ t' => t'

theorem run_eq_ok_iff {x : Files ε α} {a : α} :
    x.run t = .ok a t' ↔ x.answer t = .ok a ∧ x.after t = t' := by
  unfold answer after
  cases x.run t <;> simp

theorem run_eq_error_iff {x : Files ε α} {e : ε} :
    x.run t = .error e t' ↔ x.answer t = .error e ∧ x.after t = t' := by
  unfold answer after
  cases x.run t <;> simp

theorem after_of_run_ok {x : Files ε α} {a : α} (h : x.run t = .ok a t') : x.after t = t' :=
  (run_eq_ok_iff.1 h).2

theorem after_of_run_error {x : Files ε α} {e : ε} (h : x.run t = .error e t') :
    x.after t = t' := (run_eq_error_iff.1 h).2

/-! ## Runs that fail -/

theorem run_bind_eq_error_iff {x : Files ε α} {f : α → Files ε β} {e : ε} :
    (x >>= f).run t = .error e t' ↔
      x.run t = .error e t' ∨ ∃ a mid, x.run t = .ok a mid ∧ (f a).run mid = .error e t' := by
  rw [run_bind]
  cases x.run t <;> simp

theorem run_explain_eq_error_iff {f : ε → ε'} {x : Files ε α} {e : ε'} :
    (x.explain f).run t = .error e t' ↔ ∃ cause, x.run t = .error cause t' ∧ e = f cause := by
  show EStateM.adaptExcept f x t = _ ↔ ∃ cause, x t = _ ∧ _
  rw [EStateM.adaptExcept]
  cases x t with
  | ok a mid => simp
  | error cause mid =>
    simp only [EStateM.Result.error.injEq]
    constructor
    · rintro ⟨rfl, rfl⟩
      exact ⟨cause, ⟨rfl, rfl⟩, rfl⟩
    · rintro ⟨_, ⟨rfl, rfl⟩, rfl⟩
      exact ⟨rfl, rfl⟩

theorem run_ask_eq_error_iff {question : FileTree → Except ε α} {e : ε} :
    (ask question).run t = .error e t' ↔ question t = .error e ∧ t' = t := by
  show ask question t = _ ↔ _
  rw [ask]
  cases question t <;> simp [eq_comm]

theorem run_write_eq_error_iff {p : Path} {s : String} {e : FileError} :
    (write p s).run t = .error e t' ↔ t.write p s = .error e ∧ t' = t := by
  show change (fun t => t.write p s) t = _ ↔ _
  rw [change]
  cases t.write p s <;> simp [eq_comm]

/-! ## Sequences -/

theorem after_bind_of_ok {x : Files ε α} {f : α → Files ε β} {a : α} (h : x.answer t = .ok a) :
    (x >>= f).after t = (f a).after (x.after t) := by
  have hx : x.run t = .ok a (x.after t) := run_eq_ok_iff.2 ⟨h, rfl⟩
  cases hf : (f a).run (x.after t) with
  | ok b last =>
    rw [after_of_run_ok hf]
    exact after_of_run_ok (run_bind_eq_ok_iff.2 ⟨a, _, hx, hf⟩)
  | error e last =>
    rw [after_of_run_error hf]
    exact after_of_run_error (run_bind_eq_error_iff.2 (.inr ⟨a, _, hx, hf⟩))

theorem after_bind_of_error {x : Files ε α} {f : α → Files ε β} {e : ε}
    (h : x.answer t = .error e) : (x >>= f).after t = x.after t := by
  have hx : x.run t = .error e (x.after t) := run_eq_error_iff.2 ⟨h, rfl⟩
  exact after_of_run_error (run_bind_eq_error_iff.2 (.inl hx))

theorem answer_bind (x : Files ε α) (f : α → Files ε β) (t : FileTree) :
    (x >>= f).answer t = (x.answer t >>= fun a => (f a).answer (x.after t)) := by
  unfold answer after
  rw [run_bind]
  cases x.run t <;> rfl

/-- What holds of every step holds of a sequence, if it holds of one change after another. -/
theorem after_bind_of_trans {R : FileTree → FileTree → Prop}
    (trans : ∀ {a b c}, R a b → R b c → R a c) {x : Files ε α} {f : α → Files ε β}
    (hx : R t (x.after t))
    (hf : ∀ a, x.answer t = .ok a → R (x.after t) ((f a).after (x.after t))) :
    R t ((x >>= f).after t) := by
  cases h : x.answer t with
  | ok a =>
    rw [after_bind_of_ok h]
    exact trans hx (hf a h)
  | error e =>
    rw [after_bind_of_error h]
    exact hx

theorem answer_explain (f : ε → ε') (x : Files ε α) (t : FileTree) :
    (x.explain f).answer t = (x.answer t).mapError f := by
  show (match EStateM.adaptExcept f x t with
    | .ok a _ => .ok a
    | .error e _ => .error e) = (match x t with
    | .ok a _ => Except.ok a
    | .error e _ => .error e).mapError f
  rw [EStateM.adaptExcept]
  cases x t <;> rfl

theorem answer_explain_eq_ok_iff {f : ε → ε'} {x : Files ε α} {a : α} :
    (x.explain f).answer t = .ok a ↔ x.answer t = .ok a := by
  constructor
  · intro h
    exact (run_eq_ok_iff.1 (run_explain_eq_ok_iff.1 (run_eq_ok_iff.2 ⟨h, rfl⟩))).1
  · intro h
    exact (run_eq_ok_iff.1 (run_explain_eq_ok_iff.2 (run_eq_ok_iff.2 ⟨h, rfl⟩))).1

@[simp]
theorem after_explain (f : ε → ε') (x : Files ε α) (t : FileTree) :
    (x.explain f).after t = x.after t := by
  cases hx : x.run t with
  | ok a mid =>
    rw [after_of_run_ok hx]
    exact after_of_run_ok (run_explain_eq_ok_iff.2 hx)
  | error e mid =>
    rw [after_of_run_error hx]
    exact after_of_run_error (run_explain_eq_error_iff.2 ⟨e, hx, rfl⟩)

theorem run_discard_eq_ok_iff {x : Files ε α} :
    (discard x).run t = .ok () t' ↔ ∃ a, x.run t = .ok a t' := by
  show EStateM.map _ x t = _ ↔ ∃ a, x t = _
  rw [EStateM.map]
  cases x t <;> simp

theorem run_discard_eq_error_iff {x : Files ε α} {e : ε} :
    (discard x).run t = .error e t' ↔ x.run t = .error e t' := by
  show EStateM.map _ x t = _ ↔ x t = _
  rw [EStateM.map]
  cases x t <;> simp

theorem after_discard (x : Files ε α) (t : FileTree) : (discard x).after t = x.after t := by
  cases hx : x.run t with
  | ok a mid =>
    rw [after_of_run_ok hx]
    exact after_of_run_ok (run_discard_eq_ok_iff.2 ⟨a, hx⟩)
  | error e mid =>
    rw [after_of_run_error hx]
    exact after_of_run_error (run_discard_eq_error_iff.2 hx)

/-! ## Questions -/

@[simp]
theorem after_pure (a : α) (t : FileTree) : (pure a : Files ε α).after t = t := rfl

@[simp]
theorem answer_throw (e : ε) (t : FileTree) : (throw e : Files ε α).answer t = .error e := rfl

@[simp]
theorem answer_isDirectory (p : Path) (t : FileTree) :
    (isDirectory p : Files ε Bool).answer t = .ok (t.isDirectory p) := rfl

@[simp]
theorem answer_ask (question : FileTree → Except ε α) (t : FileTree) :
    (ask question).answer t = question t := by
  cases h : question t with
  | ok a => exact (run_eq_ok_iff.1 (run_ask_eq_ok_iff.2 ⟨h, rfl⟩)).1
  | error e => exact (run_eq_error_iff.1 (run_ask_eq_error_iff.2 ⟨h, rfl⟩)).1

@[simp]
theorem after_ask (question : FileTree → Except ε α) (t : FileTree) :
    (ask question).after t = t := by
  cases h : question t with
  | ok a => exact after_of_run_ok (run_ask_eq_ok_iff.2 ⟨h, rfl⟩)
  | error e => exact after_of_run_error (run_ask_eq_error_iff.2 ⟨h, rfl⟩)

/-- The action changes nothing, whatever it answers. -/
def Asks (x : Files ε α) : Prop := ∀ t, x.after t = t

namespace Asks

theorem pure (a : α) : Asks (pure a : Files ε α) := after_pure a

theorem throw (e : ε) : Asks (throw e : Files ε α) := fun _ => rfl

theorem isDirectory (p : Path) : Asks (isDirectory p : Files ε Bool) := fun _ => rfl

theorem ask (question : FileTree → Except ε α) : Asks (ask question) := after_ask question

theorem explain {x : Files ε α} (h : Asks x) (f : ε → ε') : Asks (x.explain f) := fun t =>
  (after_explain f x t).trans (h t)

theorem bind {x : Files ε α} {f : α → Files ε β} (hx : Asks x) (hf : ∀ a, Asks (f a)) :
    Asks (x >>= f) := by
  intro t
  cases h : x.answer t with
  | ok a => rw [after_bind_of_ok h, hx, hf]
  | error e => rw [after_bind_of_error h, hx]

theorem answer_bind {x : Files ε α} (h : Asks x) (f : α → Files ε β) (t : FileTree) :
    (x >>= f).answer t = (x.answer t >>= fun a => (f a).answer t) := by
  rw [Files.answer_bind, h]

theorem run_eq_ok_iff {x : Files ε α} (h : Asks x) {a : α} :
    x.run t = .ok a t' ↔ x.answer t = .ok a ∧ t' = t := by
  rw [Files.run_eq_ok_iff, h, eq_comm (a := t)]

theorem run_eq_error_iff {x : Files ε α} (h : Asks x) {e : ε} :
    x.run t = .error e t' ↔ x.answer t = .error e ∧ t' = t := by
  rw [Files.run_eq_error_iff, h, eq_comm (a := t)]

end Asks

/-! ## Beside a value -/

variable {σ : Type}

/-- An action on files, beside a value that is held in memory. -/
def beside (x : Files ε α) : EStateM ε (σ × FileTree) α := fun (held, t) =>
  match x.run t with
  | .ok a t' => .ok a (held, t')
  | .error e t' => .error e (held, t')

theorem run_beside (x : Files ε α) (held : σ) (t : FileTree) :
    (beside x).run (held, t) =
      match x.run t with
      | .ok a t' => .ok a (held, t')
      | .error e t' => .error e (held, t') := rfl

end Files
end LayeredConfig
