/-
Computations that may fail, one after the other.

A sequence of them succeeds if each does, and going through a list succeeds if each entry has a
result; the results are then in the order of the entries (`mapM_eq_ok_iff`).
-/
import Mathlib.Data.List.Forall2

namespace LayeredConfig

variable {ε α β : Type}

@[simp]
theorem ok_bind (a : α) (f : α → Except ε β) : (Except.ok a >>= f) = f a := rfl

@[simp]
theorem error_bind (e : ε) (f : α → Except ε β) : (Except.error e >>= f) = .error e := rfl

@[simp]
theorem map_ok (f : α → β) (a : α) : (Except.ok a : Except ε α).map f = .ok (f a) := rfl

@[simp]
theorem map_error (f : α → β) (e : ε) : (Except.error e).map f = .error e := rfl

@[simp]
theorem throw_eq_error (e : ε) : (throw e : Except ε α) = .error e := rfl

theorem bind_eq_ok_iff {x : Except ε α} {f : α → Except ε β} {b : β} :
    (x >>= f) = .ok b ↔ ∃ a, x = .ok a ∧ f a = .ok b := by
  cases x <;> simp

theorem bind_eq_error_iff {x : Except ε α} {f : α → Except ε β} {e : ε} :
    (x >>= f) = .error e ↔ x = .error e ∨ ∃ a, x = .ok a ∧ f a = .error e := by
  cases x <;> simp

theorem map_eq_ok_iff {f : α → β} {x : Except ε α} {b : β} :
    x.map f = .ok b ↔ ∃ a, x = .ok a ∧ f a = b := by
  cases x <;> simp

/-! ## Lists of results -/

theorem mapM_ok_cons {f : α → Except ε β} {a : α} {b : β} (h : f a = .ok b) (l : List α) :
    (a :: l).mapM f = (l.mapM f).map (b :: ·) := by
  rw [List.mapM_cons, h]
  cases l.mapM f <;> rfl

theorem mapM_error_cons {f : α → Except ε β} {a : α} {e : ε} (h : f a = .error e) (l : List α) :
    (a :: l).mapM f = .error e := by
  rw [List.mapM_cons, h]
  rfl

theorem mapM_map_result {γ : Type} (f : α → Except ε β) (g : β → γ) (l : List α) :
    (l.mapM fun a => (f a).map g) = (l.mapM f).map (List.map g) := by
  induction l with
  | nil => rfl
  | cons a l ih =>
    cases hf : f a with
    | error e => rw [mapM_error_cons hf, mapM_error_cons (by rw [hf]; rfl)]; rfl
    | ok b =>
      rw [mapM_ok_cons hf, mapM_ok_cons (b := g b) (by rw [hf]; rfl), ih]
      cases l.mapM f <;> rfl

theorem mapM_of_ok (f : α → β) (l : List α) :
    (l.mapM fun a => (Except.ok (f a) : Except ε β)) = .ok (l.map f) :=
  List.mapM_pure

theorem mapM_eq_ok_iff {f : α → Except ε β} {l : List α} {bs : List β} :
    l.mapM f = .ok bs ↔ List.Forall₂ (fun a b => f a = .ok b) l bs := by
  induction l generalizing bs with
  | nil =>
    rw [List.forall₂_nil_left_iff]
    constructor
    · intro h
      exact (Except.ok.inj h).symm
    · intro h
      rw [h]
      rfl
  | cons a l ih =>
    rw [List.forall₂_cons_left_iff]
    cases ha : f a with
    | error e =>
      rw [mapM_error_cons ha]
      simp
    | ok b =>
      rw [mapM_ok_cons ha, map_eq_ok_iff]
      constructor
      · intro ⟨rest, hrest, hbs⟩
        exact ⟨b, rest, rfl, ih.1 hrest, hbs.symm⟩
      · intro ⟨c, rest, hc, hrest, hbs⟩
        obtain rfl : b = c := Except.ok.inj hc
        exact ⟨rest, ih.2 hrest, hbs.symm⟩

theorem exists_map_iff {f : α → β} {x : Except ε α} :
    (∃ b, x.map f = .ok b) ↔ ∃ a, x = .ok a := by
  cases x <;> simp

theorem exists_mapM_iff {f : α → Except ε β} {l : List α} :
    (∃ bs, l.mapM f = .ok bs) ↔ ∀ a ∈ l, ∃ b, f a = .ok b := by
  induction l with
  | nil => exact iff_of_true ⟨[], rfl⟩ nofun
  | cons a l ih =>
    rw [List.forall_mem_cons]
    cases ha : f a with
    | error e =>
      rw [mapM_error_cons ha]
      simp
    | ok b =>
      rw [mapM_ok_cons ha, exists_map_iff, ih]
      exact (and_iff_right ⟨b, rfl⟩).symm

theorem exists_of_mem_forall₂ {R : α → β → Prop} {l : List α} {bs : List β}
    (h : List.Forall₂ R l bs) {b : β} (hb : b ∈ bs) : ∃ a ∈ l, R a b := by
  induction h with
  | nil => exact absurd hb List.not_mem_nil
  | cons ha _ ih =>
    rcases List.mem_cons.1 hb with rfl | hb
    · exact ⟨_, List.mem_cons_self, ha⟩
    · obtain ⟨a, hmem, hok⟩ := ih hb
      exact ⟨a, List.mem_cons_of_mem _ hmem, hok⟩

theorem exists_of_mem_mapM {f : α → Except ε β} {l : List α} {bs : List β}
    (h : l.mapM f = .ok bs) {b : β} (hb : b ∈ bs) : ∃ a ∈ l, f a = .ok b :=
  exists_of_mem_forall₂ (mapM_eq_ok_iff.1 h) hb

theorem exists_of_option_mapM {f : α → Except ε β} {o : Option α} {b : β}
    (h : o.mapM f = .ok (some b)) : ∃ a, f a = .ok b := by
  cases o with
  | none => exact absurd (Except.ok.inj h) (by simp)
  | some a =>
    obtain ⟨c, hc, hsome⟩ := bind_eq_ok_iff.1 h
    obtain rfl : c = b := Option.some.inj (Except.ok.inj hsome)
    exact ⟨a, hc⟩

/-! ## Folds -/

/-- A fold fails at the first entry that fails, with what the entries before it have come to. -/
theorem foldlM_eq_error_iff {f : β → α → Except ε β} {l : List α} {b : β} {e : ε} :
    l.foldlM f b = .error e ↔
      ∃ before a after mid, l = before ++ a :: after ∧ before.foldlM f b = .ok mid ∧
        f mid a = .error e := by
  induction l generalizing b with
  | nil =>
    refine iff_of_false nofun ?_
    rintro ⟨before, a, after, -, hl, -⟩
    exact absurd hl.symm (by simp)
  | cons a l ih =>
    rw [List.foldlM_cons, bind_eq_error_iff]
    constructor
    · rintro (ha | ⟨c, hc, hl⟩)
      · exact ⟨[], a, l, b, rfl, rfl, ha⟩
      · obtain ⟨before, a', after, mid, rfl, hbefore, ha'⟩ := ih.1 hl
        refine ⟨a :: before, a', after, mid, rfl, ?_, ha'⟩
        rw [List.foldlM_cons, hc, ok_bind, hbefore]
    · rintro ⟨before, a', after, mid, hl, hbefore, ha'⟩
      cases before with
      | nil =>
        obtain ⟨rfl, rfl⟩ := List.cons.inj hl
        obtain rfl : b = mid := Except.ok.inj hbefore
        exact .inl ha'
      | cons a'' before =>
        obtain ⟨rfl, rfl⟩ := List.cons.inj hl
        rw [List.foldlM_cons] at hbefore
        obtain ⟨c, hc, hrest⟩ := bind_eq_ok_iff.1 hbefore
        exact .inr ⟨c, hc, ih.2 ⟨before, a', after, mid, rfl, hrest, ha'⟩⟩

end LayeredConfig
