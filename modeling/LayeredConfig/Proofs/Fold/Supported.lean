/-
Keys that cannot be folded do not get into a result.

A layer with such a key is refused, and an object in a field of a result was in some layer before,
with the same keys (`Field.objects_foldCell`). So there are none of them in the end
(`Field.supported_run`).
-/
import LayeredConfig.Proofs.Fold.Deduplicated
import LayeredConfig.Proofs.Fragment.Objects

namespace LayeredConfig

/-! ## Fragments without such keys -/

/-- No object in the field has a key that cannot be folded. -/
def Field.Supported : (field : Field) → field.Value → Prop
  | .generatorOptions, v => ∀ o ∈ v, o.unsupported.keys = []
  | .jsonPatches, v => ∀ p ∈ v, p.unsupported.keys = [] ∧ p.target.unsupported.keys = []
  | .images, v => ∀ i ∈ v, i.unsupported.keys = []
  | .vars, v => ∀ x ∈ v, x.unsupported.keys = [] ∧ x.object.unsupported.keys = [] ∧
      ∀ r ∈ x.field, r.unsupported.keys = []
  | .configMaps, v => ∀ g ∈ v, g.unsupported.keys = []
  | .secrets, v => ∀ g ∈ v, g.unsupported.keys = []
  | _, _ => True

theorem Field.supported_iff {field : Field} {v : field.Value} :
    field.Supported v ↔ ∀ o ∈ field.objects v, o.unsupported.keys = [] := by
  cases field with
  | generatorOptions =>
    simp [Supported, objects, GeneratorOptions.objects, List.forall_mem_flatMap, -List.mem_flatMap]
  | jsonPatches =>
    simp [Supported, objects, JsonPatch.objects, List.forall_mem_flatMap, -List.mem_flatMap]
  | images =>
    simp [Supported, objects, Image.objects, List.forall_mem_flatMap, -List.mem_flatMap]
  | vars =>
    simp [Supported, objects, Var.objects, List.forall_mem_flatMap, -List.mem_flatMap]
  | configMaps =>
    simp [Supported, objects, Generator.objects, List.forall_mem_flatMap, -List.mem_flatMap]
  | secrets =>
    simp [Supported, objects, SecretGenerator.objects, List.forall_mem_flatMap, -List.mem_flatMap]
  | _ => simp [Supported, objects]

namespace Fragment

theorem unsupportedFields_eq_nil {f : Fragment} :
    f.unsupportedFields = [] ↔ ∀ scope ∈ f.scopes, scope.2.keys = [] := by
  unfold unsupportedFields
  rw [List.flatMap_eq_nil_iff]
  refine forall_congr' fun scope => imp_congr_right fun _ => ?_
  unfold Scope.locations
  exact List.map_eq_nil_iff

theorem forall_itemScopes_iff {α : Type} {list : String} {scopes : String → α → List Scope}
    {P : α → Prop} (h : ∀ name a, (∀ scope ∈ scopes name a, scope.2.keys = []) ↔ P a)
    {l : List α} : (∀ scope ∈ itemScopes list scopes l, scope.2.keys = []) ↔ ∀ a ∈ l, P a := by
  unfold itemScopes
  constructor
  · intro hall a ha
    obtain ⟨i, hi, rfl⟩ := List.mem_iff_getElem.1 ha
    have hmem : (l[i], i) ∈ l.zipIdx := List.mk_mem_zipIdx_iff_getElem?.2 (by simp)
    refine (h (itemName list i) l[i]).1 fun scope hscope => ?_
    exact hall scope (List.mem_flatMap.2 ⟨(l[i], i), hmem, hscope⟩)
  · intro hall scope hscope
    obtain ⟨⟨a, i⟩, hmem, hscope⟩ := List.mem_flatMap.1 hscope
    have ha : a ∈ l := List.fst_mem_of_mem_zipIdx hmem
    exact (h (itemName list i) a).2 (hall a ha) scope hscope

theorem unsupportedFields_eq_nil_iff {f : Fragment} :
    f.unsupportedFields = [] ↔
      f.unsupported.keys = [] ∧ ∀ field : Field, field.Supported (f.get field) := by
  have hpatch (name : String) (p : JsonPatch) :
      (∀ scope ∈ [(name, p.unsupported), (name ++ ".target", p.target.unsupported)],
        scope.2.keys = []) ↔ p.unsupported.keys = [] ∧ p.target.unsupported.keys = [] := by simp
  have himage (name : String) (i : Image) :
      (∀ scope ∈ [(name, i.unsupported)], scope.2.keys = []) ↔ i.unsupported.keys = [] := by simp
  have hvar (name : String) (v : Var) :
      (∀ scope ∈ [(name, v.unsupported), (name ++ ".objref", v.object.unsupported)] ++
          v.field.toList.map fun r => (name ++ ".fieldref", r.unsupported), scope.2.keys = []) ↔
        v.unsupported.keys = [] ∧ v.object.unsupported.keys = [] ∧
          ∀ r ∈ v.field, r.unsupported.keys = [] := by
    cases v.field <;> simp
  have hmap (name : String) (g : Generator) :
      (∀ scope ∈ [(name, g.unsupported)], scope.2.keys = []) ↔ g.unsupported.keys = [] := by simp
  have hsecret (name : String) (g : SecretGenerator) :
      (∀ scope ∈ [(name, g.unsupported)], scope.2.keys = []) ↔ g.unsupported.keys = [] := by simp
  have htop : (∀ scope ∈ [("", f.unsupported)], scope.2.keys = []) ↔ f.unsupported.keys = [] := by
    simp
  have hoptions : (∀ scope ∈ f.generatorOptions.toList.map
      (fun o => ("generatorOptions", o.unsupported)), scope.2.keys = []) ↔
        ∀ o ∈ f.generatorOptions, o.unsupported.keys = [] := by
    cases f.generatorOptions <;> simp
  rw [unsupportedFields_eq_nil, scopes]
  simp only [List.forall_mem_append, htop, hoptions, forall_itemScopes_iff hpatch,
    forall_itemScopes_iff himage, forall_itemScopes_iff hvar, forall_itemScopes_iff hmap,
    forall_itemScopes_iff hsecret, and_assoc]
  refine and_congr_right fun _ => ⟨?_, fun h => ?_⟩
  · rintro ⟨ho, hp, hi, hv, hm, hs⟩ field
    cases field with
    | generatorOptions => exact ho
    | jsonPatches => exact hp
    | images => exact hi
    | vars => exact hv
    | configMaps => exact hm
    | secrets => exact hs
    | _ => trivial
  · exact ⟨h .generatorOptions, h .jsonPatches, h .images, h .vars, h .configMaps, h .secrets⟩

theorem unsupportedFields_of_foldCell {site : Site} {child : Fragment} {field : Field}
    {c c' : Cell field} (h : child.foldCell site field c = .ok c') :
    child.unsupportedFields = [] := by
  unfold foldCell at h
  cases hu : child.unsupportedFields with
  | nil => rfl
  | cons key keys =>
    rw [hu] at h
    exact absurd h (by simp)

end Fragment

/-! ## In a run -/

namespace Field

theorem mem_of_mem_firsts {α : Type} {identity : α → String} {known : List String} {site : Site}
    {v entries : List α} {a : α}
    (ha : a ∈ entries ++ novel identity known ((v.map (site, ·)).map (·.2))) :
    a ∈ entries ∨ a ∈ v := by
  rcases List.mem_append.1 ha with ha | ha
  · exact .inl ha
  · have hmem : a ∈ (v.map (site, ·)).map (·.2) :=
      (sift_sublist identity (fun _ => false) known _).subset ha
    rw [List.map_map] at hmem
    obtain ⟨b, hb, rfl⟩ := List.mem_map.1 hmem
    exact .inr hb

theorem exists_of_mem_generators {γ : Type} {kind : GeneratorKind γ} (hkind : kind.Lawful)
    {field : Field} {known : List String} {site : Site} {v entries : List γ} {k : Accepted γ}
    (hk : Accepted.generators kind field known (v.map (site, ·)) = .ok k) {g : γ}
    (hg : g ∈ entries ++ k.entries) :
    ∃ a, (a ∈ entries ∨ a ∈ v) ∧ (kind.shared g).unsupported = (kind.shared a).unsupported := by
  obtain ⟨gs, hgs, rfl⟩ := map_eq_ok_iff.1 hk
  rcases List.mem_append.1 hg with hg | hg
  · exact ⟨g, .inl hg, rfl⟩
  · obtain ⟨e, he, hok⟩ := exists_of_mem_mapM hgs hg
    have hmem : e ∈ v.map (site, ·) := (sift_sublist _ _ _ _).subset he
    obtain ⟨a, ha, rfl⟩ := List.mem_map.1 hmem
    obtain ⟨g', hg', rfl⟩ := map_eq_ok_iff.1 hok
    obtain ⟨env, envs, files, -, -, -, rfl⟩ := Generator.rebase_eq_ok_iff.1 hg'
    exact ⟨a, .inr ha, by rw [hkind]⟩

/-- If every entry of a list has the objects of one of two others, they are all from these. -/
theorem mem_flatMap_of_exists {α : Type} {objects : α → List Object} {l l₁ l₂ : List α}
    (h : ∀ a ∈ l, ∃ b, (b ∈ l₁ ∨ b ∈ l₂) ∧ objects a = objects b) :
    ∀ o ∈ l.flatMap objects, o ∈ l₁.flatMap objects ∨ o ∈ l₂.flatMap objects := by
  intro o ho
  obtain ⟨a, ha, ho⟩ := List.mem_flatMap.1 ho
  obtain ⟨b, hb, heq⟩ := h a ha
  rw [heq] at ho
  exact hb.imp (fun hb => List.mem_flatMap.2 ⟨b, hb, ho⟩) fun hb => List.mem_flatMap.2 ⟨b, hb, ho⟩

/-- A fold makes no objects of its own. -/
theorem objects_fold {site : Site} {field : Field} {v : field.Value} {c c' : Cell field}
    (h : field.fold site v c = .ok c') :
    ∀ o ∈ field.objects c'.value, o ∈ field.objects c.value ∨ o ∈ field.objects v := by
  cases field with
  | generatorOptions =>
    obtain rfl := Except.ok.inj h
    intro o ho
    replace ho : o ∈ (Option.or c.value v).toList.flatMap GeneratorOptions.objects := ho
    cases hvalue : c.value with
    | none =>
      rw [hvalue] at ho
      exact .inr ho
    | some options =>
      rw [hvalue] at ho
      exact .inl ho
  | images =>
    obtain rfl := Except.ok.inj h
    exact mem_flatMap_of_exists fun a ha => ⟨a, mem_of_mem_firsts ha, rfl⟩
  | vars =>
    obtain rfl := Except.ok.inj h
    exact mem_flatMap_of_exists fun a ha => ⟨a, mem_of_mem_firsts ha, rfl⟩
  | configMaps =>
    obtain ⟨k, hk, rfl⟩ := map_eq_ok_iff.1 h
    refine mem_flatMap_of_exists fun g hg => ?_
    obtain ⟨a, ha, heq⟩ := exists_of_mem_generators GeneratorKind.lawful_configMap hk hg
    exact ⟨a, ha, congrArg (fun d => [Object.mk Generator.fieldNames d]) heq⟩
  | secrets =>
    obtain ⟨k, hk, rfl⟩ := map_eq_ok_iff.1 h
    refine mem_flatMap_of_exists fun g hg => ?_
    obtain ⟨a, ha, heq⟩ := exists_of_mem_generators GeneratorKind.lawful_secret hk hg
    exact ⟨a, ha, congrArg (fun d => [Object.mk SecretGenerator.fieldNames d]) heq⟩
  | jsonPatches =>
    obtain ⟨k, hk, rfl⟩ := map_eq_ok_iff.1 h
    obtain ⟨ps, hps, rfl⟩ := map_eq_ok_iff.1 hk
    refine mem_flatMap_of_exists fun p hp => ?_
    rcases List.mem_append.1 hp with hp | hp
    · exact ⟨p, .inl hp, rfl⟩
    · obtain ⟨e, he, hok⟩ := exists_of_mem_mapM hps hp
      obtain ⟨q, hq, rfl⟩ := List.mem_map.1 he
      obtain ⟨r, -, rfl⟩ := map_eq_ok_iff.1 hok
      exact ⟨q, .inr hq, rfl⟩
  | _ => exact fun o ho => absurd ho List.not_mem_nil

theorem objects_foldCell {site : Site} {child : Fragment} {field : Field} {c c' : Cell field}
    (h : child.foldCell site field c = .ok c') :
    ∀ o ∈ field.objects c'.value,
      o ∈ field.objects c.value ∨ o ∈ field.objects (child.get field) := by
  rcases Fragment.foldCell_eq_ok h with ⟨-, h⟩ | ⟨-, h⟩
  · by_cases hne : field = .bases
    · subst hne
      exact fun o ho => absurd ho List.not_mem_nil
    · rw [foldWhole_of_ne hne] at h
      obtain rfl : c = c' := Except.ok.inj h
      exact fun o ho => .inl ho
  · exact objects_fold h

/-- What a run makes of a field has no key that cannot be folded, if the field had none before. -/
theorem supported_run {root : Path} {field : Field} {layers : List Layer} {c c' : Cell field}
    (h : field.run root layers c = .ok c') (hc : field.Supported c.value) :
    field.Supported c'.value := by
  refine run_induction (motive := fun d => field.Supported d.value) ?_ h hc
  intro layer _ d d' hd hsupported
  have hnil := Fragment.unsupportedFields_of_foldCell hd
  have hlayer : field.Supported (layer.fragment.get field) :=
    (Fragment.unsupportedFields_eq_nil_iff.1 hnil).2 field
  refine supported_iff.2 fun o ho => ?_
  rcases objects_foldCell hd o ho with ho | ho
  · exact supported_iff.1 hsupported o ho
  · exact supported_iff.1 hlayer o ho

end Field
end LayeredConfig
