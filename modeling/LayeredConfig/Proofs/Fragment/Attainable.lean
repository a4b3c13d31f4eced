/-
Fragments that can come about: those that are loaded, and what registering, folding and combining
makes of such fragments. They are all sound (`Fragment.Attainable.sound`), since no operation gives
an object keys that it did not have.
-/
import LayeredConfig.Fragment.File
import LayeredConfig.Proofs.Aggregate.Change
import LayeredConfig.Proofs.Document
import LayeredConfig.Proofs.Fold.Supported

namespace LayeredConfig

open Yaml (Value)

/-- Every combined patch is that of a group, and keeps nothing beside its fields. -/
theorem PatchGroup.exists_target_of_mem_writeAll {dir : Path} {taken : List String}
    {groups : List PatchGroup} {patches : List JsonPatch} {t t' : FileTree} {p : JsonPatch}
    (h : (writeAll dir taken groups).run t = .ok patches t') (hp : p ∈ patches) :
    ∃ g ∈ groups, p.target = g.target ∧ p.unsupported = {} := by
  induction groups generalizing taken t patches with
  | nil =>
    obtain ⟨rfl, -⟩ := EStateM.Result.ok.inj h
    exact absurd hp List.not_mem_nil
  | cons g groups ih =>
    obtain ⟨mid, others, -, hrest, rfl⟩ := run_writeAll_cons_eq_ok_iff.1 h
    rcases List.mem_cons.1 hp with rfl | hp
    · exact ⟨g, List.mem_cons_self, rfl, rfl⟩
    · obtain ⟨g', hg', hp⟩ := ih hrest hp
      exact ⟨g', List.mem_cons_of_mem g hg', hp⟩

namespace Fragment

/-- Fragments that are blank or loaded, and what the operations make of such fragments. -/
inductive Attainable : Fragment → Prop
  | empty : Attainable {}
  | loaded {t : FileTree} {dir : Path} {f : Fragment} :
      (load dir).answer t = .ok (some f) → Attainable f
  | withHeader {f : Fragment} : Attainable f → Attainable f.withHeader
  | addResource {f : Fragment} (s : String) : Attainable f → Attainable (f.addResource s).1
  | addStrategicPatch {f : Fragment} (s : String) :
      Attainable f → Attainable (f.addStrategicPatch s).1
  | folded {child : Fragment} {site : Site} {acc acc' : Accumulator} :
      Attainable acc.fragment → Attainable child → (child.foldInto site).run acc = .ok () acc' →
        Attainable acc'.fragment
  | merged {d : Deployment} {root : Path} {base : Layer} {overlays : List Layer}
      {parameters : List Parameter} {f : Fragment} :
      (∀ layer ∈ base :: overlays, Attainable layer.fragment) →
        Component.merge d root base overlays parameters = .ok f → Attainable f
  | aggregated {f f' : Fragment} {dir : Path} {t t' : FileTree} :
      Attainable f → (f.aggregate dir).run t = .ok f' t' → Attainable f'

/-! ## Operations keep fragments sound -/

variable {f f' child : Fragment}

theorem sound_empty : Sound {} := by
  have hown : Object.Sound ⟨fieldNames, {}⟩ := Object.sound_of_keys_eq_nil rfl
  simp [Sound, forall_mem_objects_iff, hown]

theorem sound_foldInto {site : Site} {acc acc' : Accumulator} (hacc : acc.fragment.Sound)
    (hchild : child.Sound) (h : (child.foldInto site).run acc = .ok () acc') :
    acc'.fragment.Sound := by
  obtain ⟨hheader, hcells⟩ := outcome_foldInto_eq_ok_iff.1 (Folding.outcome_eq_ok_iff.2 h)
  have hunsupported : acc'.fragment.unsupported = acc.fragment.unsupported :=
    congrArg Header.unsupported hheader
  obtain ⟨hown, hfields⟩ := sound_iff.1 hacc
  refine sound_iff.2 ⟨hunsupported ▸ hown, fun field o ho => ?_⟩
  rcases Field.objects_foldCell (hcells field) o ho with ho | ho
  · exact hfields field o ho
  · exact (sound_iff.1 hchild).2 field o ho

theorem sound_foldLayers {root : Path} {layers : List Layer} {acc acc' : Accumulator}
    (hlayers : ∀ layer ∈ layers, layer.fragment.Sound) (hacc : acc.fragment.Sound)
    (h : Component.foldLayers root layers acc = .ok acc') : acc'.fragment.Sound := by
  induction layers generalizing acc with
  | nil =>
    obtain rfl : acc = acc' := Except.ok.inj h
    exact hacc
  | cons layer rest ih =>
    obtain ⟨mid, hmid, hrest⟩ := Component.foldLayers_cons.1 h
    obtain ⟨hlayer, hlayers⟩ := List.forall_mem_cons.1 hlayers
    exact ih hlayers (sound_foldInto hacc hlayer (Folding.outcome_eq_ok_iff.1 hmid)) hrest

theorem sound_aggregate {dir : Path} {t t' : FileTree} (hf : f.Sound)
    (h : (f.aggregate dir).run t = .ok f' t') : f'.Sound := by
  obtain ⟨groups, patches, hcollect, hwrite, rfl⟩ := run_aggregate_eq_ok_iff.1 h
  obtain ⟨hown, hoptions, hpatches, hrest⟩ := forall_mem_objects_iff.1 hf
  refine forall_mem_objects_iff.2 ⟨hown, hoptions, fun p hp => ?_, hrest⟩
  obtain ⟨g, hg, hgroup, hnothing⟩ := PatchGroup.exists_target_of_mem_writeAll hwrite hp
  obtain ⟨q, hq, htarget⟩ := PatchGroup.exists_target_of_mem_collect hcollect hg
  rw [JsonPatch.objects, hgroup, hnothing, ← htarget]
  exact List.forall_mem_cons.2
    ⟨Object.sound_of_keys_eq_nil rfl, (List.forall_mem_cons.1 (hpatches q hq)).2⟩

theorem Attainable.sound (h : f.Attainable) : f.Sound := by
  induction h with
  | empty => exact sound_empty
  | loaded h =>
    obtain ⟨s, -, hparse⟩ := answer_load_eq_some_iff.1 h
    obtain ⟨n, -, hn⟩ := bind_eq_ok_iff.1 hparse
    exact sound_of_ofNode hn
  | withHeader _ ih => exact ih
  | addResource s _ ih => exact ih
  | addStrategicPatch s _ ih => exact ih
  | folded _ _ h hacc hchild => exact sound_foldInto hacc hchild h
  | merged _ h hlayers =>
    obtain ⟨acc, hacc, rfl⟩ := Component.merge_eq_ok_iff.1 h
    exact sound_foldLayers hlayers sound_empty hacc
  | aggregated _ h hf => exact sound_aggregate hf h

end Fragment
end LayeredConfig
