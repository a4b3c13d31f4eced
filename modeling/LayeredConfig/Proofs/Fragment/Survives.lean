/-
Fragments survive being written and read.

What a text is read as is a matter of the text layer, so it is assumed of the one value in
question that its text is a document that spells it (`Yaml.Value.Restored`). Then every fragment
that can come about is read again as it was written (`Fragment.Attainable.survives`), and a fragment
that is loaded and saved is in its file for good: to do it again changes nothing.
-/
import Mathlib
import LayeredConfig.Proofs.Fragment.Attainable
import LayeredConfig.Proofs.Fragment.Printable

namespace LayeredConfig

open Yaml (Value Node)
open Yaml.Value (AllWritable)

/-- Whether the text of the value, if it has one, is a document that spells the value. -/
def Yaml.Value.Restored (v : Value) : Prop :=
  ∀ s, v.print = .ok s → ∃ n, Yaml.parse .whole s = .ok (some n) ∧ n.Spells v

namespace Fragment

variable {f : Fragment} {dir path : Path} {t t' : FileTree}

theorem Sound.readsBack (hf : f.Sound) (h : f.toValue.Restored) : f.ReadsBack := by
  intro s hs
  obtain ⟨n, hparse, hn⟩ := h s hs
  rw [parse, hparse]
  exact ofNode_of_spells hf hn

theorem ReadsBack.load_of_save (h : f.ReadsBack) (hsave : (f.save dir).run t = .ok path t') :
    (load dir).answer t' = .ok (some f) := by
  obtain ⟨-, s, hprint, hwrite⟩ := run_save_eq_ok_iff.1 hsave
  exact answer_load_eq_some_iff.2 ⟨s, FileTree.read_of_write hwrite, h s hprint⟩

theorem save_again (h : (f.save dir).run t = .ok path t') : (f.save dir).run t' = .ok path t' := by
  obtain ⟨hpath, s, hprint, hwrite⟩ := run_save_eq_ok_iff.1 h
  exact run_save_eq_ok_iff.2 ⟨hpath, s, hprint, FileTree.write_again hwrite⟩

/-- A fragment that can come about is read from every node that spells it. It has a text if and only
if all values beside its fields can be written. And once it is in a file, loading gives it back and
saving it again leaves the tree as it is. -/
theorem Attainable.survives (h : f.Attainable) :
    (∀ n : Node, n.Spells f.toValue → ofNode n = .ok f) ∧
    ((∃ s, f.print = .ok s) ↔ ∀ o ∈ f.objects, AllWritable o.unsupported) ∧
    (f.toValue.Restored → ∀ dir t path t', (f.save dir).run t = .ok path t' →
      (load dir).answer t' = .ok (some f) ∧ (f.save dir).run t' = .ok path t') :=
  ⟨fun _ => ofNode_of_spells h.sound, exists_print_iff, fun hrestored _ _ _ _ hsave =>
    ⟨(h.sound.readsBack hrestored).load_of_save hsave, save_again hsave⟩⟩

/-- A fragment with an empty list of bases, empty options, a key of its own and one of its secret,
which is read in one layout and written in another. -/
theorem Attainable.survives_of_keys_beside_fields :
    ∃ (f : Fragment) (t t' : FileTree), f.bases = some [] ∧ f.generatorOptions = some {} ∧
      f.unsupported.keys = ["x"] ∧ (f.secrets.map fun s => s.unsupported.keys) = [["y"]] ∧
      (load (.ofString "d")).answer t = .ok (some f) ∧ f.Attainable ∧ f.toValue.Restored ∧
      (f.save (.ofString "d")).run t = .ok (file (.ofString "d")) t' ∧ t' ≠ t ∧
      (load (.ofString "d")).answer t' = .ok (some f) ∧
      (f.save (.ofString "d")).run t' = .ok (file (.ofString "d")) t' := by
  let f : Fragment := {
    bases := some []
    secrets := [{
      name := "a", secretType := some "t"
      unsupported := ⟨[("y", .string "z")], List.pairwise_singleton _ _⟩ }]
    generatorOptions := some {}
    unsupported := ⟨[("x", .seq [])], List.pairwise_singleton _ _⟩ }
  obtain ⟨s, hs⟩ : ∃ s, s =
    "x: []\nbases: []\ngeneratorOptions: {}\nsecretGenerator:\n- name: a\n  type: t\n  y: z\n" :=
    ⟨_, rfl⟩
  obtain ⟨s', hs'⟩ : ∃ s', s' =
    "bases: []\nsecretGenerator:\n- name: a\n  y: z\n  type: t\ngeneratorOptions: {}\nx: []\n" :=
    ⟨_, rfl⟩
  have hread : parse s = .ok f := by
    rw [hs, parse, Yaml.parse_ofList]
    decide +kernel
  have hprint : f.print = .ok s' := by
    rw [hs']
    exact Yaml.Value.print_ofList (by decide +kernel)
  let plain (s : String) : Node := .scalar none .plain s
  have hspells (s : String) (h : Yaml.Scalar.ofNode none .plain s = .ok (.text s)) :
      (plain s).Spells (.string s) := ⟨_, h, rfl⟩
  have hvalue : f.toValue = .map [
      (.string "bases", .seq []),
      (.string "secretGenerator", .seq [.map [
        (.string "name", .string "a"), (.string "y", .string "z"), (.string "type", .string "t")]]),
      (.string "generatorOptions", .map []),
      (.string "x", .seq [])] := by decide +kernel
  have hparse : Yaml.parse .whole s' = .ok (some (.map none [
      (plain "bases", .seq none []),
      (plain "secretGenerator", .seq none [.map none [
        (plain "name", plain "a"), (plain "y", plain "z"), (plain "type", plain "t")]]),
      (plain "generatorOptions", .map none []),
      (plain "x", .seq none [])])) := by
    rw [hs', Yaml.parse_ofList]
    cbv
  have hrestored : f.toValue.Restored := by
    intro s hs
    obtain rfl := Except.ok.inj (hprint.symm.trans hs)
    refine ⟨_, hparse, ?_⟩
    rw [hvalue]
    refine ⟨hspells _ ?_, trivial, hspells _ ?_,
      ⟨⟨hspells _ ?_, hspells _ ?_, hspells _ ?_, hspells _ ?_, hspells _ ?_, hspells _ ?_, trivial⟩,
        trivial⟩,
      hspells _ ?_, trivial, hspells _ ?_, trivial, trivial⟩
    all_goals decide +kernel
  let holding (s : String) : FileTree := ⟨[([.ofString "d"], .directory),
    ([.ofString "d", .ofString fileName], .file (.text s))], [], []⟩
  have hload : (load (.ofString "d")).answer (holding s) = .ok (some f) :=
    answer_load_eq_some_iff.2 ⟨s, by rw [hs]; decide +kernel, hread⟩
  have hsave : (f.save (.ofString "d")).run (holding s) =
      .ok (file (.ofString "d")) (holding s') := by
    refine run_save_eq_ok_iff.2 ⟨rfl, s', hprint, ?_⟩
    rw [hs, hs']
    decide +kernel
  have hne : holding s' ≠ holding s := by
    rw [hs, hs']
    decide +kernel
  have hattainable : f.Attainable := .loaded hload
  obtain ⟨hback, hagain⟩ := hattainable.survives.2.2 hrestored _ _ _ _ hsave
  exact ⟨f, _, _, rfl, rfl, rfl, rfl, hload, hattainable, hrestored, hsave, hne, hback, hagain⟩

end Fragment
end LayeredConfig
