/-
Which directories a run lists as bases.

A layer asks for bases: for those of its list or, without a list, for its own directory. A base
that is asked for is listed unless its key is known. A layer that is taken apart and asks for a
known base makes the key of its own directory known as well, so that from then on nobody gets that
directory listed. `BaseRequest.known` and `BaseRequest.listed` say this of a sequence of requests,
and `Field.run_bases` shows that a run does the same.

Two things follow. No base that is asked for gets lost (`Component.foldLayers_keeps_bases`), and a
directory is listed, even that of a layer that was taken apart, exactly if it is asked for before
a layer there has built on a known base (`Component.merge_lists_iff`).
-/
import Mathlib
import LayeredConfig.Proofs.Fold.Appended
import LayeredConfig.Proofs.Yaml.Decide

namespace LayeredConfig

/-! ## Requests -/

/-- A base that a layer asks for. If the layer is taken apart, its directory comes along. -/
structure BaseRequest where
  base : String
  own : Option String

namespace BaseRequest

variable {seen : List String} {reqs : List BaseRequest} {key : String}

def met (seen : List String) (r : BaseRequest) : List String :=
  meet seen (if r.base ∈ seen then r.own.toList else [r.base])

/-- What is known after some requests. -/
def known (seen : List String) (reqs : List BaseRequest) : List String := reqs.foldl met seen

/-- What some requests get listed. -/
def listed (seen : List String) : List BaseRequest → List String
  | [] => []
  | r :: rest =>
    if r.base ∈ seen then listed (met seen r) rest else r.base :: listed (met seen r) rest

theorem mem_met {r : BaseRequest} :
    key ∈ met seen r ↔ key ∈ seen ∨ r.base = key ∨ (r.own = some key ∧ r.base ∈ seen) := by
  rw [met, mem_meet]
  by_cases hr : r.base ∈ seen
  · rw [if_pos hr, Option.mem_toList]
    have hbase : r.base = key → key ∈ seen := fun e => e ▸ hr
    tauto
  · rw [if_neg hr, List.mem_singleton]
    have hcomm : key = r.base ↔ r.base = key := eq_comm
    tauto

theorem mem_met_of_mem (h : key ∈ seen) (r : BaseRequest) : key ∈ met seen r :=
  mem_met.2 (.inl h)

theorem known_append (xs ys : List BaseRequest) : known seen (xs ++ ys) = known (known seen xs) ys :=
  List.foldl_append

theorem listed_append (xs ys : List BaseRequest) :
    listed seen (xs ++ ys) = listed seen xs ++ listed (known seen xs) ys := by
  induction xs generalizing seen with
  | nil => rfl
  | cons r rest ih =>
    have hknown : known seen (r :: rest) = known (met seen r) rest := rfl
    rw [List.cons_append, listed, listed, hknown, ih]
    by_cases hr : r.base ∈ seen
    · rw [if_pos hr, if_pos hr]
    · rw [if_neg hr, if_neg hr, List.cons_append]

/-! ### What is known and what is listed

Both are told by the request that makes it so and those before it. The inductions go by the last
request, since only there the requests before it are all the others. -/

theorem exists_concat_iff {P : List BaseRequest → BaseRequest → Prop} {last : BaseRequest} :
    (∃ before r, before ++ [r] <+: reqs ++ [last] ∧ P before r) ↔
      P reqs last ∨ ∃ before r, before ++ [r] <+: reqs ∧ P before r := by
  constructor
  · intro ⟨before, r, hprefix, hP⟩
    rcases List.prefix_concat_iff.1 hprefix with heq | hprefix
    · obtain ⟨rfl, hlast⟩ := List.append_inj' heq rfl
      obtain rfl : r = last := List.singleton_inj.1 hlast
      exact .inl hP
    · exact .inr ⟨before, r, hprefix, hP⟩
  · rintro (hP | ⟨before, r, hprefix, hP⟩)
    · exact ⟨reqs, last, List.prefix_rfl, hP⟩
    · exact ⟨before, r, hprefix.trans (List.prefix_append reqs [last]), hP⟩

theorem not_exists_nil {P : List BaseRequest → BaseRequest → Prop} :
    ¬ ∃ before r, before ++ [r] <+: [] ∧ P before r := by
  rintro ⟨before, r, hprefix, -⟩
  have hnil : before ++ [r] = [] := List.prefix_nil.1 hprefix
  simp at hnil

theorem mem_known :
    key ∈ known seen reqs ↔ key ∈ seen ∨ ∃ before r, before ++ [r] <+: reqs ∧
      (r.base = key ∨ (r.own = some key ∧ r.base ∈ known seen before)) := by
  induction reqs using List.reverseRecOn with
  | nil => exact (or_iff_left not_exists_nil).symm
  | append_singleton reqs last ih =>
    have hknown : known seen (reqs ++ [last]) = met (known seen reqs) last := known_append reqs _
    rw [hknown, mem_met, ih, exists_concat_iff, or_assoc, or_comm (a := last.base = key ∨ _)]

theorem mem_listed :
    key ∈ listed seen reqs ↔
      ∃ before r, before ++ [r] <+: reqs ∧ r.base = key ∧ key ∉ known seen before := by
  induction reqs using List.reverseRecOn with
  | nil => exact (iff_false_left List.not_mem_nil).2 not_exists_nil
  | append_singleton reqs last ih =>
    rw [listed_append, List.mem_append, ih, exists_concat_iff, or_comm, listed, listed]
    refine or_congr_left ?_
    by_cases hlast : last.base ∈ known seen reqs
    · rw [if_pos hlast]
      constructor
      · intro h
        exact absurd h List.not_mem_nil
      · rintro ⟨rfl, hn⟩
        exact absurd hlast hn
    · rw [if_neg hlast, List.mem_singleton]
      constructor
      · rintro rfl
        exact ⟨rfl, hlast⟩
      · rintro ⟨rfl, -⟩
        rfl

/-- A key is known for being listed, or it is that of a directory that came along. -/
theorem mem_listed_of_mem_known (h : key ∈ known seen reqs) :
    key ∈ seen ∨ key ∈ listed seen reqs ∨ ∃ r ∈ reqs, r.own = some key := by
  induction reqs using List.reverseRecOn with
  | nil => exact .inl h
  | append_singleton reqs last ih =>
    have hknown : known seen (reqs ++ [last]) = met (known seen reqs) last := known_append reqs _
    rw [hknown, mem_met] at h
    rw [listed_append, List.mem_append]
    have hearlier (h : key ∈ known seen reqs) :
        key ∈ seen ∨ (key ∈ listed seen reqs ∨ key ∈ listed (known seen reqs) [last]) ∨
          ∃ r ∈ reqs ++ [last], r.own = some key := by
      rcases ih h with h | h | ⟨r, hr, hown⟩
      · exact .inl h
      · exact .inr (.inl (.inl h))
      · exact .inr (.inr ⟨r, List.mem_append_left _ hr, hown⟩)
    rcases h with h | rfl | ⟨hown, -⟩
    · exact hearlier h
    · by_cases hlast : last.base ∈ known seen reqs
      · exact hearlier hlast
      · have hmem : last.base ∈ listed (known seen reqs) [last] := by simp [listed, hlast]
        exact .inr (.inl (.inr hmem))
    · exact .inr (.inr ⟨last, by simp, hown⟩)

theorem base_mem_known {r : BaseRequest} (h : r ∈ reqs) : r.base ∈ known seen reqs := by
  obtain ⟨before, after, rfl⟩ := List.append_of_mem h
  have hprefix : before ++ [r] <+: before ++ r :: after := ⟨after, by simp⟩
  exact mem_known.2 (.inr ⟨before, r, hprefix, .inl rfl⟩)

/-- What is listed stands in the order in which it is first asked for. -/
theorem listed_sublist_novel {seen' : List String} (h : ∀ key ∈ seen, key ∈ seen') :
    (listed seen' reqs).Sublist (novel id seen (reqs.map (·.base))) := by
  induction reqs generalizing seen seen' with
  | nil => exact .slnil
  | cons r rest ih =>
    have hmet : ∀ key ∈ r.base :: seen, key ∈ met seen' r := by
      intro key hkey
      rcases List.mem_cons.1 hkey with rfl | hkey
      · exact mem_met.2 (.inr (.inl rfl))
      · exact mem_met_of_mem (h key hkey) r
    have hrest := ih hmet
    rw [listed, List.map_cons, novel, sift_cons]
    by_cases hr : r.base ∈ seen'
    · rw [if_pos hr]
      exact List.sublist_append_of_sublist_right hrest
    · have hnew : r.base ∉ seen := fun hmem => hr (h r.base hmem)
      rw [if_neg hr, if_pos (by simpa using hnew)]
      exact hrest.cons_cons r.base

/-- The directory is asked for before any layer there has asked for a base that was known then. -/
def RequestedFirst (reqs : List BaseRequest) (key : String) : Prop :=
  ∃ before r, before ++ [r] <+: reqs ∧ r.base = key ∧
    ∀ earlier q, earlier ++ [q] <+: before → q.own = some key → q.base ∉ known [] earlier

theorem mem_listed_iff_requestedFirst : key ∈ listed [] reqs ↔ RequestedFirst reqs key := by
  rw [mem_listed]
  constructor
  · intro ⟨before, r, hprefix, hbase, hnew⟩
    refine ⟨before, r, hprefix, hbase, fun earlier q hq hown hknown => ?_⟩
    exact hnew (mem_known.2 (.inr ⟨earlier, q, hq, .inr ⟨hown, hknown⟩⟩))
  -- If the key is known by then, it has been asked for before, and that request is as good.
  · intro ⟨before, r, hprefix, hbase, hfirst⟩
    induction hn : before.length using Nat.strongRecOn generalizing before r with
    | ind n ih =>
      by_cases hknown : key ∈ known [] before
      · obtain ⟨earlier, q, hq, hcase⟩ := (mem_known.1 hknown).resolve_left List.not_mem_nil
        rcases hcase with hqbase | ⟨hown, hknown⟩
        · have hshort : earlier.length < n := by
            have hlength := hq.length_le
            rw [List.length_append, List.length_singleton] at hlength
            omega
          have hbefore : before <+: reqs := (List.prefix_append before [r]).trans hprefix
          have hearlier : earlier <+: before := (List.prefix_append earlier [q]).trans hq
          refine ih _ hshort earlier q (hq.trans hbefore) hqbase ?_ rfl
          intro earlier' q' hq'
          exact hfirst earlier' q' (hq'.trans hearlier)
        · exact absurd hknown (hfirst earlier q hq hown)
      · exact ⟨before, r, hprefix, hbase, hknown⟩

end BaseRequest

/-! ## What layers ask for -/

namespace Layer

/-- The bases in the lists of the layers, and the directory of each layer without a list. -/
def asked (layers : List Layer) : List (Layer × String) :=
  layers.flatMap fun layer => (layer.fragment.bases.getD ["."]).map (layer, ·)

def own (root : Path) (layer : Layer) : Option String :=
  if layer.fragment.bases.isSome then (root.rebase layer.dir ".").toOption else none

/-- What the layers ask for, as requests. -/
def Requests (root : Path) (layers : List Layer) (reqs : List BaseRequest) : Prop :=
  List.Forall₂ (fun e r => root.rebase e.1.dir e.2 = .ok r.base ∧ r.own = own root e.1)
    (asked layers) reqs

theorem asked_cons (layer : Layer) (rest : List Layer) :
    asked (layer :: rest) =
      (layer.fragment.bases.getD ["."]).map (layer, ·) ++ asked rest :=
  List.flatMap_cons

theorem own_eq_some_iff {root : Path} {layer : Layer} {key : String} :
    own root layer = some key ↔
      layer.fragment.bases.isSome = true ∧ root.rebase layer.dir "." = .ok key := by
  unfold own
  by_cases hb : layer.fragment.bases.isSome = true
  · rw [if_pos hb]
    cases root.rebase layer.dir "." <;> simp [Except.toOption, hb]
  · rw [if_neg hb]
    simp [hb]

theorem own_of_request {root : Path} {layers : List Layer} {reqs : List BaseRequest}
    (h : Requests root layers reqs) {r : BaseRequest} (hr : r ∈ reqs) {key : String}
    (hown : r.own = some key) :
    ∃ layer ∈ layers, layer.fragment.bases.isSome = true ∧ root.rebase layer.dir "." = .ok key := by
  obtain ⟨⟨layer, value⟩, he, -, heq⟩ := exists_of_mem_forall₂ h hr
  obtain ⟨layer', hlayer, hvalue⟩ := List.mem_flatMap.1 he
  obtain ⟨_, -, hpair⟩ := List.mem_map.1 hvalue
  obtain rfl : layer' = layer := (Prod.mk.inj hpair).1
  exact ⟨layer', hlayer, own_eq_some_iff.1 (heq.symm.trans hown)⟩

end Layer

/-! ## Requests in a run -/

/-- The cell after its requests have been served. -/
structure Cell.Served (c : Cell .bases) (reqs : List BaseRequest) (c' : Cell .bases) : Prop where
  value : c'.value.getD [] = c.value.getD [] ++ BaseRequest.listed c.seen reqs
  seen : c'.seen = BaseRequest.known c.seen reqs

namespace Cell.Served

variable {c d c' : Cell .bases} {reqs more : List BaseRequest} {r : BaseRequest}

theorem nil : c.Served [] c := ⟨(List.append_nil _).symm, rfl⟩

theorem append (h : c.Served reqs d) (h' : d.Served more c') : c.Served (reqs ++ more) c' where
  value := by rw [h'.value, h.value, h.seen, BaseRequest.listed_append, List.append_assoc]
  seen := by rw [h'.seen, h.seen, BaseRequest.known_append]

theorem new (hr : r.base ∉ c.seen) : c.Served [r] (Field.addBase r.base c) where
  value := by
    show c.value.getD [] ++ [r.base] = _
    rw [BaseRequest.listed, if_neg hr, BaseRequest.listed]
  seen := by
    show meet c.seen [r.base] = BaseRequest.met c.seen r
    rw [BaseRequest.met, if_neg hr]

theorem known (hr : r.base ∈ c.seen) : c.Served [r] (c.take r.own.toList c.value) where
  value := by
    show c.value.getD [] = _
    rw [BaseRequest.listed, if_pos hr, BaseRequest.listed, List.append_nil]
  seen := by
    show meet c.seen r.own.toList = BaseRequest.met c.seen r
    rw [BaseRequest.met, if_pos hr]

end Cell.Served

namespace Field

variable {root : Path} {layer : Layer} {layers : List Layer} {c c' : Cell .bases}

theorem foldBases_served (hb : layer.fragment.bases.isSome = true) {values : List String}
    (h : foldBases (layer.site root) values c = .ok c') :
    ∃ reqs, List.Forall₂ (fun value r => root.rebase layer.dir value = .ok r.base ∧
        r.own = layer.own root) values reqs ∧ c.Served reqs c' := by
  induction values generalizing c with
  | nil =>
    obtain rfl : c = c' := Except.ok.inj h
    exact ⟨[], .nil, .nil⟩
  | cons value rest ih =>
    unfold foldBases at h
    obtain ⟨base, hbase, hrest⟩ := bind_eq_ok_iff.1 h
    have hvalue : root.rebase layer.dir value = .ok base := Site.rebase_eq_ok_iff.1 hbase
    by_cases hk : base ∈ c.seen
    · rw [if_pos hk] at hrest
      obtain ⟨key, hkey, hrest⟩ := bind_eq_ok_iff.1 hrest
      have hown : layer.own root = some key :=
        Layer.own_eq_some_iff.2 ⟨hb, Site.rebase_eq_ok_iff.1 hkey⟩
      obtain ⟨reqs, hreqs, hserved⟩ := ih hrest
      have hfirst : c.Served [⟨base, some key⟩] (c.take [key] c.value) := .known hk
      exact ⟨⟨base, some key⟩ :: reqs, .cons ⟨hvalue, hown.symm⟩ hreqs, hfirst.append hserved⟩
    · rw [if_neg hk] at hrest
      obtain ⟨reqs, hreqs, hserved⟩ := ih hrest
      have hfirst : c.Served [⟨base, layer.own root⟩] (addBase base c) := .new hk
      exact ⟨⟨base, layer.own root⟩ :: reqs, .cons ⟨hvalue, rfl⟩ hreqs, hfirst.append hserved⟩

theorem foldWhole_served (h : foldWhole (layer.site root) .bases c = .ok c') :
    ∃ base, root.rebase layer.dir "." = .ok base ∧ c.Served [⟨base, none⟩] c' := by
  rw [foldWhole_bases] at h
  obtain ⟨base, hbase, rfl⟩ := map_eq_ok_iff.1 h
  refine ⟨base, Site.rebase_eq_ok_iff.1 hbase, ?_⟩
  by_cases hk : base ∈ c.seen
  · rw [if_pos hk]
    exact .known (r := ⟨base, none⟩) hk
  · rw [if_neg hk]
    exact .new (r := ⟨base, none⟩) hk

/-- A run serves what its layers ask for, in their order. -/
theorem run_bases (h : run root .bases layers c = .ok c') :
    ∃ reqs, Layer.Requests root layers reqs ∧ c.Served reqs c' := by
  induction layers generalizing c with
  | nil =>
    obtain rfl : c = c' := Except.ok.inj h
    exact ⟨[], .nil, .nil⟩
  | cons layer rest ih =>
    obtain ⟨d, hd, hrest⟩ := run_cons.1 h
    obtain ⟨more, hmore, hserved⟩ := ih hrest
    unfold Layer.Requests
    rw [Layer.asked_cons]
    rcases Fragment.foldCell_eq_ok hd with ⟨hb, hd⟩ | ⟨hb, hd⟩
    · obtain ⟨base, hbase, hfirst⟩ := foldWhole_served hd
      have hnone : layer.fragment.bases = none := by simpa using hb
      have hown : layer.own root = none := if_neg (by simp [hb])
      refine ⟨⟨base, none⟩ :: more, ?_, hfirst.append hserved⟩
      rw [hnone]
      exact .cons ⟨hbase, hown.symm⟩ hmore
    · obtain ⟨values, hvalues⟩ := Option.isSome_iff_exists.1 hb
      have hlist : layer.fragment.get .bases = some values := hvalues
      rw [hlist] at hd
      obtain ⟨reqs, hreqs, hfirst⟩ := foldBases_served hb hd
      refine ⟨reqs ++ more, ?_, hfirst.append hserved⟩
      rw [hvalues]
      exact List.rel_append (List.forall₂_map_left_iff.2 hreqs) hmore

end Field

namespace Component

variable {root : Path} {layers : List Layer} {acc : Accumulator}

/-- Whatever base some layer asks for is listed, or it is the directory of a layer that was taken
apart. The list has the order in which the bases are first asked for. -/
theorem foldLayers_keeps_bases (h : foldLayers root layers .blank = .ok acc) :
    ∃ reqs, Layer.Requests root layers reqs ∧
      (∀ r ∈ reqs, r.base ∈ acc.fragment.bases.getD [] ∨
        ∃ layer ∈ layers, layer.fragment.bases.isSome = true ∧
          root.rebase layer.dir "." = .ok r.base) ∧
      (acc.fragment.bases.getD []).Sublist (novel id [] (reqs.map (·.base))) := by
  obtain ⟨-, hrun⟩ := run_of_foldLayers h
  obtain ⟨reqs, hreqs, hserved⟩ := Field.run_bases (hrun .bases)
  have hvalue : acc.fragment.bases.getD [] = BaseRequest.listed [] reqs := hserved.value
  refine ⟨reqs, hreqs, fun r hr => ?_, ?_⟩
  · have hknown : r.base ∈ BaseRequest.known [] reqs := BaseRequest.base_mem_known hr
    rcases BaseRequest.mem_listed_of_mem_known hknown with h | h | ⟨q, hq, hown⟩
    · exact absurd h List.not_mem_nil
    · rw [hvalue]
      exact .inl h
    · exact .inr (Layer.own_of_request hreqs hq hown)
  · rw [hvalue]
    exact BaseRequest.listed_sublist_novel fun key hkey => hkey

theorem foldLayers_keeps_bases_of_shared_base :
    let layers : List Layer := [⟨.ofString "app/base", {}⟩,
      ⟨.ofString "app/x", { bases := some ["../base", "../y"] }⟩,
      ⟨.ofString "app/z", { bases := some ["../x"] }⟩]
    ∃ acc, foldLayers (.ofString "app") layers .blank = .ok acc ∧
      acc.fragment.bases = some ["base", "y"] ∧
      ∃ reqs, Layer.Requests (.ofString "app") layers reqs ∧
        (∀ r ∈ reqs, r.base ∈ acc.fragment.bases.getD [] ∨
          ∃ layer ∈ layers, layer.fragment.bases.isSome = true ∧
            (Path.ofString "app").rebase layer.dir "." = .ok r.base) ∧
        (acc.fragment.bases.getD []).Sublist (novel id [] (reqs.map (·.base))) := by
  intro layers
  have hrun : (foldLayers (.ofString "app") [⟨.ofString "app/base", {}⟩,
      ⟨.ofString "app/x", { bases := some ["../base", "../y"] }⟩,
      ⟨.ofString "app/z", { bases := some ["../x"] }⟩] .blank).map (·.fragment.bases) =
        .ok (some ["base", "y"]) := by decide +kernel
  obtain ⟨acc, hacc, hbases⟩ := map_eq_ok_iff.1 hrun
  exact ⟨acc, hacc, hbases, foldLayers_keeps_bases hacc⟩

/-- A directory is listed exactly if it is asked for before a layer there, being taken apart, has
asked for a base that was known then. So the directory of a layer that was taken apart may well be
listed. -/
theorem merge_lists_iff {d : Deployment} {base : Layer} {overlays : List Layer}
    {parameters : List Parameter} {f : Fragment}
    (h : merge d root base overlays parameters = .ok f) :
    ∃ reqs, Layer.Requests root (base :: overlays) reqs ∧
      ∀ key, key ∈ f.bases.getD [] ↔ BaseRequest.RequestedFirst reqs key := by
  obtain ⟨acc, hacc, rfl⟩ := merge_eq_ok_iff.1 h
  obtain ⟨-, hrun⟩ := run_of_foldLayers hacc
  obtain ⟨reqs, hreqs, hserved⟩ := Field.run_bases (hrun .bases)
  have hvalue : acc.fragment.bases.getD [] = BaseRequest.listed [] reqs := hserved.value
  refine ⟨reqs, hreqs, fun key => ?_⟩
  show key ∈ acc.fragment.bases.getD [] ↔ _
  rw [hvalue]
  exact BaseRequest.mem_listed_iff_requestedFirst

theorem merge_lists_iff_of_base_with_bases :
    let base : Layer := ⟨.ofString "app/base", { bases := some ["../common"] }⟩
    let overlay : Layer := ⟨.ofString "app/x", { bases := some ["../base"] }⟩
    ∃ f, merge {} (.ofString "app") base [overlay] [] = .ok f ∧
      f.bases = some ["common", "base"] ∧
      ∃ reqs, Layer.Requests (.ofString "app") [base, overlay] reqs ∧
        ∀ key, key ∈ f.bases.getD [] ↔ BaseRequest.RequestedFirst reqs key := by
  intro base overlay
  have hmerge : merge {} (.ofString "app") ⟨.ofString "app/base", { bases := some ["../common"] }⟩
      [⟨.ofString "app/x", { bases := some ["../base"] }⟩] [] =
        .ok { Fragment.blank with bases := some ["common", "base"] } := by decide +kernel
  exact ⟨_, hmerge, rfl, merge_lists_iff hmerge⟩

/-- A base that builds on another one is listed if an overlay asks for it, and so is an overlay that
an earlier overlay asks for. All of them have been taken apart. -/
theorem merge_lists_folded_layers :
    ((merge {} (.ofString "app") ⟨.ofString "app/base", { bases := some ["../common"] }⟩
        [⟨.ofString "app/x", { bases := some ["../base"] }⟩] []).map (·.bases) =
          .ok (some ["common", "base"]) ∧
      (Path.ofString "app").rebase (.ofString "app/base") "." = .ok "base") ∧
    (merge {} (.ofString "app") ⟨.ofString "app/base", {}⟩
        [⟨.ofString "app/x", { bases := some ["../y"] }⟩,
          ⟨.ofString "app/y", { bases := some ["../base"] }⟩] []).map (·.bases) =
            .ok (some ["base", "y"]) ∧
      (Path.ofString "app").rebase (.ofString "app/y") "." = .ok "y" := by
  refine ⟨⟨?_, rfl⟩, ?_, rfl⟩
  · decide +kernel
  · decide +kernel

end Component
end LayeredConfig
