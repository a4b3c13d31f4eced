/-
Folding whole layers.

A layer without a list of bases is not taken apart: its directory becomes a base of the result. All
layers of one result share a ledger. A layer with keys that cannot be folded is refused before
anything of it is looked at.
-/
import LayeredConfig.Fold.Policy
import LayeredConfig.Fragment.Unsupported

namespace LayeredConfig

/-- Folds a fragment, read from `site.dir`, into the accumulator. -/
def Fragment.foldInto (site : Site) (child : Fragment) : Folding Unit :=
  match child.unsupportedFields.head? with
  | some field => throw (.unsupported field site.file)
  | none =>
    if child.bases.isNone then do
      let base ← Folding.lift (site.rebase .bases ".")
      if ← Folding.mark .bases base then Policy.addBase base
    else Policy.all.forM fun p => p.2 site child

/-- Folds a layer into the accumulator of a result in the directory `root`. -/
def Layer.fold (root : Path) (layer : Layer) : Folding Unit :=
  layer.fragment.foldInto ⟨root, layer.dir⟩

end LayeredConfig
