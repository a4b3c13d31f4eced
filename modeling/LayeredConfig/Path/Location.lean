/-
Where a path points when no link is followed. The parts of the path are walked from the left: a
name goes down, `..` goes back up, `.` stays. What is left over is the location of the path, and
two paths with the same location name the same place.

The walk keeps the parts of the location with the last one first, so that going up is dropping the
head. Above the root there is nothing, so `..` stays there; above the start of a relative path
there is something unknown, so those `..` are kept.
-/
import LayeredConfig.Path.Basic

namespace LayeredConfig
namespace Path

/-- One step of the walk; the location so far has its last part first. -/
def step (walked : List Part) : Part → List Part
  | .here => walked
  | .up => match walked with
    | .name _ :: rest => rest
    | .root :: _ => walked
    | _ => .up :: walked
  | part => part :: walked

def location (p : Path) : List Part := (p.parts.foldl step []).reverse

/-- The plainest path to the same location. -/
def normalize (p : Path) : Path := ofParts p.location

end Path
end LayeredConfig
