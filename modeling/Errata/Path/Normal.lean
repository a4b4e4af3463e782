import Errata.Path.Basic

/-!
# Normal paths

A path is in normal form if no `.` is left and every `..` stands at its start, after the root where
there is one. `Path.normalize` resolves a path against a base directory by its text alone: it never
looks at a file.
-/
namespace Errata.Path

def ofComponents : List Component → Path
  | [] => ⟨[]⟩
  | .root :: cs => ⟨'/' :: List.intercalate ['/'] (cs.map Component.text)⟩
  | cs => ⟨List.intercalate ['/'] (cs.map Component.text)⟩

/-- Goes one component further; the components so far are given from the last to the first. Nothing
lies above the root, so a `..` there stays, like one with nothing to go back over. -/
def advance (back : List Component) : Component → List Component
  | .current => back
  | .parent =>
    match back with
    | .name _ :: above => above
    | _ => .parent :: back
  | c => c :: back

/-- The normal form of `raw`, taken relative to `base`. -/
def normalize (base raw : Path) : Path :=
  ofComponents ((base.join raw).components.foldl advance []).reverse

end Errata.Path
