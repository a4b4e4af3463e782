import Errata.Path.Basic

/-!
# Sets of paths

A set of paths is listed in the order of their components. Two spellings of one path are one
member, and the spelling that came first is kept.
-/
namespace Errata

namespace Path

/-- Puts a path where it belongs in a list in path order, unless it is there already. -/
def place (p : Path) : List Path → List Path
  | [] => [p]
  | q :: qs =>
    if p.key < q.key then p :: q :: qs
    else if q.key < p.key then q :: place p qs
    else q :: qs

theorem mem_place {p x : Path} {ps : List Path} (h : x ∈ place p ps) : x = p ∨ x ∈ ps := by
  induction ps with
  | nil => simpa [place] using h
  | cons q qs ih =>
    rw [place] at h
    split at h
    · simpa using h
    · split at h
      · rcases List.mem_cons.1 h with h | h
        · simp [h]
        · rcases ih h with h | h <;> simp [h]
      · exact .inr h

theorem place_sorted {p : Path} {ps : List Path}
    (h : ps.Pairwise fun a b => a.key < b.key) :
    (place p ps).Pairwise fun a b => a.key < b.key := by
  induction ps with
  | nil => simp [place]
  | cons q qs ih =>
    rw [List.pairwise_cons] at h
    rw [place]
    split
    · next hp =>
      refine List.pairwise_cons.2 ⟨fun x hx => ?_, List.pairwise_cons.2 h⟩
      rcases List.mem_cons.1 hx with rfl | hx
      · exact hp
      · exact List.lt_trans hp (h.1 x hx)
    · split
      · next hq =>
        refine List.pairwise_cons.2 ⟨fun x hx => ?_, ih h.2⟩
        rcases mem_place hx with rfl | hx
        · exact hq
        · exact h.1 x hx
      · exact List.pairwise_cons.2 h

end Path

/-- Paths in the order of their components, no two with the same ones. -/
structure PathSet where
  toList : List Path
  sorted : toList.Pairwise fun a b => a.key < b.key

namespace PathSet

def empty : PathSet := ⟨[], .nil⟩

instance : EmptyCollection PathSet := ⟨empty⟩

instance : Inhabited PathSet := ⟨empty⟩

def insert (s : PathSet) (p : Path) : PathSet := ⟨Path.place p s.toList, Path.place_sorted s.sorted⟩

def ofList (ps : List Path) : PathSet := ps.foldl insert ∅

def size (s : PathSet) : Nat := s.toList.length

end PathSet

end Errata
