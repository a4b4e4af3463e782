import Errata.Path.Set
import Mathlib.Data.Finset.Card
import Mathlib.Data.List.Basic
import Mathlib.Data.List.Induction

/-!
# Members of a set of paths

Paths have the same key exactly if they have the same components, so a set of paths grows by every
path whose components are new to it, and by no other.
-/
namespace Errata

namespace Path

theorem Component.key_injective : Function.Injective Component.key := by
  intro a b h
  cases a <;> cases b <;> simp_all [Component.key]
  next n m =>
    exact (List.map_injective_iff.mpr fun _ _ => Char.toNat_inj.mp) h

theorem key_eq_iff {p q : Path} : p.key = q.key ↔ p.components = q.components :=
  (List.map_injective_iff.mpr Component.key_injective).eq_iff

theorem same_iff {p q : Path} : p.same q ↔ p.components = q.components := by
  simp [same]

theorem mem_place_iff {p x : Path} {ps : List Path} (h : ps.Pairwise fun a b => a.key < b.key) :
    x ∈ place p ps ↔ x ∈ ps ∨ x = p ∧ ∀ q ∈ ps, q.components ≠ p.components := by
  induction ps with
  | nil => simp [place]
  | cons q qs ih =>
    obtain ⟨hq, hqs⟩ := List.pairwise_cons.mp h
    rw [place]
    split
    · next hlt =>
      have hnew : ∀ y ∈ q :: qs, y.components ≠ p.components := by
        intro y hy heq
        rw [← key_eq_iff] at heq
        rcases List.mem_cons.mp hy with rfl | hy
        · exact List.lt_irrefl _ (heq ▸ hlt)
        · exact List.lt_irrefl _ (List.lt_trans (heq ▸ hlt) (hq y hy))
      rw [List.mem_cons, or_comm]
      exact or_congr_right (and_iff_left hnew).symm
    · split
      · next hlt =>
        have hne : q.components ≠ p.components := by
          intro heq
          rw [← key_eq_iff] at heq
          exact List.lt_irrefl _ (heq ▸ hlt)
        rw [List.mem_cons, List.mem_cons, ih hqs, List.forall_mem_cons, and_iff_right hne,
          or_assoc]
      · next hpq hqp =>
        have heq : q.components = p.components :=
          key_eq_iff.mp (List.le_antisymm (List.not_lt.mp hpq) (List.not_lt.mp hqp))
        simp [heq]

end Path

namespace PathSet

theorem mem_insert {s : PathSet} {p x : Path} :
    x ∈ (s.insert p).toList ↔
      x ∈ s.toList ∨ x = p ∧ ∀ q ∈ s.toList, q.components ≠ p.components :=
  Path.mem_place_iff s.sorted

theorem mem_insert_of_unique {s : PathSet} {p x : Path}
    (h : ∀ q ∈ s.toList, q.components = p.components → q = p) :
    x ∈ (s.insert p).toList ↔ x ∈ s.toList ∨ x = p := by
  rw [mem_insert]
  constructor
  · exact Or.imp_right And.left
  · rintro (hx | rfl)
    · exact .inl hx
    · by_cases hmem : x ∈ s.toList
      · exact .inl hmem
      · refine .inr ⟨rfl, fun q hq heq => hmem ?_⟩
        rwa [← h q hq heq]

theorem mem_components_insert {s : PathSet} {p : Path} {cs : List Path.Component} :
    cs ∈ (s.insert p).toList.map (·.components) ↔
      cs ∈ s.toList.map (·.components) ∨ cs = p.components := by
  simp only [List.mem_map, mem_insert]
  constructor
  · rintro ⟨q, hq | ⟨rfl, -⟩, rfl⟩
    · exact .inl ⟨q, hq, rfl⟩
    · exact .inr rfl
  · rintro (⟨q, hq, rfl⟩ | rfl)
    · exact ⟨q, .inl hq, rfl⟩
    · by_cases hold : ∃ q ∈ s.toList, q.components = p.components
      · obtain ⟨q, hq, hcs⟩ := hold
        exact ⟨q, .inl hq, hcs⟩
      · exact ⟨p, .inr ⟨rfl, fun q hq hcs => hold ⟨q, hq, hcs⟩⟩, rfl⟩

theorem not_mem_empty (p : Path) : p ∉ (∅ : PathSet).toList := List.not_mem_nil

theorem nodup (s : PathSet) : s.toList.Nodup := by
  refine s.sorted.imp ?_
  rintro a b hlt rfl
  exact List.lt_irrefl _ hlt

/-- A set that was put together from paths has one member for each sequence of components. -/
theorem size_ofList (ps : List Path) : (ofList ps).size = (ps.map (·.components)).toFinset.card := by
  have hmem : ∀ cs, cs ∈ (ofList ps).toList.map (·.components) ↔ cs ∈ ps.map (·.components) := by
    intro cs
    induction ps using List.reverseRecOn with
    | nil => exact Iff.rfl
    | append_singleton ps p ih =>
      have hstep : ofList (ps ++ [p]) = (ofList ps).insert p := by
        rw [ofList, List.foldl_append]
        rfl
      rw [hstep, mem_components_insert, ih]
      simp [eq_comm]
  have hnodup : ((ofList ps).toList.map (·.components)).Nodup := by
    refine List.pairwise_map.mpr ((ofList ps).sorted.imp fun hlt heq => ?_)
    exact List.lt_irrefl _ (Path.key_eq_iff.mpr heq ▸ hlt)
  calc (ofList ps).size = ((ofList ps).toList.map (·.components)).length :=
        (List.length_map _).symm
    _ = ((ofList ps).toList.map (·.components)).toFinset.card :=
        (List.toFinset_card_of_nodup hnodup).symm
    _ = (ps.map (·.components)).toFinset.card := by
        congr 1
        ext cs
        rw [List.mem_toFinset, List.mem_toFinset, hmem]

theorem eq_of_perm {s t : PathSet} (h : s.toList.Perm t.toList) : s = t := by
  have hasymm : ∀ a b : Path, a ∈ s.toList → b ∈ t.toList → a.key < b.key → b.key < a.key →
      a = b := fun _ _ _ _ hab hba => absurd (List.lt_trans hab hba) (List.lt_irrefl _)
  have hlist : s.toList = t.toList := h.eq_of_pairwise hasymm s.sorted t.sorted
  obtain ⟨_, _⟩ := s
  obtain ⟨_, _⟩ := t
  subst hlist
  rfl

end PathSet

end Errata
