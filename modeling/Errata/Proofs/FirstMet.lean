import Mathlib.Data.Finset.Card
import Mathlib.Data.List.Nodup

/-!
# Keys in the order in which they are first met

Elements of a list may share a key. Listed as they are first met, every key stands once, at the turn
of the first element that has it. The last lemma says how a list that grows splits at an element.
-/
namespace Errata

variable {α κ : Type} [DecidableEq κ] {key : α → κ} {xs : List α} {ks : List κ}

/-- `ks` are the keys of some elements, in the order in which they are first met: of two keys, the
one whose first element comes sooner is listed sooner, so none is listed twice. -/
structure ListsKeys (key : α → κ) (xs : List α) (ks : List κ) : Prop where
  mem_iff : ∀ k, k ∈ ks ↔ ∃ x ∈ xs, key x = k
  ordered : ks.Pairwise fun a b => xs.findIdx (key · = a) < xs.findIdx (key · = b)

namespace ListsKeys

theorem nil : ListsKeys key [] [] := ⟨by simp, .nil⟩

theorem nodup (h : ListsKeys key xs ks) : ks.Nodup :=
  h.ordered.imp fun hlt heq => by simp [heq] at hlt

theorem length_eq (h : ListsKeys key xs ks) : ks.length = (xs.map key).toFinset.card := by
  rw [← List.toFinset_card_of_nodup h.nodup]
  congr 1
  ext k
  simp [h.mem_iff k]

theorem findIdx_lt (h : ListsKeys key xs ks) {k : κ} (hk : k ∈ ks) :
    xs.findIdx (key · = k) < xs.length :=
  List.findIdx_lt_length.mpr (by simpa using (h.mem_iff k).mp hk)

theorem findIdx_concat (h : ListsKeys key xs ks) (x : α) {k : κ} (hk : k ∈ ks) :
    (xs ++ [x]).findIdx (key · = k) = xs.findIdx (key · = k) := by
  rw [List.findIdx_append, if_pos (h.findIdx_lt hk)]

theorem findIdx_concat_self (h : ListsKeys key xs ks) {x : α} (hnew : key x ∉ ks) :
    (xs ++ [x]).findIdx (key · = key x) = xs.length := by
  have hlate : ¬xs.findIdx (key · = key x) < xs.length := by
    rw [List.findIdx_lt_length]
    simpa using fun y hy hkey => hnew ((h.mem_iff _).mpr ⟨y, hy, hkey⟩)
  rw [List.findIdx_append, if_neg hlate]
  simp

/-- One more element adds its key at the end, unless that has been met already. -/
theorem concat (h : ListsKeys key xs ks) (x : α) [Decidable (key x ∈ ks)] :
    ListsKeys key (xs ++ [x]) (if key x ∈ ks then ks else ks ++ [key x]) := by
  have hmem : ∀ k, (∃ y ∈ xs ++ [x], key y = k) ↔ k ∈ ks ∨ k = key x := by
    intro k
    rw [h.mem_iff]
    simp [or_and_right, exists_or, eq_comm]
  have hordered : ks.Pairwise fun a b =>
      (xs ++ [x]).findIdx (key · = a) < (xs ++ [x]).findIdx (key · = b) := by
    refine h.ordered.imp_of_mem fun ha hb hlt => ?_
    rwa [h.findIdx_concat x ha, h.findIdx_concat x hb]
  split
  · next hold =>
    refine ⟨fun k => ?_, hordered⟩
    rw [hmem, or_iff_left_of_imp]
    rintro rfl
    exact hold
  · next hnew =>
    refine ⟨fun k => ?_, List.pairwise_append.mpr ⟨hordered, List.pairwise_singleton _ _, ?_⟩⟩
    · rw [hmem, List.mem_append, List.mem_singleton]
    · intro a ha b hb
      obtain rfl := List.mem_singleton.mp hb
      rw [h.findIdx_concat x ha, h.findIdx_concat_self hnew]
      exact h.findIdx_lt ha

end ListsKeys

/-- The ways to split a list that has grown by one at an element: the new one, or an old one. -/
theorem concat_eq_split_iff {earlier later : List α} {x y : α} :
    xs ++ [x] = earlier ++ y :: later ↔
      later = [] ∧ xs = earlier ∧ x = y ∨
      ∃ between, later = between ++ [x] ∧ xs = earlier ++ y :: between := by
  rcases List.eq_nil_or_concat' later with rfl | ⟨between, last, rfl⟩
  · simp
  · rw [← List.cons_append, ← List.append_assoc, List.append_singleton_inj]
    constructor
    · rintro ⟨rfl, rfl⟩
      exact .inr ⟨between, rfl, rfl⟩
    · rintro (⟨hnil, -, -⟩ | ⟨between', hlater, rfl⟩)
      · simp at hnil
      · obtain ⟨rfl, rfl⟩ := List.append_singleton_inj.mp hlater
        exact ⟨rfl, rfl⟩

end Errata
