/-!
# Slots

Entries stand in slots, in the order in which they came, and an index knows the slot of each key.
Look-ups and changes go by the index and do not search the entries. The index is in step with them
if it has just their keys, each with the slot of its entry.
-/
namespace Errata

structure Slots (ι α : Type) where
  entries : List α
  index : List (ι × Nat)

namespace Slots

variable {ι α : Type}

def empty : Slots ι α := ⟨[], []⟩

instance : EmptyCollection (Slots ι α) := ⟨empty⟩

instance : Inhabited (Slots ι α) := ⟨empty⟩

variable [DecidableEq ι]

def slot? (s : Slots ι α) (k : ι) : Option Nat := s.index.lookup k

def get? (s : Slots ι α) (k : ι) : Option α := (s.slot? k).bind fun i => s.entries[i]?

/-- Changes the entry of a key in its slot. A key without one gets `fresh`, in a slot at the end. -/
def alter (s : Slots ι α) (k : ι) (change : α → α) (fresh : α) : Slots ι α :=
  match s.slot? k with
  | some i => { s with entries := s.entries.modify i change }
  | none => { entries := s.entries ++ [fresh], index := (k, s.entries.length) :: s.index }

def InStep (key : α → ι) (s : Slots ι α) : Prop :=
  ∀ k i, s.slot? k = some i ↔ s.entries[i]?.map key = some k

variable {key : α → ι} {s : Slots ι α} {k : ι} {change : α → α} {fresh : α}

theorem alter_of_some {i : Nat} (h : s.slot? k = some i) :
    s.alter k change fresh = { s with entries := s.entries.modify i change } := by
  rw [alter, h]

theorem alter_of_none (h : s.slot? k = none) :
    s.alter k change fresh =
      { entries := s.entries ++ [fresh], index := (k, s.entries.length) :: s.index } := by
  rw [alter, h]

theorem slot?_cons (s : Slots ι α) (entries : List α) (n : Nat) (k' : ι) :
    slot? ⟨entries, (k, n) :: s.index⟩ k' = if k' = k then some n else s.slot? k' := by
  rw [slot?, slot?, List.lookup_cons]
  split
  · next h => rw [if_pos (by simpa using h)]
  · next h => rw [if_neg (by simpa using h)]

namespace InStep

theorem empty : InStep key (∅ : Slots ι α) := by
  intro k i
  exact iff_of_false (by rintro ⟨⟩) (by rintro ⟨⟩)

/-- A change that keeps the key of an entry keeps the index in step, and so does a new entry. -/
theorem alter (h : InStep key s) (hchange : ∀ a, key a = k → key (change a) = k)
    (hfresh : key fresh = k) : InStep key (s.alter k change fresh) := by
  intro k' j
  cases hslot : s.slot? k with
  | some i =>
    rw [alter_of_some hslot]
    refine (h k' j).trans ?_
    obtain ⟨a, ha, hkey⟩ := Option.map_eq_some_iff.1 ((h k i).1 hslot)
    simp only [List.getElem?_modify]
    by_cases hij : i = j
    · subst hij
      simp [ha, hkey, hchange a hkey]
    · simp [hij]
  | none =>
    rw [alter_of_none hslot]
    have hnew : ∀ i : Nat, s.entries[i]?.map key ≠ some k := by
      intro i hi
      rw [← h k i, hslot] at hi
      cases hi
    rw [slot?_cons]
    split
    · next hk =>
      rw [Option.some_inj]
      rcases Nat.lt_trichotomy j s.entries.length with hlt | rfl | hgt
      · rw [List.getElem?_append_left hlt]
        exact iff_of_false (Nat.ne_of_gt hlt) (hk ▸ hnew j)
      · simp [hfresh, hk]
      · rw [List.getElem?_eq_none (by simp; omega)]
        exact iff_of_false (Nat.ne_of_lt hgt) (by rintro ⟨⟩)
    · next hk =>
      rw [h k' j]
      rcases Nat.lt_trichotomy j s.entries.length with hlt | rfl | hgt
      · rw [List.getElem?_append_left hlt]
      · simp [hfresh, Ne.symm hk]
      · rw [List.getElem?_eq_none (by omega), List.getElem?_eq_none (by simp; omega)]

end InStep

end Slots

end Errata
