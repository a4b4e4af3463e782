import Errata.Keyed.Slots
import Mathlib.Data.List.Nodup

/-!
# Slots as a list with different keys

An index that is in step makes no difference but in speed: a change by the index does to the entries
what a search for the key would do, and a look-up finds the one entry with the key.
-/
namespace Errata.Slots

variable {ι α : Type} [DecidableEq ι] {key : α → ι} {s : Slots ι α} {k : ι} {change : α → α}
  {fresh : α}

/-- Changes the first entry with a key, or puts one at the end. -/
def scan (key : α → ι) (k : ι) (change : α → α) (fresh : α) : List α → List α
  | [] => [fresh]
  | a :: as => if key a = k then change a :: as else a :: scan key k change fresh as

theorem scan_eq_modify {as : List α} {i : ℕ} (h : as.findIdx? (key · = k) = some i) :
    scan key k change fresh as = as.modify i change := by
  induction as generalizing i with
  | nil => simp at h
  | cons a as ih =>
    rw [List.findIdx?_cons] at h
    rw [scan]
    split
    · next hkey =>
      obtain rfl : 0 = i := by simpa [hkey] using h
      rfl
    · next hkey =>
      obtain ⟨j, hj, rfl⟩ : ∃ j, as.findIdx? (key · = k) = some j ∧ j + 1 = i := by
        simpa [hkey] using h
      rw [ih hj, List.modify_succ_cons]

theorem scan_eq_append {as : List α} (h : ∀ a ∈ as, key a ≠ k) :
    scan key k change fresh as = as ++ [fresh] := by
  induction as with
  | nil => rfl
  | cons a as ih =>
    obtain ⟨ha, has⟩ := List.forall_mem_cons.mp h
    rw [scan, if_neg ha, ih has, List.cons_append]

theorem map_key_scan (hchange : ∀ a, key a = k → key (change a) = k) (hfresh : key fresh = k)
    (as : List α) :
    (scan key k change fresh as).map key =
      if k ∈ as.map key then as.map key else as.map key ++ [k] := by
  induction as with
  | nil => simp [scan, hfresh]
  | cons a as ih =>
    rw [scan]
    split
    · next hkey => simp [hkey, hchange a hkey]
    · next hkey =>
      simp only [List.map_cons, ih, List.mem_cons, Ne.symm hkey, false_or]
      split <;> rfl

theorem mem_scan {as : List α} (h : (as.map key).Nodup) {b : α} :
    b ∈ scan key k change fresh as ↔ b ∈ as ∧ key b ≠ k ∨ (∃ a ∈ as, key a = k ∧ change a = b) ∨
      (k ∉ as.map key ∧ fresh = b) := by
  induction as with
  | nil => simp [scan, eq_comm]
  | cons a as ih =>
    obtain ⟨ha, has⟩ := List.nodup_cons.mp h
    rw [scan]
    split
    · next hkey =>
      have hother : ∀ x ∈ as, key x ≠ k := fun x hx hname =>
        ha (List.mem_map.mpr ⟨x, hx, hname.trans hkey.symm⟩)
      grind
    · next hkey => grind

namespace InStep

/-- The index has the slot where a search for the key stops. -/
theorem slot?_eq (h : InStep key s) (k : ι) : s.slot? k = s.entries.findIdx? (key · = k) := by
  cases hslot : s.slot? k with
  | none =>
    refine (List.findIdx?_eq_none_iff.mpr fun a ha => ?_).symm
    obtain ⟨i, hi⟩ := List.mem_iff_getElem?.mp ha
    have hnot := (h k i).not.mp (by simp [hslot])
    simpa [hi] using hnot
  | some i =>
    obtain ⟨a, ha, hkey⟩ := Option.map_eq_some_iff.mp ((h k i).mp hslot)
    obtain ⟨hlt, rfl⟩ := List.getElem?_eq_some_iff.mp ha
    refine (List.findIdx?_eq_some_iff_getElem.mpr ⟨hlt, by simpa using hkey, fun j hj => ?_⟩).symm
    -- an earlier entry with the key would have its slot in the index too
    intro hearlier
    have hslot' : s.slot? k = some j := by
      rw [h, List.getElem?_eq_getElem (Nat.lt_trans hj hlt), Option.map_some]
      exact congrArg some (by simpa using hearlier)
    rw [hslot] at hslot'
    exact Nat.ne_of_gt hj (Option.some.inj hslot')

theorem nodup (h : InStep key s) : (s.entries.map key).Nodup := by
  rw [List.nodup_iff_injective_getElem]
  rintro ⟨i, hi⟩ ⟨j, hj⟩ heq
  have hslot : ∀ (n : ℕ) (hn : n < (s.entries.map key).length),
      s.slot? (s.entries.map key)[n] = some n := fun n hn => by
    rw [h, ← List.getElem?_map, List.getElem?_eq_getElem hn]
  have hij := (hslot i hi).symm.trans ((congrArg s.slot? heq).trans (hslot j hj))
  exact Fin.ext (Option.some.inj hij)

theorem entries_alter (h : InStep key s) :
    (s.alter k change fresh).entries = scan key k change fresh s.entries := by
  cases hslot : s.slot? k with
  | some i =>
    rw [alter_of_some hslot, scan_eq_modify ((h.slot?_eq k).symm.trans hslot)]
  | none =>
    have hnew := List.findIdx?_eq_none_iff.mp ((h.slot?_eq k).symm.trans hslot)
    rw [alter_of_none hslot, scan_eq_append fun a ha => by simpa using hnew a ha]

theorem get?_eq_some_iff (h : InStep key s) {a : α} :
    s.get? k = some a ↔ a ∈ s.entries ∧ key a = k := by
  rw [get?, Option.bind_eq_some_iff]
  constructor
  · rintro ⟨i, hi, ha⟩
    exact ⟨List.mem_of_getElem? ha, by simpa [ha] using (h k i).mp hi⟩
  · rintro ⟨ha, rfl⟩
    obtain ⟨i, hi⟩ := List.mem_iff_getElem?.mp ha
    exact ⟨i, (h _ i).mpr (by rw [hi, Option.map_some]), hi⟩

end InStep

end Errata.Slots
