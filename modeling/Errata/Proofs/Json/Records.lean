import Errata.Json.Record
import Errata.Proofs.Json.Spelling

/-!
# Records are read as they are written

A record whose fields have different names is read back field by field: one that was left out is
absent, and one that was written is there, whatever its value.
-/
namespace Errata.Json

variable {α : Type}

theorem nat?_nat {n : ℕ} (h : n < UInt64.size) : nat? (nat n) = some n := by
  simp [nat?, nat, h]

theorem required_some (read : Json → Option α) (j : Json) : required read (some j) = read j := rfl

theorem optional_map {write : α → Json} {read : Json → Option α} {field : Option α}
    (h : ∀ x ∈ field, read (write x) = some x ∧ write x ≠ .null) :
    optional read (field.map write) = some field := by
  cases field with
  | none => rfl
  | some x =>
    obtain ⟨hread, hnull⟩ := h x rfl
    rw [Option.map_some, optional, hread, Option.map_some]
    exact hnull

theorem list?_map {write : α → Json} {read : Json → Option α} {xs : List α}
    (h : ∀ x ∈ xs, read (write x) = some x) : list? read (.array (xs.map write)) = some xs := by
  rw [list?]
  induction xs with
  | nil => rfl
  | cons x xs ih =>
    obtain ⟨hx, hxs⟩ := List.forall_mem_cons.mp h
    simp [hx, ih hxs]

/-- The members of a record under the name of a field: the one with its value, if it has one. -/
theorem filter_record {fields : List (Text × Option Json)} (h : (fields.map (·.1)).Nodup)
    {f : Text × Option Json} (hf : f ∈ fields) :
    (fields.filterMap fun g => g.2.map fun j => (g.1, j)).filter (·.1 == f.1) =
      (f.2.map fun j => (f.1, j)).toList := by
  have hnone : ∀ gs : List (Text × Option Json), f.1 ∉ gs.map (·.1) →
      (gs.filterMap fun g => g.2.map fun j => (g.1, j)).filter (·.1 == f.1) = [] := by
    intro gs hgs
    refine List.filter_eq_nil_iff.mpr fun m hm heq => hgs ?_
    obtain ⟨g, hg, hvalue⟩ := List.mem_filterMap.mp hm
    obtain ⟨j, -, rfl⟩ := Option.map_eq_some_iff.mp hvalue
    exact List.mem_map.mpr ⟨g, hg, eq_of_beq heq⟩
  induction fields with
  | nil => cases hf
  | cons g gs ih =>
    obtain ⟨hg, hgs⟩ := List.nodup_cons.mp h
    rcases List.mem_cons.mp hf with rfl | hf
    · have hrest := hnone gs hg
      cases hvalue : f.2 with
      | none => simpa [hvalue] using hrest
      | some j => simpa [hvalue] using hrest
    · have hne : g.1 ≠ f.1 := by
        intro heq
        exact hg (List.mem_map.mpr ⟨f, hf, heq.symm⟩)
      have hrest := ih hgs hf
      cases hvalue : g.2 with
      | none => simpa [hvalue] using hrest
      | some j => simpa [hvalue, hne] using hrest

theorem fields?_record {names : List Text} {fields : List (Text × Option Json)}
    (hnames : fields.map (·.1) = names) (h : names.Nodup) :
    fields? names (record fields) = some (fields.map (·.2)) := by
  subst hnames
  have hmembers := fun f hf => filter_record h (f := f) hf
  have hsingle : (fields.map (·.1)).all fun name =>
      ((fields.filterMap fun g => g.2.map fun j => (g.1, j)).filter fun m => m.1 == name).length
        ≤ 1 := by
    simp only [List.all_map, List.all_eq_true, Function.comp_apply, decide_eq_true_eq]
    intro f hf
    rw [hmembers f hf]
    cases f.2 <;> simp
  rw [record, fields?, if_pos hsingle, List.map_map]
  refine congrArg some (List.map_congr_left fun f hf => ?_)
  rw [Function.comp_apply, ← List.head?_filter, hmembers f hf]
  cases f.2 <;> rfl

theorem writable_record {depth : ℕ} {fields : List (Text × Option Json)}
    (h : ∀ f ∈ fields, ∀ j ∈ f.2, Writable depth j) : Writable (depth + 1) (record fields) := by
  refine .object fun m hm => ?_
  obtain ⟨f, hf, hvalue⟩ := List.mem_filterMap.mp hm
  obtain ⟨j, hj, rfl⟩ := Option.map_eq_some_iff.mp hvalue
  exact h f hf j hj

theorem writable_list {depth : ℕ} {write : α → Json} {xs : List α}
    (h : ∀ x ∈ xs, Writable depth (write x)) : Writable (depth + 1) (.array (xs.map write)) := by
  refine .array fun j hj => ?_
  obtain ⟨x, hx, rfl⟩ := List.mem_map.mp hj
  exact h x hx

end Errata.Json
