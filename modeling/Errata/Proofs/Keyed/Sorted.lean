import Errata.Keyed.Sorted
import Mathlib.Algebra.GroupWithZero.Nat
import Mathlib.Data.List.Basic
import Mathlib.Data.List.Induction
import Mathlib.Order.Defs.Unbundled

/-!
# What is gathered by key

Entries that are gathered stay sorted, and under a key stands what the elements with that key amount
to, one after the other. Counts add up to the number of elements, and members to the elements.
-/
namespace Errata.Sorted

variable {κ α β : Type} [LT κ] [IsStrictTotalOrder κ (· < ·)] {entries : List (κ × α)} {k k' : κ}

theorem eq_of_not_lt (hab : ¬k < k') (hba : ¬k' < k) : k = k' :=
  Std.Trichotomous.trichotomous (r := (· < ·)) k k' hab hba

omit [IsStrictTotalOrder κ (· < ·)] in
/-- Entries with different keys, by key. -/
def IsSorted (entries : List (κ × α)) : Prop := entries.Pairwise fun a b => a.1 < b.1

variable [DecidableEq κ]

omit [LT κ] [IsStrictTotalOrder κ (· < ·)] in
theorem lookup_cons (e : κ × α) :
    (e :: entries).lookup k = if k = e.1 then some e.2 else entries.lookup k := by
  rw [List.lookup_cons]
  split
  · next h => rw [if_pos (by simpa using h)]
  · next h => rw [if_neg (by simpa using h)]

theorem lookup_of_lt (h : ∀ e ∈ entries, k < e.1) : entries.lookup k = none := by
  induction entries with
  | nil => rfl
  | cons e es ih =>
    obtain ⟨he, hes⟩ := List.forall_mem_cons.mp h
    have hne : k ≠ e.1 := by
      intro heq
      exact irrefl _ (heq ▸ he)
    rw [lookup_cons, if_neg hne, ih hes]

theorem lookup_eq_some_iff (h : IsSorted entries) {a : α} :
    entries.lookup k = some a ↔ (k, a) ∈ entries := by
  induction entries with
  | nil => simp
  | cons e es ih =>
    obtain ⟨he, hes⟩ := List.pairwise_cons.mp h
    rw [lookup_cons, List.mem_cons]
    split
    · next hk =>
      subst hk
      have hnew : (e.1, a) ∉ es := fun hmem => irrefl e.1 (he (e.1, a) hmem)
      rw [or_iff_left hnew, Option.some_inj, Prod.ext_iff]
      simp [eq_comm]
    · next hk =>
      rw [ih hes, Prod.ext_iff]
      simp [hk]

variable [DecidableLT κ] {change : Option α → α}

theorem mem_keys_alter :
    k' ∈ (alter k change entries).map (·.1) ↔ k' ∈ entries.map (·.1) ∨ k' = k := by
  induction entries with
  | nil => simp [alter]
  | cons e es ih =>
    rw [alter]
    split
    · simp only [List.map_cons, List.mem_cons]
      tauto
    · split
      · simp only [List.map_cons, List.mem_cons, ih, or_assoc]
      · next hle hge =>
        simp only [List.map_cons, List.mem_cons, eq_of_not_lt hle hge]
        tauto

theorem isSorted_alter (h : IsSorted entries) : IsSorted (alter k change entries) := by
  induction entries with
  | nil => simp [alter, IsSorted]
  | cons e es ih =>
    obtain ⟨he, hes⟩ := List.pairwise_cons.mp h
    rw [alter]
    split
    · next hlt =>
      refine List.pairwise_cons.mpr ⟨fun x hx => ?_, h⟩
      rcases List.mem_cons.mp hx with rfl | hx
      · exact hlt
      · exact IsTrans.trans _ _ _ hlt (he x hx)
    · split
      · next hlt =>
        refine List.pairwise_cons.mpr ⟨fun x hx => ?_, ih hes⟩
        rcases mem_keys_alter.mp (List.mem_map_of_mem hx) with hold | hnew
        · obtain ⟨y, hy, heq⟩ := List.mem_map.mp hold
          exact heq ▸ he y hy
        · exact hnew ▸ hlt
      · exact List.pairwise_cons.mpr ⟨he, hes⟩

theorem lookup_alter (h : IsSorted entries) :
    (alter k change entries).lookup k' =
      if k' = k then some (change (entries.lookup k)) else entries.lookup k' := by
  induction entries with
  | nil => simp [alter, lookup_cons]
  | cons e es ih =>
    obtain ⟨he, hes⟩ := List.pairwise_cons.mp h
    rw [alter]
    split
    · next hlt =>
      have hnone : (e :: es).lookup k = none := lookup_of_lt fun x hx => by
        rcases List.mem_cons.mp hx with rfl | hx
        · exact hlt
        · exact IsTrans.trans _ _ _ hlt (he x hx)
      rw [hnone, lookup_cons]
    · split
      · next hlt =>
        have hne : k ≠ e.1 := by
          intro heq
          exact irrefl _ (heq ▸ hlt)
        rw [lookup_cons, ih hes, lookup_cons, lookup_cons, if_neg hne]
        by_cases hk : k' = k <;> simp [hk, hne]
      · next hle hge =>
        obtain rfl := eq_of_not_lt hle hge
        rw [lookup_cons, lookup_cons, lookup_cons, if_pos rfl]
        by_cases hk : k' = e.1 <;> simp [hk]

variable {key : β → κ} {f : β → Option α → α} {xs : List β}

omit [IsStrictTotalOrder κ (· < ·)] [DecidableEq κ] in
theorem gather_concat (x : β) :
    gather key f (xs ++ [x]) = alter (key x) (f x) (gather key f xs) := by
  simp [gather, List.foldl_append]

theorem isSorted_gather (key : β → κ) (f : β → Option α → α) (xs : List β) :
    IsSorted (gather key f xs) := by
  induction xs using List.reverseRecOn with
  | nil => exact .nil
  | append_singleton xs x ih =>
    rw [gather_concat]
    exact isSorted_alter ih

theorem lookup_gather (k : κ) :
    (gather key f xs).lookup k =
      (xs.filter (key · = k)).foldl (fun entry x => some (f x entry)) none := by
  induction xs using List.reverseRecOn with
  | nil => rfl
  | append_singleton xs x ih =>
    rw [gather_concat, lookup_alter (isSorted_gather key f xs), List.filter_append,
      List.foldl_append]
    split
    · next hk => simp [← hk, ih]
    · next hk => simp [Ne.symm hk, ih]

theorem mem_gather {a : α} :
    (k, a) ∈ gather key f xs ↔
      (xs.filter (key · = k)).foldl (fun entry x => some (f x entry)) none = some a := by
  rw [← lookup_eq_some_iff (isSorted_gather key f xs), lookup_gather]

/-- A count starts at the first element, so none is zero. -/
theorem mem_countBy {n : ℕ} :
    (k, n) ∈ countBy key xs ↔ n ≠ 0 ∧ n = (xs.filter (key · = k)).length := by
  have hcount : ∀ ys : List β, ys.foldl (fun n _ => some (n.getD 0 + 1)) none =
      if ys.length = 0 then none else some ys.length := by
    intro ys
    induction ys using List.reverseRecOn with
    | nil => rfl
    | append_singleton ys y ih =>
      rw [List.foldl_append, ih]
      split <;> simp_all
  rw [countBy, mem_gather, hcount]
  split <;> simp_all [eq_comm]

omit [IsStrictTotalOrder κ (· < ·)] [DecidableEq κ] in
theorem sum_countBy (key : β → κ) (xs : List β) : ((countBy key xs).map (·.2)).sum = xs.length := by
  have hstep : ∀ (k : κ) (counts : List (κ × ℕ)),
      ((alter k (fun n => n.getD 0 + 1) counts).map (·.2)).sum = (counts.map (·.2)).sum + 1 := by
    intro k counts
    induction counts with
    | nil => rfl
    | cons c cs ih =>
      rw [alter]
      split_ifs <;> simp_all <;> omega
  induction xs using List.reverseRecOn with
  | nil => rfl
  | append_singleton xs x ih =>
    rw [countBy, gather_concat, hstep, List.length_append]
    exact congrArg (· + 1) ih

variable {γ : Type} {item : β → γ}

theorem mem_collectBy {items : List γ} :
    (k, items) ∈ collectBy key item xs ↔
      items ≠ [] ∧ items = (xs.filter (key · = k)).map item := by
  have hmembers : ∀ ys : List β, ys.foldl (fun items y => some (items.getD [] ++ [item y])) none =
      if ys = [] then none else some (ys.map item) := by
    intro ys
    induction ys using List.reverseRecOn with
    | nil => rfl
    | append_singleton ys y ih =>
      rw [List.foldl_append, ih]
      split <;> simp_all
  rw [collectBy, mem_gather, hmembers]
  split
  · next hnil => simp [hnil]
  · next hne =>
    rw [Option.some_inj]
    constructor
    · rintro rfl
      exact ⟨by simpa using hne, rfl⟩
    · rintro ⟨-, rfl⟩
      rfl

omit [IsStrictTotalOrder κ (· < ·)] [DecidableEq κ] in
theorem flatMap_collectBy (key : β → κ) (item : β → γ) (xs : List β) :
    ((collectBy key item xs).flatMap (·.2)).Perm (xs.map item) := by
  have hstep : ∀ (k : κ) (y : γ) (entries : List (κ × List γ)),
      ((alter k (fun items => items.getD [] ++ [y]) entries).flatMap (·.2)).Perm
        (entries.flatMap (·.2) ++ [y]) := by
    intro k y entries
    induction entries with
    | nil => exact .refl _
    | cons e es ih =>
      rw [alter]
      split
      · exact @List.perm_append_comm _ [y] _
      · split
        · rw [List.flatMap_cons, List.flatMap_cons, List.append_assoc]
          exact ih.append_left _
        · rw [List.flatMap_cons, List.flatMap_cons, Option.getD_some, List.append_assoc,
            List.append_assoc]
          exact List.perm_append_comm.append_left _
  induction xs using List.reverseRecOn with
  | nil => exact .refl _
  | append_singleton xs x ih =>
    rw [collectBy, gather_concat, List.map_append]
    exact (hstep _ _ _).trans (ih.append_right _)

end Errata.Sorted
