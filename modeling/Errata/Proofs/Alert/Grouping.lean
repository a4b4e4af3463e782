import Errata.Alert.Grouping
import Errata.Proofs.FirstMet
import Errata.Proofs.Keyed.Slots
import Errata.Proofs.Path.Set
import Mathlib.Data.List.Basic
import Mathlib.Data.List.Induction

/-!
# What the groups hold

Groups have different keys, none is empty, and each holds exactly the violations with its key, in
their order. The index that finds the group of a violation is in step with the groups throughout.
-/
namespace Errata.Group

/-- What is taken key by key, for different keys, is all that has one of the keys. -/
theorem flatMap_filter_perm {α κ : Type} [DecidableEq κ] {key : α → κ} {ks : List κ}
    (hks : ks.Nodup) {xs : List α} {p : α → Bool} (hp : ∀ x ∈ xs, p x ↔ key x ∈ ks) :
    (ks.flatMap fun k => xs.filter (key · = k)).Perm (xs.filter p) := by
  induction ks generalizing p with
  | nil => simpa [List.filter_eq_nil_iff] using hp
  | cons k ks ih =>
    obtain ⟨hk, hks⟩ := List.nodup_cons.mp hks
    have hfirst : (xs.filter p).filter (key · = k) = xs.filter (key · = k) := by
      rw [List.filter_filter]
      refine List.filter_congr fun x hx => ?_
      grind
    have hrest := ih hks (p := fun x => !decide (key x = k) && p x) fun x hx => by grind
    have hsplit := List.filter_append_perm (key · = k) (xs.filter p)
    rw [hfirst, List.filter_filter] at hsplit
    rw [List.flatMap_cons]
    exact (hrest.append_left _).trans hsplit

variable {κ ι : Type} [DecidableEq ι] {ident : κ → ι} {key : Violation → κ} {vs : List Violation}

/-- The violations divided up by a key. The keys are pairwise different and come in the order in
which they are first met, each group is what has its key, and the groups together are all there
is. -/
structure IsGrouping (key : Violation → ι) (keyOf : κ → ι) (vs : List Violation)
    (gs : List (κ × List Violation)) : Prop where
  keys : ListsKeys key vs (gs.map fun g => keyOf g.1)
  members : ∀ g ∈ gs, g.2 = vs.filter (key · = keyOf g.1)
  lossless : (gs.flatMap (·.2)).Perm vs

theorem slots_concat (v : Violation) :
    slots ident key (vs ++ [v]) = add ident (key v) v (slots ident key vs) := by
  simp [slots, List.foldl_append]

theorem inStep_slots (ident : κ → ι) (key : Violation → κ) (vs : List Violation) :
    (slots ident key vs).InStep fun g => ident g.1 := by
  induction vs using List.reverseRecOn with
  | nil => exact .empty
  | append_singleton vs v ih =>
    rw [slots_concat]
    exact ih.alter (fun _ hkey => hkey) rfl

/-- One more violation goes to the group of its key, as if the groups were searched for it. -/
theorem collect_concat (v : Violation) :
    collect ident key (vs ++ [v]) =
      Slots.scan (fun g => ident g.1) (ident (key v)) (fun g => (g.1, g.2 ++ [v])) (key v, [v])
        (collect ident key vs) := by
  rw [collect, slots_concat]
  exact (inStep_slots ident key vs).entries_alter

theorem listsKeys_collect (ident : κ → ι) (key : Violation → κ) (vs : List Violation) :
    ListsKeys (fun v => ident (key v)) vs ((collect ident key vs).map fun g => ident g.1) := by
  induction vs using List.reverseRecOn with
  | nil => exact .nil
  | append_singleton vs v ih =>
    rw [collect_concat, Slots.map_key_scan]
    · exact ih.concat v
    · exact fun _ hkey => hkey
    · rfl

theorem of_mem_collect {g : κ × List Violation} (hg : g ∈ collect ident key vs) :
    g.2 = vs.filter (fun v => ident (key v) = ident g.1) ∧ g.2.head?.map key = some g.1 := by
  induction vs using List.reverseRecOn generalizing g with
  | nil => cases hg
  | append_singleton vs v ih =>
    have hkeys := listsKeys_collect ident key vs
    rw [collect_concat, Slots.mem_scan hkeys.nodup] at hg
    rw [List.filter_append]
    rcases hg with ⟨hold, hne⟩ | ⟨g, hold, hkey, rfl⟩ | ⟨hnew, rfl⟩
    · simpa [Ne.symm hne] using ih hold
    · obtain ⟨hmembers, hhead⟩ := ih hold
      refine ⟨?_, ?_⟩
      · rw [hmembers]
        simp [hkey]
      · rw [List.head?_append_of_ne_nil _ fun hnil => by simp [hnil] at hhead]
        exact hhead
    · have hnone : vs.filter (fun w => ident (key w) = ident (key v)) = [] := by
        rw [List.filter_eq_nil_iff]
        exact fun w hw heq => hnew ((hkeys.mem_iff _).mpr ⟨w, hw, by simpa using heq⟩)
      simp [hnone]

theorem flatMap_scan_perm {k : ι} {x : κ} {v : Violation} (gs : List (κ × List Violation)) :
    ((Slots.scan (fun g => ident g.1) k (fun g => (g.1, g.2 ++ [v])) (x, [v]) gs).flatMap
      (·.2)).Perm (gs.flatMap (·.2) ++ [v]) := by
  induction gs with
  | nil => exact .refl _
  | cons g gs ih =>
    rw [Slots.scan]
    split
    · rw [List.flatMap_cons, List.flatMap_cons, List.append_assoc, List.append_assoc]
      exact List.perm_append_comm.append_left _
    · rw [List.flatMap_cons, List.flatMap_cons, List.append_assoc]
      exact ih.append_left _

theorem flatMap_collect_perm (ident : κ → ι) (key : Violation → κ) (vs : List Violation) :
    ((collect ident key vs).flatMap (·.2)).Perm vs := by
  induction vs using List.reverseRecOn with
  | nil => exact .refl _
  | append_singleton vs v ih =>
    rw [collect_concat]
    exact (flatMap_scan_perm _).trans (ih.append_right [v])

theorem isGrouping_collect (ident : κ → ι) (key : Violation → κ) (vs : List Violation) :
    IsGrouping (fun v => ident (key v)) ident vs (collect ident key vs) where
  keys := listsKeys_collect ident key vs
  members _ hg := (of_mem_collect hg).1
  lossless := flatMap_collect_perm ident key vs

theorem isGrouping_byFile (vs : List Violation) :
    IsGrouping (·.file.components) Path.components vs (byFile vs) :=
  isGrouping_collect Path.components (·.file) vs

theorem isGrouping_byRule (vs : List Violation) : IsGrouping (·.ruleName) id vs (byRule vs) :=
  isGrouping_collect id (·.ruleName) vs

/-- The groups by file: no file has two, and each is under a spelling of its file that a violation
has and holds all the violations of the file. -/
structure IsByFile (vs : List Violation) (gs : List (Path × List Violation)) : Prop where
  distinct : gs.Pairwise fun g h => g.1.components ≠ h.1.components
  violations : ∀ g ∈ gs, g.2 = vs.filter (·.file.same g.1)
  named : ∀ g ∈ gs, ∃ v ∈ vs, v.file = g.1
  complete : ∀ v ∈ vs, ∃ g ∈ gs, g.1.components = v.file.components

theorem isByFile_byFile (vs : List Violation) : IsByFile vs (byFile vs) := by
  obtain ⟨hkeys, hmembers, -⟩ := isGrouping_byFile vs
  constructor
  case distinct => exact List.pairwise_map.mp hkeys.nodup
  case violations =>
    intro g hg
    rw [hmembers g hg]
    refine List.filter_congr fun v _ => ?_
    rw [Bool.eq_iff_iff, decide_eq_true_eq, Path.same_iff]
  case named =>
    intro g hg
    obtain ⟨hgroup, hhead⟩ := of_mem_collect hg
    obtain ⟨v, hv, hfile⟩ := Option.map_eq_some_iff.mp hhead
    rw [hgroup] at hv
    exact ⟨v, List.mem_of_mem_filter (List.mem_of_head? hv), hfile⟩
  case complete =>
    intro v hv
    obtain ⟨g, hg, hcs⟩ := List.mem_map.mp ((hkeys.mem_iff _).mpr ⟨v, hv, rfl⟩)
    exact ⟨g, hg, hcs⟩

end Errata.Group
