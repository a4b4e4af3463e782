import Errata.Proofs.Alert.Grouping
import Errata.Proofs.Alert.Payload
import Errata.Proofs.Path.Normal
import Mathlib.Data.List.Nodup

/-!
# Spellings of a file in a payload

A payload may name a file in several ways. Its keys are put into normal form, so alerts under keys
that spell one path in different ways are reported for one file, and one group holds them all.
-/
namespace Errata

namespace Group

theorem IsByFile.exists_group {vs : List Violation} {gs : List (Path × List Violation)}
    (h : IsByFile vs gs) {v : Violation} (hv : v ∈ vs) :
    ∃ g ∈ gs, (∀ w ∈ vs, w.file = v.file → w ∈ g.2) ∧
      ∀ g' ∈ gs, (∃ w ∈ g'.2, w.file = v.file) → g' = g := by
  obtain ⟨g, hg, hkey⟩ := h.complete v hv
  refine ⟨g, hg, fun w hw hfile => ?_, ?_⟩
  · rw [h.violations g hg, List.mem_filter, Path.same_iff, hfile]
    exact ⟨hw, hkey.symm⟩
  · rintro g' hg' ⟨w, hw, hfile⟩
    rw [h.violations g' hg', List.mem_filter, Path.same_iff, hfile] at hw
    have hdistinct : (gs.map (·.1.components)).Nodup := List.pairwise_map.mpr h.distinct
    exact List.inj_on_of_nodup_map hdistinct hg' hg (hw.2.symm.trans hkey.symm)

end Group

namespace Payload

open Json Errata.Path

theorem file_of_mem_ofEntry {base : Path} {key : Text} {entry : Json} {v : Violation}
    (h : v ∈ ofEntry base key entry) : v.file = normalize base ⟨key⟩ := by
  obtain ⟨a, -, hreport⟩ := List.mem_filterMap.mp h
  exact (Alert.report?_describes hreport).1

theorem mem_of_mem_ofEntry {base : Path} {members : List (Text × Json)} {vs : List Violation}
    (hvs : ofJson base (.object members) = .ok vs) {key : Text} {entry : Json}
    (hentry : field? key (.object members) = some entry) {v : Violation}
    (hv : v ∈ ofEntry base key entry) : v ∈ vs := by
  obtain rfl := Except.ok.inj hvs
  exact List.mem_flatMap.mpr ⟨(key, entry), mem_sortMembers.mpr hentry, hv⟩

/-- A normal form has no `.`, and no `..` but in front; all spellings of a path have the same one,
and it is its own: under every base if it is absolute, else under `.`. What a payload reports under
two keys that spell one path is in one group of its file, and in no other. -/
theorem normalize_canonical (base raw : Path) :
    let p := normalize base raw
    IsNormal p.isAbsolute p.components ∧
    (∀ t, SameSpelling raw.text t → normalize base ⟨t⟩ = p) ∧
    (p.isAbsolute = true → ∀ base', normalize base' p = p) ∧
    (p.isAbsolute = false → normalize ⟨['.']⟩ p = p) ∧
    ∀ members vs, ofJson base (.object members) = .ok vs → ∀ key key' entry entry',
      field? key (.object members) = some entry → field? key' (.object members) = some entry' →
      SameSpelling key key' →
        let both := ofEntry base key entry ++ ofEntry base key' entry'
        both ≠ [] → ∃ g ∈ Group.byFile vs, (∀ v ∈ both, v ∈ g.2) ∧
          ∀ g' ∈ Group.byFile vs, (∃ v ∈ both, v ∈ g'.2) → g' = g := by
  intro p
  refine ⟨isNormal_normalize base raw, fun t ht => ht.normalize_eq base,
    fun habsolute base' => normalize_normalize (.inl habsolute),
    fun _ => normalize_normalize (.inr (by decide)), ?_⟩
  intro members vs hvs key key' entry entry' hentry hentry' hspelling both hne
  have hboth : ∀ v ∈ both, v ∈ vs ∧ v.file = normalize base ⟨key⟩ := by
    intro v hv
    rcases List.mem_append.mp hv with hv | hv
    · exact ⟨mem_of_mem_ofEntry hvs hentry hv, file_of_mem_ofEntry hv⟩
    · exact ⟨mem_of_mem_ofEntry hvs hentry' hv,
        (file_of_mem_ofEntry hv).trans (hspelling.normalize_eq base)⟩
  obtain ⟨first, hfirst⟩ := List.exists_mem_of_ne_nil both hne
  obtain ⟨hmem, hfile⟩ := hboth first hfirst
  obtain ⟨g, hg, hall, hunique⟩ := (Group.isByFile_byFile vs).exists_group hmem
  refine ⟨g, hg, fun v hv => ?_, ?_⟩
  · obtain ⟨hv, hsame⟩ := hboth v hv
    exact hall v hv (hsame.trans hfile.symm)
  · rintro g' hg' ⟨v, hv, hvg⟩
    exact hunique g' hg' ⟨v, hvg, (hboth v hv).2.trans hfile.symm⟩

/-- Two keys that spell one path, by a separator more, a detour and a `.`. -/
theorem normalize_canonical_twoKeys :
    let key : Text := "guide/a.adoc"
    let key' : Text := "guide//x/.././a.adoc"
    let entry (line : ℕ) : Json := .array [.object [("Check", .string "Rules.BlockTitle"),
      ("Line", nat line), ("Column", nat 1)]]
    let members : List (Text × Json) := [(key, entry 1), (key', entry 2)]
    let both := ofEntry ⟨"docs"⟩ key (entry 1) ++ ofEntry ⟨"docs"⟩ key' (entry 2)
    SameSpelling key key' ∧ both.map (·.line) = [1, 2] ∧
      ∃ vs, ofJson ⟨"docs"⟩ (.object members) = .ok vs ∧
        ∃ g ∈ Group.byFile vs, ∀ v ∈ both, v ∈ g.2 := by
  intro key key' entry members both
  have hspelling : SameSpelling key key' :=
    .trans _ _ _ (.rel _ _ (.separator "guide" "a.adoc"))
      (.trans _ _ _
        (.rel _ _ (@Respelled.detour "guide//" "a.adoc" "x"
          (.inl (by decide)) (areNames_singleton.mpr (by decide))))
        (.rel _ _ (@Respelled.current "guide//x/../" "a.adoc" (.inl (by decide)))))
  obtain ⟨-, -, -, -, hgroup⟩ := normalize_canonical ⟨"docs"⟩ ⟨key⟩
  obtain ⟨g, hg, hboth, -⟩ :=
    hgroup members _ rfl key key' (entry 1) (entry 2) rfl rfl hspelling (by decide)
  exact ⟨hspelling, rfl, _, rfl, g, hg, hboth⟩

end Payload

end Errata
