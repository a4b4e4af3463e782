import Errata.Proofs.Instant
import Errata.Proofs.Json.Records
import Errata.Proofs.Path.Set
import Errata.Wire.Report

/-!
# Results survive the wire

Violations, placements, fixes and reports are read back as they were written, from their JSON and
from both of its texts, and are then written the same again. A text carries a confidence as far as
its numeral does.
-/
namespace Errata

open Json

structure Violation.Fits (v : Violation) : Prop where
  line : v.line < UInt64.size
  column : v.column < UInt64.size

def Placement.Fits (p : Placement) : Prop := ∀ line ∈ p.line?, line < UInt64.size

structure Fix.Fits (f : Fix) : Prop where
  violation : f.violation.Fits
  placement : f.placement.Fits
  confidence : f.confidence.isFinite

structure Report.Fits (r : Report) : Prop where
  violations : ∀ v ∈ r.violations, v.Fits
  fixes : ∀ f ∈ r.fixes, f.Fits

theorem Path.ofJson?_toJson (p : Path) : ofJson? p.toJson = some p := rfl

theorem Severity.ofJson?_toJson (s : Severity) : ofJson? s.toJson = some s := by
  cases s <;> rfl

theorem Determinism.ofJson?_toJson (d : Determinism) : ofJson? d.toJson = some d := by
  cases d <;> rfl

theorem Instant.ofJson?_toJson (t : Instant) : ofJson? t.toJson = some t := by
  rw [ofJson?, toJson, text?, Option.bind_some, read?_text]

namespace Path

theorem place_of_forall_lt {p : Path} {ps : List Path} (h : ∀ q ∈ ps, q.key < p.key) :
    place p ps = ps ++ [p] := by
  induction ps with
  | nil => rfl
  | cons q qs ih =>
    obtain ⟨hq, hqs⟩ := List.forall_mem_cons.mp h
    rw [place, if_neg fun hp => List.lt_irrefl _ (List.lt_trans hp hq), if_pos hq, ih hqs]
    rfl

end Path

namespace PathSet

theorem ofList_toList (s : PathSet) : ofList s.toList = s := by
  have hgrow : ∀ (t : PathSet) (ps : List Path),
      (t.toList ++ ps).Pairwise (fun a b => a.key < b.key) →
        (ps.foldl insert t).toList = t.toList ++ ps := by
    intro t ps hsorted
    induction ps generalizing t with
    | nil => simp
    | cons p ps ih =>
      have hlast : ∀ q ∈ t.toList, q.key < p.key :=
        fun q hq => (List.pairwise_append.mp hsorted).2.2 q hq p List.mem_cons_self
      have hinsert : (t.insert p).toList = t.toList ++ [p] := Path.place_of_forall_lt hlast
      rw [List.foldl_cons, ih (t.insert p) (by simpa [hinsert] using hsorted), hinsert]
      simp
  exact eq_of_perm (.of_eq (hgrow ∅ s.toList s.sorted))

theorem ofJson?_toJson (s : PathSet) : ofJson? s.toJson = some s := by
  rw [ofJson?, toJson, list?_map fun p _ => Path.ofJson?_toJson p, Option.map_some, ofList_toList]

end PathSet

theorem optional_string (t : Option Text) : optional text? (t.map .string) = some t :=
  optional_map fun _ _ => ⟨rfl, nofun⟩

theorem Violation.ofJson?_toJson {v : Violation} (h : v.Fits) : ofJson? v.toJson = some v := by
  rw [ofJson?, toJson, fields?_record]
  · simp only [List.map_cons, List.map_nil, Option.bind_eq_bind, Option.bind_some, required_some,
      Path.ofJson?_toJson, Severity.ofJson?_toJson, nat?_nat h.line, nat?_nat h.column,
      optional_string, text?]
  · rfl
  · decide

namespace Placement

theorem ofTag?_tag (p : Placement) : ofTag? p.tag p.line? (some ()) = some p := by
  cases p <;> rfl

theorem ofJson?_object {members : List (Text × Json)} {tag : Text} {line : Option Json}
    (hsound : haveSound members)
    (htag : members.filter (·.1 == ("type" : Text)) = [(("type" : Text), .string tag)])
    (hline : members.filter (·.1 == ("line" : Text)) =
      (line.map fun j => (("line" : Text), j)).toList) :
    ofJson? (.object members) = ofTag? tag (line.bind nat?) (some ()) := by
  simp only [ofJson?, hsound, htag, hline]
  cases line <;> rfl

theorem ofJson?_toJson {p : Placement} (h : p.Fits) : ofJson? p.toJson = some p := by
  let fields : List (Text × Option Json) :=
    [("type", some (.string p.tag)), ("line", p.line?.map nat)]
  have hnames : (fields.map (·.1)).Nodup := by
    change List.Nodup (["type", "line"] : List Text)
    decide
  have htag := filter_record hnames (f := ("type", some (.string p.tag))) (by simp [fields])
  have hline := filter_record hnames (f := ("line", p.line?.map nat)) (by simp [fields])
  have hsound : haveSound (fields.filterMap fun g => g.2.map fun j => (g.1, j)) := by
    cases hl : p.line? <;> simp [fields, hl] <;> rfl
  have hread : (p.line?.map nat).bind nat? = p.line? := by
    cases hl : p.line? with
    | none => rfl
    | some line =>
      have hlt : line < UInt64.size := h line hl
      exact nat?_nat hlt
  calc ofJson? p.toJson = ofTag? p.tag ((p.line?.map nat).bind nat?) (some ()) :=
        ofJson?_object hsound htag hline
    _ = some p := by rw [hread, ofTag?_tag]

end Placement

theorem Fix.ofJson?_toJson {f : Fix} (h : f.Fits) : ofJson? f.toJson = some f := by
  rw [ofJson?, toJson, fields?_record]
  · simp only [List.map_cons, List.map_nil, Option.bind_eq_bind, Option.bind_some, required_some,
      Violation.ofJson?_toJson h.violation, Placement.ofJson?_toJson h.placement,
      Determinism.ofJson?_toJson, optional_string, text?, bool?, double?]
  · rfl
  · decide

theorem Report.ofJson?_toJson {r : Report} (h : r.Fits) : ofJson? r.toJson = some r := by
  have hviolations : list? Violation.ofJson? (.array (r.violations.map Violation.toJson)) =
      some r.violations := list?_map fun v hv => Violation.ofJson?_toJson (h.violations v hv)
  have happlied : list? Fix.ofJson? (.array (r.applied.map Fix.toJson)) = some r.applied :=
    list?_map fun f hf => Fix.ofJson?_toJson (h.fixes f (List.mem_append_left _ hf))
  have hskipped : list? Fix.ofJson? (.array (r.skipped.map Fix.toJson)) = some r.skipped :=
    list?_map fun f hf => Fix.ofJson?_toJson (h.fixes f (List.mem_append_right _ hf))
  have herrors : list? text? (.array (r.errors.map .string)) = some r.errors :=
    list?_map fun _ _ => rfl
  have hbackup : optional Path.ofJson? (r.backupDir.map Path.toJson) = some r.backupDir :=
    optional_map fun p _ => ⟨p.ofJson?_toJson, nofun⟩
  have hended : optional Instant.ofJson? (r.endedAt.map Instant.toJson) = some r.endedAt :=
    optional_map fun t _ => ⟨t.ofJson?_toJson, nofun⟩
  rw [ofJson?, toJson, fields?_record]
  · simp only [List.map_cons, List.map_nil, Option.bind_eq_bind, Option.bind_some, required_some,
      defaulting, hviolations, happlied, hskipped, herrors, hbackup, hended,
      PathSet.ofJson?_toJson, Instant.ofJson?_toJson, text?, bool?]
  · rfl
  · decide

theorem Violation.writable {v : Violation} (h : v.Fits) : Writable 1 v.toJson := by
  have hline : Writable 0 (nat v.line) := .natural 0 h.line
  have hcolumn : Writable 0 (nat v.column) := .natural 0 h.column
  refine writable_record ?_
  simp [hline, hcolumn, Path.toJson, Severity.toJson, Writable.string]

theorem Placement.writable {p : Placement} (h : p.Fits) : Writable 1 p.toJson := by
  have hline : ∀ line, p.line? = some line → Writable 0 (nat line) :=
    fun line hl => .natural 0 (h line hl)
  refine writable_record ?_
  simpa [Writable.string] using hline

theorem Fix.writable {f : Fix} (h : f.Fits) (hcarried : IsCarried f.confidence) :
    Writable 2 f.toJson := by
  refine writable_record ?_
  simp [Violation.writable h.violation, Placement.writable h.placement, Determinism.toJson,
    Writable.double 1 hcarried, Writable.string, Writable.bool]

theorem Report.writable {r : Report} (h : r.Fits)
    (hcarried : ∀ f ∈ r.fixes, IsCarried f.confidence) : Writable 4 r.toJson := by
  have hviolations : Writable 3 (.array (r.violations.map Violation.toJson)) :=
    writable_list fun v hv => (Violation.writable (h.violations v hv)).mono (by decide)
  have hfixes : ∀ fs ⊆ r.fixes, Writable 3 (.array (fs.map Fix.toJson)) := fun fs hfs =>
    writable_list fun f hf => Fix.writable (h.fixes f (hfs hf)) (hcarried f (hfs hf))
  have happlied := hfixes r.applied (List.subset_append_left _ _)
  have hskipped := hfixes r.skipped (List.subset_append_right _ _)
  have hpaths : ∀ s : PathSet, Writable 3 s.toJson := fun s =>
    writable_list fun p _ => .string 2 p.text
  have herrors : Writable 3 (.array (r.errors.map .string)) :=
    writable_list fun t _ => .string 2 t
  refine writable_record ?_
  simp [hviolations, happlied, hskipped, hpaths, herrors, Path.toJson, Instant.toJson,
    Writable.string, Writable.bool]

section Survives

variable {α β : Type}

/-- A value is decoded from what it is encoded as, and then encoded as that again. -/
structure Survives (encode : α → β) (decode : β → Option α) (x : α) : Prop where
  decoded : decode (encode x) = some x
  encoded : (decode (encode x)).map encode = some (encode x)

theorem Survives.of_decoded {encode : α → β} {decode : β → Option α} {x : α}
    (h : decode (encode x) = some x) : Survives encode decode x :=
  ⟨h, by rw [h, Option.map_some]⟩

/-- A value survives on one line and on many, even where only what is read has to be sound. -/
def SurvivesText (toJson : α → Json) (ofJson? : Json → Option α) (x : α) : Prop :=
  ∀ write ∈ [compact, pretty], ∀ read ∈ [scan?, read?],
    Survives (fun y => write (toJson y)) (fun s => (read s).bind ofJson?) x

theorem survivesText_of_writable {toJson : α → Json} {ofJson? : Json → Option α} {x : α} {depth : ℕ}
    (h : Writable depth (toJson x)) (hdepth : depth ≤ 127) (hread : ofJson? (toJson x) = some x) :
    SurvivesText toJson ofJson? x := by
  intro write hwrite read hmem
  obtain ⟨hscan, hsound⟩ := read?_written (h.mono hdepth) write hwrite
  have hjson : read (write (toJson x)) = some (toJson x) := by
    rcases List.mem_cons.mp hmem with rfl | hmem
    · exact hscan
    · rwa [List.mem_singleton.mp hmem]
  refine .of_decoded ?_
  rw [hjson, Option.bind_some, hread]

end Survives

/-- Violations, placements, fixes and reports survive the wire: absent fields stay absent, texts
stay even if they are empty, a placement keeps its line and a set its spellings. In a text a
confidence is what its numeral is read as. -/
theorem survives_wire :
    (∀ v : Violation, v.Fits → Survives Violation.toJson Violation.ofJson? v ∧
      SurvivesText Violation.toJson Violation.ofJson? v) ∧
    (∀ p : Placement, p.Fits → Survives Placement.toJson Placement.ofJson? p ∧
      SurvivesText Placement.toJson Placement.ofJson? p) ∧
    (∀ f : Fix, f.Fits → Survives Fix.toJson Fix.ofJson? f ∧
      (IsCarried f.confidence → SurvivesText Fix.toJson Fix.ofJson? f)) ∧
    (∀ r : Report, r.Fits → Survives Report.toJson Report.ofJson? r ∧
      ((∀ f ∈ r.fixes, IsCarried f.confidence) →
        SurvivesText Report.toJson Report.ofJson? r)) := by
  refine ⟨fun v h => ?_, fun p h => ?_, fun f h => ?_, fun r h => ?_⟩
  · have hread := Violation.ofJson?_toJson h
    exact ⟨.of_decoded hread, survivesText_of_writable (Violation.writable h) (by decide) hread⟩
  · have hread := Placement.ofJson?_toJson h
    exact ⟨.of_decoded hread, survivesText_of_writable (Placement.writable h) (by decide) hread⟩
  · have hread := Fix.ofJson?_toJson h
    exact ⟨.of_decoded hread, fun hcarried =>
      survivesText_of_writable (Fix.writable h hcarried) (by decide) hread⟩
  · have hread := Report.ofJson?_toJson h
    exact ⟨.of_decoded hread, fun hcarried =>
      survivesText_of_writable (Report.writable h hcarried) (by decide) hread⟩

/-- A report with a text that is empty, one that is absent and one that needs escapes, a placement
with its line, two spellings in path order, and an instant in a leap second. -/
theorem survives_wire_interrupted :
    let v : Violation := {
      file := ⟨"./a.adoc"⟩
      ruleName := "ContentType"
      line := 3
      column := 18446744073709551615
      message := "no \"type\"\tin\n\u0001"
      severity := .warning
      originalText := []
      suggestedText := some []
      checkId := "Docs.ContentType"
      link := none }
    let f : Fix := {
      violation := v
      replacement := ":_mod-docs-content-type: CONCEPT"
      confidence := 0.9
      requiresReview := false
      description := some []
      target := none
      placement := .replaceLine 2
      determinism := .partially }
    let r : Report := {
      schema := "docfix.result.v1"
      violations := [v]
      applied := [f]
      skipped := []
      processed := PathSet.ofList [⟨"b.adoc"⟩, ⟨"./a.adoc"⟩]
      modified := PathSet.ofList [⟨"./a.adoc"⟩]
      errors := ["c.adoc: not found"]
      interrupted := true
      backupDir := none
      startedAt := ⟨2016, 12, 31, 23, 59, 60, 1, by decide, by decide⟩
      endedAt := some ⟨2017, 1, 1, 0, 0, 0, 0, by decide, by decide⟩ }
    compact f.placement.toJson = "\x7b\"type\":\"replace_line\",\"line\":2\x7d" ∧
      SurvivesText Violation.toJson Violation.ofJson? v ∧
      SurvivesText Placement.toJson Placement.ofJson? f.placement ∧
      SurvivesText Fix.toJson Fix.ofJson? f ∧ SurvivesText Report.toJson Report.ofJson? r := by
  intro v f r
  have hv : v.Fits := ⟨by decide, by decide⟩
  have hp : f.placement.Fits := by
    intro line hline
    obtain rfl := Option.some.inj hline
    decide
  have hf : f.Fits := ⟨hv, hp, by decide +kernel⟩
  have hr : r.Fits := ⟨by simpa [r] using hv, by simpa [r, Report.fixes] using hf⟩
  have hnine : Text.IsNumeral ['9'] := ⟨nofun, List.forall_mem_singleton.mpr rfl⟩
  have hcarried : IsCarried 0.9 :=
    isCarried_of_decimal (d := '0') rfl hnine (by decide +kernel) (by decide +kernel)
  obtain ⟨hviolations, hplacements, hfixes, hreports⟩ := survives_wire
  refine ⟨by decide +kernel, (hviolations v hv).2, (hplacements f.placement hp).2,
    (hfixes f hf).2 hcarried, (hreports r hr).2 ?_⟩
  simpa [r, Report.fixes, f] using hcarried

end Errata
