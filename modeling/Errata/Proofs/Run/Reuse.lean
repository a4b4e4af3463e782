import Errata.Proofs.Edit.Untouched
import Errata.Proofs.Run.Independence
import Errata.Rule.Annotation

/-!
# Runs that follow each other

The cache of a session outlives its runs. A later run that changes a file makes its fixes in the
text that the session has first read there, and writes what comes of that over whatever an earlier
run has written. So the work of an earlier run is kept by runs that leave the file alone, and by
runs that change a file which the earlier one has not.
-/
namespace Errata

open FileTree

/-- A run has written the file at `p`. It has made the fixes planned for the document that the
session has there; that one was known before the run, or it is what the file held. -/
structure Session.Rewrites (s : Session) (tree : FileTree) (q : Request)
    (out : Report × Session × FileTree) (p : Path) (d : Document) (o : Edit.Outcome) : Prop where
  known : out.2.1.cache.get? p = some d
  source : s.cache.get? p = some d ∨
    s.cache.get? p = none ∧ d.Decodes (tree.fileAt? (locate tree.current p))
  outcome : o = Edit.apply d.text
    (planned (Planner.new s.registry q.selected) out.1.violations out.2.1.cache p)
  changed : o.content ≠ d.text
  encodes : (d.encoding.encode? o.content).isSome
  written : out.2.2.fileAt? (locate tree.current p) = d.encoding.encode? o.content

/-- A run has left the file at `p` as it was, or it has made its fixes in the text that the file
held, and the lines that they leave alone still stand. -/
def Session.KeepsUpdate (s : Session) (tree : FileTree) (q : Request)
    (out : Report × Session × FileTree) (p : Path) : Prop :=
  let held := tree.fileAt? (locate tree.current p)
  p ∉ out.1.modified.toList ∧ out.2.2.fileAt? (locate tree.current p) = held ∨
    ∃ d o, s.Rewrites tree q out p d o ∧ d.Decodes held ∧ o.KeepsLines d.text

namespace Crew

variable {planner : Planner} {dryRun : Bool} {vs : List Violation} {c : Crew} {w : Work} {p : Path}
  (h : Staffed planner dryRun (Session.units vs) c) (ha : Accounted w c.work c.journal)
  (hown : Journal.OnlyOwn w.tree.current c.journal p)

include h ha hown

theorem source_of_known {d : Document} (hd : c.work.cache.get? p = some d) :
    w.cache.get? p = some d ∨
      w.cache.get? p = none ∧ d.Decodes (w.tree.fileAt? (locate w.tree.current p)) := by
  cases hw : w.cache.get? p with
  | some d' => exact .inl ((ha.cache p d' hw).symm.trans hd)
  | none =>
    obtain ⟨r, e, hread, hsame⟩ : ∃ r e, (r, .read e) ∈ c.journal ∧ r.same p := by
      by_contra hnone
      push Not at hnone
      have hkept := congrFun (congrArg Scene.documents ha.scene) p
      rw [Journal.documents_replay w.tree.current fun x hx e he => hnone x.1 e (he ▸ hx)] at hkept
      cases hw.symm.trans (hkept.symm.trans hd)
    have hcomponents := Path.same_iff.mp hsame
    obtain rfl : e = d := by
      have hknown := ha.read r e hread
      rw [c.work.cache.get?_congr hcomponents, hd] at hknown
      exact (Option.some.inj hknown).symm
    rcases source_of_mem h ha hread with hknown | ⟨before, after, hsplit, hfirst, hdecodes⟩
    · rw [w.cache.get?_congr hcomponents, hw] at hknown
      cases hknown
    · have hplace : locate w.tree.current r = locate w.tree.current p := by
        rw [locate_eq_foldl, locate_eq_foldl, hcomponents]
      have hfiles : (Journal.replay w.tree.current w.scene before).files
          (locate w.tree.current p) = w.scene.files (locate w.tree.current p) := by
        refine Journal.files_replay _ fun x hx hplaced => ?_
        -- Before the first event of its own unit nothing has been written to the file.
        have hmem : x ∈ c.journal := by simp [hsplit, hx]
        obtain ⟨o, encoding, rfl⟩ := hown.written hmem hplaced
        obtain rfl := spelled_once (h.known_unit _ hread) (h.known_unit _ hmem) hcomponents
        have hagain := Journal.mem_about.mpr hx
        simp [hfirst] at hagain
      rw [hplace, hfiles] at hdecodes
      exact .inr ⟨rfl, hdecodes⟩

end Crew

namespace Session

variable {s : Session} {tree : FileTree} {payload : Except LintError Text} {q : Request}
  {out : Report × Session × FileTree} {journal : Journal} {p : Path}

theorem Runs.current (h : s.Runs tree payload q out journal) : out.2.2.current = tree.current := by
  cases h with
  | refused => rfl
  | completed _ hreach => exact (reaches_crew hreach).2.tree.current

theorem Runs.cache_extends (h : s.Runs tree payload q out journal) :
    Cache.Extends s.cache out.2.1.cache := by
  cases h with
  | refused => exact .refl _
  | completed _ hreach => exact (reaches_crew hreach).2.cache

section

variable (h : s.Runs tree payload q out journal)
  (hown : Journal.OnlyOwn tree.current journal p)

include h hown

theorem Runs.fileAt?_of_unmodified (hp : p ∉ out.1.modified.toList) :
    out.2.2.fileAt? (locate tree.current p) = tree.fileAt? (locate tree.current p) := by
  cases h with
  | refused => rfl
  | completed _ hreach =>
    obtain ⟨hstaffed, haccounted⟩ := reaches_crew hreach
    refine Crew.fileAt?_kept haccounted hown fun o encoding hw => hp ?_
    exact (Crew.mem_modified hstaffed haccounted rfl).mpr ⟨o, encoding, Journal.mem_about.mp hw⟩

theorem Runs.source_of_known {d : Document} (hd : out.2.1.cache.get? p = some d) :
    s.cache.get? p = some d ∨
      s.cache.get? p = none ∧ d.Decodes (tree.fileAt? (locate tree.current p)) := by
  cases h with
  | refused => exact .inl hd
  | completed _ hreach =>
    obtain ⟨hstaffed, haccounted⟩ := reaches_crew hreach
    exact Crew.source_of_known hstaffed haccounted hown hd

theorem Runs.rewrites (hp : p ∈ out.1.modified.toList) : ∃ d o, s.Rewrites tree q out p d o := by
  have hsource := fun d => h.source_of_known hown (d := d)
  cases h with
  | refused => exact absurd hp (PathSet.not_mem_empty p)
  | @completed vs c _ hreach =>
    obtain ⟨hstaffed, haccounted⟩ := reaches_crew hreach
    obtain ⟨o, encoding, hw⟩ := (Crew.mem_modified hstaffed haccounted rfl).mp hp
    obtain ⟨t, ht, rfl⟩ := hstaffed.known _ hw
    have habout := Journal.mem_about.mpr hw
    obtain ⟨d, place, hevents, rfl, rfl, hchanged⟩ := (hstaffed.history t ht).of_written habout
    have hknown : c.work.cache.get? t.unit.file = some d :=
      haccounted.read _ d (Journal.mem_about.mp (by simp [hevents]))
    obtain ⟨hencodes, hwritten, -⟩ :=
      Crew.fileAt?_written haccounted hown (hstaffed.history t ht) habout
    refine ⟨d, _, hknown, hsource d hknown, ?_, hchanged, hencodes, hwritten⟩
    have hplanned := planned_of_unit (Planner.new s.registry q.selected) (hstaffed.unit_mem ht)
      hknown
    simp only [conclude, haccounted.violations]
    rw [Prepared.outcome, ← hplanned]
    rfl

end

theorem Rewrites.not_decodes {d : Document} {o : Edit.Outcome} (h : s.Rewrites tree q out p d o) :
    ¬d.Decodes (out.2.2.fileAt? (locate tree.current p)) := by
  rintro ⟨content, hcontent, hdecode⟩
  rw [h.written] at hcontent
  exact h.changed (Encoding.text_of_decode_encode hcontent hdecode).symm

/-- Of two runs that follow each other, the second keeps what the first has left in a file exactly
if it leaves the file alone, or if the first has not written the file and what the session knew of
it before, if anything, was what it held. When the second run writes the file, it makes its fixes in
the document that the session knew before both runs, or in what the file held then. -/
theorem update_kept_iff {payload' : Except LintError Text} {q' : Request}
    {out' : Report × Session × FileTree} {journal' : Journal}
    (h : s.Runs tree payload q out journal) (h' : out.2.1.Runs out.2.2 payload' q' out' journal')
    (hown : Journal.OnlyOwn tree.current journal p)
    (hown' : Journal.OnlyOwn tree.current journal' p) :
    let held := tree.fileAt? (locate tree.current p)
    (out.2.1.KeepsUpdate out.2.2 q' out' p ↔
      p ∉ out'.1.modified.toList ∨
        p ∉ out.1.modified.toList ∧ ∀ d, s.cache.get? p = some d → d.Decodes held) ∧
    (p ∈ out'.1.modified.toList → ∃ d o, out.2.1.Rewrites out.2.2 q' out' p d o ∧
      (s.cache.get? p = some d ∨ s.cache.get? p = none ∧ d.Decodes held)) := by
  intro held
  have hcurrent := h.current
  rw [← hcurrent] at hown'
  have hleft : p ∉ out.1.modified.toList →
      out.2.2.fileAt? (locate out.2.2.current p) = held := by
    intro hp
    rw [hcurrent]
    exact h.fileAt?_of_unmodified hown hp
  have hbase : ∀ {d o}, out.2.1.Rewrites out.2.2 q' out' p d o →
      s.cache.get? p = some d ∨ s.cache.get? p = none ∧ d.Decodes held := by
    intro d o hrewrites
    rcases hrewrites.source with hknown | ⟨hnone, hdecodes⟩
    · exact h.source_of_known hown hknown
    · have hunmodified : p ∉ out.1.modified.toList := by
        intro hp
        obtain ⟨d', o', hwritten⟩ := h.rewrites hown hp
        cases hnone.symm.trans hwritten.known
      rw [hleft hunmodified] at hdecodes
      refine .inr ⟨?_, hdecodes⟩
      cases hs : s.cache.get? p with
      | none => rfl
      | some d' => cases hnone.symm.trans (h.cache_extends p d' hs)
  refine ⟨⟨?_, ?_⟩, fun hp => ?_⟩
  · rintro (⟨hp, -⟩ | ⟨d, o, hrewrites, hdecodes, -⟩)
    · exact .inl hp
    · have hunmodified : p ∉ out.1.modified.toList := by
        intro hp
        obtain ⟨d', o', hwritten⟩ := h.rewrites hown hp
        have hsame := (h'.cache_extends p d' hwritten.known).symm.trans hrewrites.known
        obtain rfl : d' = d := Option.some.inj hsame
        exact hwritten.not_decodes (hcurrent ▸ hdecodes)
      refine .inr ⟨hunmodified, fun d' hd' => ?_⟩
      have hsame := h'.cache_extends p d' (h.cache_extends p d' hd')
      obtain rfl : d' = d := Option.some.inj (hsame.symm.trans hrewrites.known)
      exact hleft hunmodified ▸ hdecodes
  · rintro (hp | ⟨hunmodified, hknown⟩)
    · exact .inl ⟨hp, h'.fileAt?_of_unmodified hown' hp⟩
    · by_cases hp : p ∈ out'.1.modified.toList
      · obtain ⟨d, o, hrewrites⟩ := h'.rewrites hown' hp
        have hdecodes : d.Decodes held := by
          rcases hbase hrewrites with hd | ⟨-, hd⟩
          · exact hknown d hd
          · exact hd
        refine .inr ⟨d, o, hrewrites, (hleft hunmodified).symm ▸ hdecodes, ?_⟩
        rw [hrewrites.outcome]
        exact Edit.keepsLines_apply _ _
      · exact .inl ⟨hp, h'.fileAt?_of_unmodified hown' hp⟩
  · obtain ⟨d, o, hrewrites⟩ := h'.rewrites hown' hp
    exact ⟨d, o, hrewrites, hbase hrewrites⟩

end Session

def FileTree.twoLines : FileTree :=
  FileTree.oneDocument.put ["w", "a.adoc"] (.file "A &amp;\nB\n".toUTF8)

def Payload.twoChecks : Text :=
  "\x7b\"a.adoc\":[\x7b\"Check\":\"EntityReference\",\"Line\":1,\"Column\":3," ++
    "\"Match\":\"&amp;\"\x7d,\x7b\"Check\":\"BlockTitle\",\"Line\":2,\"Column\":1," ++
    "\"Message\":\"m\"\x7d]\x7d"

def Request.only (name : Text) : Request := { Request.plain with selected := some name }

namespace Session

/-- A session whose two rules are for the two checks. -/
def ofTwoRules : Session :=
  new (Registry.ofList [Rule.entityReference, Rule.flag "BlockTitle" []]) {}

def firstCrew : Crew :=
  ofTwoRules.served .twoLines (.ok Payload.twoChecks) (.only "EntityReference") 30

def firstRun : Report × Session × FileTree :=
  ofTwoRules.conclude (.only "EntityReference") firstCrew.work firstCrew.isCutShort

def secondCrew : Crew :=
  firstRun.2.1.served firstRun.2.2 (.ok Payload.twoChecks) (.only "BlockTitle") 30

def secondRun : Report × Session × FileTree :=
  firstRun.2.1.conclude (.only "BlockTitle") secondCrew.work secondCrew.isCutShort

theorem twoRuns :
    (ofTwoRules.violations (.ok Payload.twoChecks)).isOk ∧ firstCrew.isOver ∧
    (firstRun.2.1.violations (.ok Payload.twoChecks)).isOk ∧ secondCrew.isOver ∧
    (∀ j ∈ [firstCrew.journal, secondCrew.journal], ∀ x ∈ j,
      x.2.place? ["w"] x.1 = some (locate ["w"] "a.adoc") → x.1 = "a.adoc" ∧ x.2.writes) ∧
    ("a.adoc" : Path) ∈ firstRun.1.modified.toList ∧
    ("a.adoc" : Path) ∈ secondRun.1.modified.toList ∧
    firstRun.2.2.get? ["w", "a.adoc"] = some (.file "A \x7bamp\x7d\nB\n".toUTF8) ∧
    secondRun.2.2.get? ["w", "a.adoc"] =
      some (.file "A &amp;\n// docfix: BlockTitle [suggestion] m\nB\n".toUTF8) ∧
    ∀ f ∈ secondRun.1.applied, f.row = 1 := by
  decide +kernel

theorem update_kept_iff_twoRuns :
    ofTwoRules.Runs .twoLines (.ok Payload.twoChecks) (.only "EntityReference") firstRun
      firstCrew.journal ∧
    firstRun.2.1.Runs firstRun.2.2 (.ok Payload.twoChecks) (.only "BlockTitle") secondRun
      secondCrew.journal ∧
    ¬firstRun.2.1.KeepsUpdate firstRun.2.2 (.only "BlockTitle") secondRun "a.adoc" ∧
    ∃ d o, firstRun.2.1.Rewrites firstRun.2.2 (.only "BlockTitle") secondRun "a.adoc" d o ∧
      (ofTwoRules.cache.get? "a.adoc" = some d ∨
        d.Decodes (FileTree.twoLines.fileAt? (locate FileTree.twoLines.current "a.adoc"))) := by
  obtain ⟨hok, hover, hok', hover', hown, hmodified, hmodified', -⟩ := twoRuns
  have hruns := runs_served hok hover
  have hruns' := runs_served hok' hover'
  obtain ⟨hkept, hbase⟩ := update_kept_iff (p := "a.adoc") hruns hruns'
    (hown firstCrew.journal (by simp)) (hown secondCrew.journal (by simp))
  refine ⟨hruns, hruns', fun hkeeps => ?_, ?_⟩
  · rcases hkept.mp hkeeps with hp | ⟨hp, -⟩
    · exact hp hmodified'
    · exact hp hmodified
  · obtain ⟨d, o, hrewrites, hsource⟩ := hbase hmodified'
    exact ⟨d, o, hrewrites, hsource.imp_right And.right⟩

/-- The second run puts a comment above the second line, and the entity that the first run has
replaced in the first line is back. -/
theorem update_lost : ¬∀ (s : Session) (tree : FileTree) (payload payload' : Except LintError Text)
    (q q' : Request) (out out' : Report × Session × FileTree) (journal journal' : Journal)
    (p : Path), s.Runs tree payload q out journal →
      out.2.1.Runs out.2.2 payload' q' out' journal' → q.dryRun = false → q'.dryRun = false →
      Journal.OnlyOwn tree.current journal p → Journal.OnlyOwn tree.current journal' p →
      ∀ d d' : Document, d.Decodes (out.2.2.fileAt? (locate tree.current p)) →
        d'.Decodes (out'.2.2.fileAt? (locate tree.current p)) →
        ∀ i line, (Text.lines d.text)[i]? = some line → (∀ f ∈ out'.1.applied, f.row ≠ i) →
          line ∈ Text.lines d'.text := by
  intro h
  obtain ⟨hok, hover, hok', hover', hown, -, -, hfirst, hsecond, hrow⟩ := twoRuns
  have hplace : locate FileTree.twoLines.current "a.adoc" = ["w", "a.adoc"] := by decide +kernel
  let d : Document := ⟨"A \x7bamp\x7d\nB\n", .utf8⟩
  let d' : Document := ⟨"A &amp;\n// docfix: BlockTitle [suggestion] m\nB\n", .utf8⟩
  have hd : d.Decodes (firstRun.2.2.fileAt? (locate FileTree.twoLines.current "a.adoc")) := by
    rw [hplace]
    exact ⟨_, fileAt?_eq_some_iff.mpr hfirst, by decide +kernel⟩
  have hd' : d'.Decodes (secondRun.2.2.fileAt? (locate FileTree.twoLines.current "a.adoc")) := by
    rw [hplace]
    exact ⟨_, fileAt?_eq_some_iff.mpr hsecond, by decide +kernel⟩
  have hline := h _ _ _ _ _ _ _ _ _ _ "a.adoc" (runs_served hok hover) (runs_served hok' hover')
    rfl rfl (hown firstCrew.journal (by simp)) (hown secondCrew.journal (by simp)) d d' hd hd' 0
    "A \x7bamp\x7d" (by decide +kernel) fun f hf => by simp [hrow f hf]
  exact absurd hline (by decide +kernel)

end Session

end Errata
