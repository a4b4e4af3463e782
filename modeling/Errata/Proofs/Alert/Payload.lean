import Errata.Alert.Payload
import Errata.Proofs.Json.Members
import Errata.Proofs.Text.ByteOrder
import Errata.Proofs.Text.Trim

/-!
# Payloads keep what is well-formed

An alert is kept exactly if it names a check, a line and a column and each of its fields has the
type that it is declared with. What a payload reports depends on its well-formed alerts alone: in
the order of the keys of the files, and for one file in the order of its list.
-/
namespace Errata

open Json

namespace Alert

/-- A proposed action: a record whose one field, if it is there, is a list of texts or null. -/
def IsAction (j : Json) : Prop :=
  ∃ field, HasFields ["Params"] j field ∧
    ∀ params, field "Params" = some params → IsOptional (IsListOf IsText) params

/-- The fields of an alert in the order of their declaration, each with its type. -/
def declared : List (Text × (Json → Prop)) :=
  [("Check", IsText), ("Line", IsNat), ("Column", IsOptional IsNat),
    ("Span", IsOptional (IsListOf IsNat)), ("Message", IsText), ("Severity", IsText),
    ("Match", IsText), ("Action", IsOptional IsAction),
    ("Suggestions", IsOptional (IsListOf IsText)), ("Link", IsOptional IsText)]

/-- The fields of an alert that is kept. -/
structure AreComplete (field : Text → Option Json) : Prop where
  /-- A field that is there has its type. -/
  typed : ∀ d ∈ declared, ∀ j, field d.1 = some j → d.2 j
  check : ∃ t, field "Check" = some (.string t) ∧ ¬ Text.blank t
  line : ∃ n, field "Line" = some (nat n) ∧ 1 ≤ n
  column : (∃ n, field "Column" = some (nat n) ∧ 1 ≤ n) ∨
    ∃ start stop, field "Span" = some (.array [nat start, nat stop]) ∧ 1 ≤ start

def IsWellFormed (j : Json) : Prop :=
  ∃ field, HasFields (declared.map (·.1)) j field ∧ AreComplete field

def report? (file : Path) (j : Json) : Option Violation := (ofJson? j).bind (violation? file)

section Reading

/-- How each part of an alert is read from its field. -/
structure IsReading (field : Text → Option Json) (a : Alert) : Prop where
  check : required text? (field "Check") = some a.check
  line : required nat? (field "Line") = some a.line
  column : optional nat? (field "Column") = some a.column
  span : optional (list? nat?) (field "Span") = some a.span
  message : defaulting [] text? (field "Message") = some a.message
  severity : defaulting [] text? (field "Severity") = some a.severity
  matched : defaulting [] text? (field "Match") = some a.matched
  params : (optional paramsOfJson? (field "Action")).map Option.join = some a.params
  suggestions : optional (list? text?) (field "Suggestions") = some a.suggestions
  link : optional text? (field "Link") = some a.link

theorem ofJson?_eq_some_iff {j : Json} {a : Alert} :
    ofJson? j = some a ↔ ∃ field, HasFields (declared.map (·.1)) j field ∧ IsReading field a := by
  have hnames : (declared.map (·.1)).Nodup := by
    simp only [declared, List.map_cons, List.map_nil]
    decide
  have hread : ∀ field : Text → Option Json, fields? (declared.map (·.1)) j =
      some ((declared.map (·.1)).map field) → (ofJson? j = some a ↔ IsReading field a) := by
    intro field hfields
    have hfields' : fields? ["Check", "Line", "Column", "Span", "Message", "Severity", "Match",
        "Action", "Suggestions", "Link"] j = some [field "Check", field "Line", field "Column",
          field "Span", field "Message", field "Severity", field "Match", field "Action",
          field "Suggestions", field "Link"] := hfields
    unfold ofJson?
    rw [hfields']
    simp only [Option.bind_eq_bind, Option.bind_some, Option.bind_eq_some_iff, Option.some.injEq]
    constructor
    · rintro ⟨check, hcheck, line, hline, column, hcolumn, span, hspan, message, hmessage,
        severity, hseverity, matched, hmatched, params, hparams, suggestions, hsuggestions,
        link, hlink, rfl⟩
      exact ⟨hcheck, hline, hcolumn, hspan, hmessage, hseverity, hmatched, by rw [hparams]; rfl,
        hsuggestions, hlink⟩
    · intro h
      obtain ⟨params, hparams, hjoin⟩ := Option.map_eq_some_iff.mp h.params
      exact ⟨_, h.check, _, h.line, _, h.column, _, h.span, _, h.message, _, h.severity,
        _, h.matched, _, hparams, _, h.suggestions, _, h.link, by rw [hjoin]⟩
  constructor
  · intro h
    obtain ⟨values, hvalues, -⟩ := Option.bind_eq_some_iff.mp h
    obtain ⟨field, hfield, rfl⟩ := (fields?_eq_some_iff hnames).mp hvalues
    exact ⟨field, hfield, (hread field hvalues).mp h⟩
  · rintro ⟨field, hfield, h⟩
    exact (hread field ((fields?_eq_some_iff hnames).mpr ⟨field, hfield, rfl⟩)).mpr h

theorem isSome_paramsOfJson? {j : Json} : (paramsOfJson? j).isSome ↔ IsAction j := by
  have hnames : (["Params"] : List Text).Nodup := List.nodup_singleton _
  have hlist : ∀ params, (list? text? params).isSome ↔ IsListOf IsText params :=
    fun params => isSome_list? fun _ => isSome_text?
  unfold paramsOfJson? IsAction
  constructor
  · intro h
    obtain ⟨params, hparams⟩ := Option.isSome_iff_exists.mp h
    obtain ⟨values, hvalues, hread⟩ := Option.bind_eq_some_iff.mp hparams
    obtain ⟨field, hfield, rfl⟩ := (fields?_eq_some_iff hnames).mp hvalues
    exact ⟨field, hfield, (isSome_optional hlist).mp (Option.isSome_of_eq_some hread)⟩
  · rintro ⟨field, hfield, hparams⟩
    have hvalues := (fields?_eq_some_iff hnames).mpr ⟨field, hfield, rfl⟩
    rw [hvalues]
    exact (isSome_optional hlist).mpr hparams

theorem exists_isReading_iff {field : Text → Option Json} :
    (∃ a, IsReading field a) ↔
      (∀ d ∈ declared, ∀ j, field d.1 = some j → d.2 j) ∧
        (field "Check").isSome ∧ (field "Line").isSome := by
  have hlist : ∀ j, (list? text? j).isSome ↔ IsListOf IsText j :=
    fun j => isSome_list? fun _ => isSome_text?
  have hnats : ∀ j, (list? nat? j).isSome ↔ IsListOf IsNat j :=
    fun j => isSome_list? fun _ => isSome_nat?
  have hread : (∃ a, IsReading field a) ↔
      (required text? (field "Check")).isSome ∧ (required nat? (field "Line")).isSome ∧
      (optional nat? (field "Column")).isSome ∧ (optional (list? nat?) (field "Span")).isSome ∧
      (defaulting [] text? (field "Message")).isSome ∧
      (defaulting [] text? (field "Severity")).isSome ∧
      (defaulting [] text? (field "Match")).isSome ∧
      (optional paramsOfJson? (field "Action")).isSome ∧
      (optional (list? text?) (field "Suggestions")).isSome ∧
      (optional text? (field "Link")).isSome := by
    simp only [Option.isSome_iff_exists]
    constructor
    · rintro ⟨a, h⟩
      obtain ⟨params, hparams, -⟩ := Option.map_eq_some_iff.mp h.params
      exact ⟨⟨_, h.check⟩, ⟨_, h.line⟩, ⟨_, h.column⟩, ⟨_, h.span⟩, ⟨_, h.message⟩,
        ⟨_, h.severity⟩, ⟨_, h.matched⟩, ⟨_, hparams⟩, ⟨_, h.suggestions⟩, ⟨_, h.link⟩⟩
    · rintro ⟨⟨check, hcheck⟩, ⟨line, hline⟩, ⟨column, hcolumn⟩, ⟨span, hspan⟩,
        ⟨message, hmessage⟩, ⟨severity, hseverity⟩, ⟨matched, hmatched⟩, ⟨params, hparams⟩,
        ⟨suggestions, hsuggestions⟩, ⟨link, hlink⟩⟩
      exact ⟨⟨check, line, column, span, message, severity, matched, params.join, suggestions,
        link⟩, hcheck, hline, hcolumn, hspan, hmessage, hseverity, hmatched, by rw [hparams]; rfl,
        hsuggestions, hlink⟩
  rw [hread, isSome_required fun _ => isSome_text?, isSome_required fun _ => isSome_nat?,
    isSome_optional fun _ => isSome_nat?, isSome_optional hnats,
    isSome_defaulting fun _ => isSome_text?, isSome_defaulting fun _ => isSome_text?,
    isSome_defaulting fun _ => isSome_text?, isSome_optional fun _ => isSome_paramsOfJson?,
    isSome_optional hlist, isSome_optional fun _ => isSome_text?]
  simp only [declared, List.forall_mem_cons, List.not_mem_nil, false_implies, implies_true,
    and_true, Option.isSome_iff_exists]
  constructor
  · rintro ⟨⟨check, hcheck, hcheck'⟩, ⟨line, hline, hline'⟩, hrest⟩
    refine ⟨⟨fun j hj => ?_, fun j hj => ?_, hrest⟩, ⟨check, hcheck⟩, ⟨line, hline⟩⟩
    · exact Option.some.inj (hcheck.symm.trans hj) ▸ hcheck'
    · exact Option.some.inj (hline.symm.trans hj) ▸ hline'
  · rintro ⟨⟨hcheck', hline', hrest⟩, ⟨check, hcheck⟩, ⟨line, hline⟩⟩
    exact ⟨⟨check, hcheck, hcheck' check hcheck⟩, ⟨line, hline, hline' line hline⟩, hrest⟩

variable {field : Text → Option Json} {a : Alert}

theorem IsReading.check_eq (h : IsReading field a) : field "Check" = some (.string a.check) := by
  obtain ⟨j, hj, hcheck⟩ := required_eq_some_iff.mp h.check
  rw [hj, text?_eq_some_iff.mp hcheck]

theorem IsReading.line_eq (h : IsReading field a) : field "Line" = some (nat a.line) := by
  obtain ⟨j, hj, hline⟩ := required_eq_some_iff.mp h.line
  rw [hj, (nat?_eq_some_iff.mp hline).2]

theorem IsReading.column_eq_some_iff (h : IsReading field a) {n : ℕ} :
    a.column = some n ↔ field "Column" = some (nat n) := by
  rw [eq_some_iff_of_optional h.column rfl]
  constructor
  · rintro ⟨j, hj, hn⟩
    rw [hj, (nat?_eq_some_iff.mp hn).2]
  · intro hfield
    have htyped := (isSome_optional fun _ => isSome_nat?).mp
      (Option.isSome_of_eq_some h.column) _ hfield
    obtain hnull | hnat := htyped
    · simp [nat] at hnull
    · exact ⟨_, hfield, nat?_eq_some_iff.mpr ⟨isNat_nat.mp hnat, rfl⟩⟩

theorem IsReading.span_eq_some_iff (h : IsReading field a) {ns : List ℕ} :
    a.span = some ns ↔ field "Span" = some (.array (ns.map nat)) := by
  rw [eq_some_iff_of_optional h.span rfl]
  constructor
  · rintro ⟨j, hj, hns⟩
    rw [hj, (list?_nat?_eq_some_iff.mp hns).2]
  · intro hfield
    have htyped := (isSome_optional fun _ => isSome_list? fun _ => isSome_nat?).mp
      (Option.isSome_of_eq_some h.span) _ hfield
    obtain hnull | ⟨items, hitems, hnats⟩ := htyped
    · simp at hnull
    · obtain rfl := Json.array.inj hitems
      refine ⟨_, hfield, list?_nat?_eq_some_iff.mpr ⟨fun n hn => ?_, rfl⟩⟩
      exact isNat_nat.mp (hnats _ (List.mem_map_of_mem hn))

end Reading

theorem start?_eq_some_iff {a : Alert} {c : ℕ} :
    a.start? = some c ↔ 1 ≤ c ∧ (a.column = some c ∨
      (∀ n, 1 ≤ n → a.column ≠ some n) ∧ ∃ stop, a.span = some [c, stop]) := by
  unfold start?
  split
  · next n hcolumn =>
    rw [hcolumn]
    constructor
    · rintro ⟨⟩
      exact ⟨Nat.le_add_left 1 n, .inl rfl⟩
    · rintro ⟨-, heq | ⟨hnone, -⟩⟩
      · exact heq
      · exact absurd rfl (hnone (n + 1) (Nat.le_add_left 1 n))
  · next hcolumn =>
    have hnone : ∀ n, 1 ≤ n → a.column ≠ some n := by
      intro n hn heq
      exact hcolumn (n - 1) (by rw [heq, Nat.succ_eq_add_one, Nat.sub_add_cancel hn])
    split
    · next n stop hspan =>
      rw [hspan]
      constructor
      · rintro ⟨⟩
        exact ⟨Nat.le_add_left 1 n, .inr ⟨hnone, stop, rfl⟩⟩
      · rintro ⟨hc, heq | ⟨-, stop', heq⟩⟩
        · exact absurd heq (hnone c hc)
        · simp_all
    · next hspan =>
      refine ⟨fun h => by simp at h, fun ⟨hc, heq⟩ => ?_⟩
      rcases heq with heq | ⟨-, stop, heq⟩
      · exact absurd heq (hnone c hc)
      · exact absurd (by rw [heq, Nat.succ_eq_add_one, Nat.sub_add_cancel hc]) (hspan (c - 1) stop)

/-- The violation that an alert with these fields reports. -/
structure Describes (field : Text → Option Json) (v : Violation) : Prop where
  line : field "Line" = some (nat v.line)
  one_le_line : 1 ≤ v.line
  /-- Its own column if that is positive, else the start of its span. -/
  column : field "Column" = some (nat v.column) ∨
    (∀ n, 1 ≤ n → field "Column" ≠ some (nat n)) ∧
      ∃ stop, field "Span" = some (.array [nat v.column, nat stop])
  one_le_column : 1 ≤ v.column
  check : ∃ t, field "Check" = some (.string t) ∧ v.checkId = Text.trim t
  checkId_ne_nil : v.checkId ≠ []
  trim_checkId : Text.trim v.checkId = v.checkId
  /-- The part of the check behind its last dot. -/
  ruleName : '.' ∉ v.ruleName ∧
    (v.checkId = v.ruleName ∨ ∃ before, v.checkId = before ++ '.' :: v.ruleName)

section Reported

variable {file : Path} {field : Text → Option Json} {a : Alert}

theorem isSome_violation? :
    (violation? file a).isSome ↔ ¬ Text.blank a.check ∧ 1 ≤ a.line ∧ ∃ c, a.start? = some c := by
  rw [← Text.trim_eq_nil_iff]
  unfold violation?
  dsimp only
  split
  · next h =>
    rw [List.isEmpty_iff] at h
    simp only [Option.isSome_none, Bool.false_eq_true, false_iff]
    rintro ⟨hcheck, hline, -⟩
    rcases h with h | h
    · exact hcheck h
    · omega
  · next h =>
    rw [List.isEmpty_iff, not_or] at h
    cases hstart : a.start? with
    | none => simp
    | some c =>
      simp only [Option.bind_eq_bind, Option.bind_some, Option.isSome_some, true_iff]
      exact ⟨h.1, Nat.one_le_iff_ne_zero.mpr h.2, c, rfl⟩

theorem IsReading.isSome_violation?_iff (h : IsReading field a) :
    (violation? file a).isSome ↔ AreComplete field := by
  have htyped := (exists_isReading_iff.mp ⟨a, h⟩).1
  rw [isSome_violation?]
  simp only [start?_eq_some_iff, ne_eq, h.column_eq_some_iff, h.span_eq_some_iff, List.map_cons,
    List.map_nil]
  constructor
  · rintro ⟨hcheck, hline, c, hc, hplace⟩
    refine ⟨htyped, ⟨_, h.check_eq, hcheck⟩, ⟨_, h.line_eq, hline⟩, ?_⟩
    rcases hplace with hcolumn | ⟨-, stop, hspan⟩
    · exact .inl ⟨c, hcolumn, hc⟩
    · exact .inr ⟨c, stop, hspan, hc⟩
  · rintro ⟨-, ⟨t, ht, hcheck⟩, ⟨n, hn, hline⟩, hplace⟩
    obtain rfl := Json.string.inj (Option.some.inj (h.check_eq.symm.trans ht))
    obtain rfl := nat_inj.mp (Option.some.inj (h.line_eq.symm.trans hn))
    refine ⟨hcheck, hline, ?_⟩
    by_cases hcolumn : ∃ n, field "Column" = some (nat n) ∧ 1 ≤ n
    · obtain ⟨n, hn, hpos⟩ := hcolumn
      exact ⟨n, hpos, .inl hn⟩
    · obtain ⟨start, stop, hspan, hpos⟩ := hplace.resolve_left hcolumn
      exact ⟨start, hpos, .inr ⟨fun n hn heq => hcolumn ⟨n, heq, hn⟩, stop, hspan⟩⟩

theorem isSome_report? (file : Path) {j : Json} : (report? file j).isSome ↔ IsWellFormed j := by
  constructor
  · intro h
    obtain ⟨v, hv⟩ := Option.isSome_iff_exists.mp h
    obtain ⟨a, ha, hviolation⟩ := Option.bind_eq_some_iff.mp hv
    obtain ⟨field, hfield, hread⟩ := ofJson?_eq_some_iff.mp ha
    exact ⟨field, hfield, hread.isSome_violation?_iff.mp (Option.isSome_of_eq_some hviolation)⟩
  · rintro ⟨field, hfield, hcomplete⟩
    obtain ⟨t, ht, -⟩ := hcomplete.check
    obtain ⟨n, hn, -⟩ := hcomplete.line
    obtain ⟨a, hread⟩ := exists_isReading_iff.mpr
      ⟨hcomplete.typed, Option.isSome_of_eq_some ht, Option.isSome_of_eq_some hn⟩
    rw [report?, ofJson?_eq_some_iff.mpr ⟨field, hfield, hread⟩]
    exact hread.isSome_violation?_iff.mpr hcomplete

theorem IsReading.describes {v : Violation} (h : IsReading field a)
    (hv : violation? file a = some v) : v.file = file ∧ Describes field v := by
  obtain ⟨hcheck, hline, c, hstart⟩ := isSome_violation?.mp (Option.isSome_of_eq_some hv)
  rw [← Text.trim_eq_nil_iff] at hcheck
  have hne : ¬ ((Text.trim a.check).isEmpty ∨ a.line = 0) := by
    rw [List.isEmpty_iff, not_or]
    exact ⟨hcheck, Nat.one_le_iff_ne_zero.mp hline⟩
  rw [violation?, if_neg hne, hstart] at hv
  obtain rfl := Option.some.inj hv
  obtain ⟨hc, hplace⟩ := start?_eq_some_iff.mp hstart
  simp only [ne_eq, h.column_eq_some_iff, h.span_eq_some_iff, List.map_cons,
    List.map_nil] at hplace
  exact ⟨rfl, {
    line := h.line_eq
    one_le_line := hline
    column := hplace
    one_le_column := hc
    check := ⟨_, h.check_eq, rfl⟩
    checkId_ne_nil := hcheck
    trim_checkId := Text.trim_trim _
    ruleName := Text.afterLast_spec '.' _ }⟩

theorem report?_describes {j : Json} {v : Violation} (h : report? file j = some v) :
    v.file = file ∧ ∃ field, HasFields (declared.map (·.1)) j field ∧ Describes field v := by
  obtain ⟨a, ha, hviolation⟩ := Option.bind_eq_some_iff.mp h
  obtain ⟨field, hfield, hread⟩ := ofJson?_eq_some_iff.mp ha
  obtain ⟨hfile, hdescribes⟩ := hread.describes hviolation
  exact ⟨hfile, field, hfield, hdescribes⟩

end Reported

instance : DecidablePred IsWellFormed := fun _ =>
  decidable_of_iff _ (isSome_report? ⟨[]⟩)

end Alert

namespace Payload

open Alert (IsWellFormed report?)

def listed (members : List (Text × Json)) (key : Text) : List Json :=
  ((field? key (.object members)).bind alerts?).getD []

/-- The well-formed alerts that a payload lists for a file. -/
def kept (members : List (Text × Json)) (key : Text) : List Json :=
  (listed members key).filter fun a => IsWellFormed a

def keptByFile (members : List (Text × Json)) : List (Text × List Json) :=
  (sortMembers members).filterMap fun m =>
    if kept members m.1 = [] then none else some (m.1, kept members m.1)

variable {members members' : List (Text × Json)}

theorem listed_of_mem {key : Text} {entry : Json} (h : (key, entry) ∈ sortMembers members) :
    listed members key = (alerts? entry).getD [] := by
  rw [listed, mem_sortMembers.mp h]
  rfl

theorem kept_of_not_mem {key : Text} (h : key ∉ members.map (·.1)) : kept members key = [] := by
  have hfield : members.reverse.find? (·.1 = key) = none := by
    rw [List.find?_eq_none]
    intro m hm heq
    exact h (List.mem_map.mpr ⟨m, List.mem_reverse.mp hm, of_decide_eq_true heq⟩)
  simp [kept, listed, field?, hfield]

theorem isSorted_keptByFile (members : List (Text × Json)) : IsSorted (keptByFile members) := by
  refine (isSorted_sortMembers members).filterMap _ fun m n hlt x hx y hy => ?_
  split at hx
  · simp at hx
  · split at hy
    · simp at hy
    · obtain rfl := Option.some.inj hx
      obtain rfl := Option.some.inj hy
      exact hlt

theorem mem_keptByFile {key : Text} {alerts : List Json} :
    (key, alerts) ∈ keptByFile members ↔ alerts = kept members key ∧ alerts ≠ [] := by
  rw [keptByFile, List.mem_filterMap]
  constructor
  · rintro ⟨m, -, hm⟩
    split at hm
    · simp at hm
    · next hne =>
      obtain ⟨rfl, rfl⟩ := Prod.mk.inj (Option.some.inj hm)
      exact ⟨rfl, hne⟩
  · rintro ⟨rfl, hne⟩
    cases hfield : field? key (.object members) with
    | none => exact absurd (by simp [kept, listed, hfield]) hne
    | some entry => exact ⟨(key, entry), mem_sortMembers.mpr hfield, if_neg hne⟩

theorem filterMap_report? (file : Path) (alerts : List Json) :
    (alerts.filter fun a => IsWellFormed a).filterMap (report? file) =
      alerts.filterMap (report? file) := by
  rw [List.filterMap_filter]
  refine List.filterMap_congr fun a _ => ?_
  by_cases h : IsWellFormed a
  · simp [h]
  · rw [← Alert.isSome_report? file, Option.not_isSome_iff_eq_none] at h
    simp [h]

theorem ofJson_eq (base : Path) (members : List (Text × Json)) :
    ofJson base (.object members) = .ok ((keptByFile members).flatMap fun m =>
      m.2.filterMap (report? (Path.normalize base ⟨m.1⟩))) := by
  rw [ofJson, keptByFile, List.filterMap_eq_flatMap_toList, List.flatMap_assoc]
  refine congrArg Except.ok (List.flatMap_congr fun m hm => ?_)
  have hentry : ofEntry base m.1 m.2 =
      (kept members m.1).filterMap (report? (Path.normalize base ⟨m.1⟩)) := by
    rw [kept, listed_of_mem hm, filterMap_report?]
    rfl
  rw [hentry]
  split
  · next hnil => simp [hnil]
  · simp

theorem exists_report_of_mem_read {base : Path} {text : Text} {vs : List Violation} {v : Violation}
    (h : read base text = .ok vs) (hv : v ∈ vs) : ∃ file a, report? file a = some v := by
  unfold read at h
  split at h
  · next j _ =>
    cases hj : j.canonical with
    | object members =>
      rw [hj, ofJson_eq, Except.ok.injEq] at h
      obtain ⟨m, -, hm⟩ := List.mem_flatMap.mp (h ▸ hv)
      obtain ⟨a, -, hreport⟩ := List.mem_filterMap.mp hm
      exact ⟨_, a, hreport⟩
    | _ =>
      rw [hj] at h
      cases h
  · cases h

theorem ofJson_congr (base : Path) (h : ∀ key, kept members key = kept members' key) :
    ofJson base (.object members) = ofJson base (.object members') := by
  have hfiles : keptByFile members = keptByFile members' := by
    refine (isSorted_keptByFile members).ext (isSorted_keptByFile members') fun m => ?_
    rw [mem_keptByFile, mem_keptByFile, h]
  rw [ofJson_eq, ofJson_eq, hfiles]

theorem alerts?_eq_some_iff {entry : Json} {alerts : List Json} :
    alerts? entry = some alerts ↔
      entry = .array alerts ∨ field? "Alerts" entry = some (.array alerts) := by
  cases entry with
  | object fields =>
    simp only [alerts?, reduceCtorEq, false_or]
    split
    · next found hfound => rw [hfound, Option.some_inj, Option.some_inj, Json.array.injEq]
    · next hnone => exact ⟨fun h => by simp at h, fun h => absurd h (hnone alerts)⟩
  | _ => simp [alerts?, field?]

/-- A payload is refused only if it is no object. Otherwise the last entry of each key counts, in
the order of the keys' bytes, and of the alerts that an entry lists, bare or under `Alerts`, those
that are well-formed, in their order. What else an entry lists, and which other entries there are,
changes nothing. A violation that is reported has the place and the check of its alert. -/
theorem ofJson_keeps_wellFormed (base : Path) :
    (∀ j, (∃ e, ofJson base j = .error e) ↔ ∀ members, j ≠ .object members) ∧
    (∀ members, ∃ entries : List (Text × Json),
      entries.Pairwise (fun m n => Text.bytes m.1 < Text.bytes n.1) ∧
      (∀ key entry, (key, entry) ∈ entries ↔ field? key (.object members) = some entry) ∧
      ofJson base (.object members) = .ok (entries.flatMap fun m =>
        (((alerts? m.2).getD []).filter fun a => IsWellFormed a).filterMap
          (report? (Path.normalize base ⟨m.1⟩)))) ∧
    (∀ entry alerts, alerts? entry = some alerts ↔
      entry = .array alerts ∨ field? "Alerts" entry = some (.array alerts)) ∧
    (∀ file a, (report? file a).isSome ↔ IsWellFormed a) ∧
    (∀ fields : List (Text × Json), (fields.map (·.1)).Nodup →
      (IsWellFormed (.object fields) ↔
        Alert.AreComplete fun name => field? name (.object fields))) ∧
    (∀ members members', (∀ key, kept members key = kept members' key) →
      ofJson base (.object members) = ofJson base (.object members')) ∧
    ∀ members vs, ofJson base (.object members) = .ok vs → ∀ v ∈ vs,
      ∃ key, v.file = Path.normalize base ⟨key⟩ ∧ ∃ a ∈ listed members key,
        ∃ field, HasFields (Alert.declared.map (·.1)) a field ∧ Alert.Describes field v := by
  refine ⟨fun j => ?_, fun members => ⟨sortMembers members, ?_, fun _ _ => mem_sortMembers, ?_⟩,
    fun entry alerts => alerts?_eq_some_iff, fun file a => Alert.isSome_report? file,
    fun fields h => ?_, fun members members' => ofJson_congr base, fun members vs hvs v hv => ?_⟩
  case refine_1 => cases j <;> simp [ofJson]
  case refine_2 => exact (isSorted_sortMembers members).imp fun h => Text.bytes_lt_of_lt h
  case refine_3 =>
    simp only [filterMap_report?]
    rfl
  case refine_4 =>
    constructor
    · rintro ⟨field, hfield, hcomplete⟩
      rwa [hfield.eq_field?] at hcomplete
    · exact fun hcomplete => ⟨_, .of_nodup h _, hcomplete⟩
  case refine_5 =>
    obtain rfl := Except.ok.inj hvs
    obtain ⟨m, hm, hv⟩ := List.mem_flatMap.mp hv
    obtain ⟨a, ha, hreport⟩ := List.mem_filterMap.mp hv
    obtain ⟨hfile, field, hfield, hdescribes⟩ := Alert.report?_describes hreport
    exact ⟨m.1, hfile, a, (listed_of_mem hm).symm ▸ ha, field, hfield, hdescribes⟩

/-- A well-formed alert between others that are not. -/
theorem ofJson_keeps_wellFormed_among_malformed :
    let alert : List (Text × Json) := [("Check", .string "Rules.EntityReference"), ("Line", nat 3),
      ("Column", nat 0), ("Span", .array [nat 5, nat 9]), ("Link", .null)]
    let payload : List (Text × Json) := [("b.adoc", .bool true),
      ("a.adoc", .object [("Alerts", .array [.null, .object alert, .object [("Line", nat 1)]])])]
    Alert.AreComplete (fun name => field? name (.object alert)) ∧
      ofJson ⟨"."⟩ (.object payload) =
        ofJson ⟨"."⟩ (.object [("a.adoc", .array [.object alert])]) ∧
      ∃ vs, ofJson ⟨"."⟩ (.object payload) = .ok vs ∧ vs.map (·.col) = [4] := by
  intro alert payload
  obtain ⟨-, -, -, -, hcomplete, hcongr, -⟩ := ofJson_keeps_wellFormed ⟨"."⟩
  have halert : Alert.AreComplete fun name => field? name (.object alert) :=
    (hcomplete alert (by decide)).mp (by decide +kernel)
  refine ⟨halert, hcongr _ _ fun key => ?_, _, rfl, rfl⟩
  by_cases hkey : key = "a.adoc"
  · subst hkey
    rfl
  · have hkept : kept [("a.adoc", .array [.object alert])] key = [] :=
      kept_of_not_mem (List.not_mem_cons_of_ne_of_not_mem hkey List.not_mem_nil)
    rw [hkept]
    by_cases hkey' : key = "b.adoc"
    · subst hkey'
      rfl
    · exact kept_of_not_mem (List.not_mem_cons_of_ne_of_not_mem hkey'
        (List.not_mem_cons_of_ne_of_not_mem hkey List.not_mem_nil))

end Payload

end Errata
