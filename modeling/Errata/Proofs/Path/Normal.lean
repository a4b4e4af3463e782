import Errata.Path.Normal
import Errata.Proofs.Path.Names
import Mathlib.Data.List.Induction
import Mathlib.Logic.Relation

/-!
# What normal forms keep and forget

A path is followed step by step: the root, if there is one, then the names and the `..` between the
separators. A normal form keeps where the steps lead. So it does not change when a `.`, a name with
the `..` that takes it back, or a separator more is written, and following a normal form leads
nowhere else.
-/
namespace Errata.Path

def start (absolute : Bool) : List Component := if absolute then [.root] else []

/-- What stands between the separators of a text, apart from what does not count. -/
def steps (t : Text) : List Component := (t.splitOn '/').filterMap ofPiece

def IsStep (c : Component) : Prop := c = .parent ∨ ∃ n, c = .name n ∧ AreNames [n]

theorem areNames_singleton {n : Text} :
    AreNames [n] ↔ n ≠ [] ∧ n ≠ ['.'] ∧ n ≠ ['.', '.'] ∧ '/' ∉ n := by
  simp [AreNames]

theorem splitOn_cons (below : Text) : ('/' :: below).splitOn '/' = [] :: below.splitOn '/' := by
  simp [List.splitOn_cons_eq_if_modifyHead]

@[simp]
theorem steps_nil : steps [] = [] := rfl

@[simp]
theorem steps_append (above below : Text) :
    steps (above ++ '/' :: below) = steps above ++ steps below := by
  rw [steps, List.splitOn_append_cons_self, List.filterMap_append]
  rfl

@[simp]
theorem steps_cons (below : Text) : steps ('/' :: below) = steps below :=
  steps_append [] below

theorem steps_of_not_mem {t : Text} (h : '/' ∉ t) : steps t = (ofPiece t).toList := by
  rw [steps, List.splitOn_eq_singleton h]
  cases ht : ofPiece t <;> simp [ht]

theorem steps_name {n : Text} (h : AreNames [n]) : steps n = [.name n] := by
  obtain ⟨hne, hdot, hdots, hsep⟩ := areNames_singleton.mp h
  rw [steps_of_not_mem hsep, ofPiece_eq_name_iff.mpr ⟨rfl, hne, hdot, hdots⟩]
  rfl

theorem isStep_of_mem_steps {t : Text} {c : Component} (h : c ∈ steps t) : IsStep c := by
  obtain ⟨piece, hpiece, hc⟩ := List.mem_filterMap.mp h
  cases c with
  | parent => exact .inl rfl
  | name n =>
    obtain ⟨rfl, hne, hdot, hdots⟩ := ofPiece_eq_name_iff.mp hc
    exact .inr ⟨piece, rfl,
      areNames_singleton.mpr ⟨hne, hdot, hdots, Text.not_mem_of_mem_splitOn hpiece⟩⟩
  | root | current =>
    unfold ofPiece at hc
    grind

theorem components_eq (p : Path) :
    ∃ dot, p.components = start p.isAbsolute ++ dot ++ steps p.text ∧
      (dot = [] ∨ dot = [.current] ∧ (p.text.splitOn '/').head? = some ['.']) := by
  obtain ⟨first, rest, hsplit⟩ := List.exists_cons_of_ne_nil (List.splitOn_ne_nil '/' p.text)
  rw [components, steps, hsplit]
  dsimp only
  cases habsolute : p.isAbsolute with
  | true =>
    obtain ⟨t, ht⟩ : ∃ t, p.text = '/' :: t := by
      simpa [isAbsolute, List.head?_eq_some_iff] using habsolute
    obtain rfl : first = [] := by
      rw [ht, splitOn_cons] at hsplit
      exact (List.cons.inj hsplit).1.symm
    exact ⟨[], by simp [start, ofPiece], .inl rfl⟩
  | false =>
    by_cases hdot : first = ['.']
    · exact ⟨[.current], by simp [start, hdot, ofPiece], .inr ⟨rfl, by rw [hdot]; rfl⟩⟩
    · refine ⟨[], ?_, .inl rfl⟩
      cases hfirst : ofPiece first <;> simp [start, hdot, hfirst]

theorem foldl_components (p : Path) :
    p.components.foldl advance [] = (steps p.text).foldl advance (start p.isAbsolute) := by
  obtain ⟨dot, hcomponents, hdot⟩ := components_eq p
  have hstart : (start p.isAbsolute).foldl advance [] = start p.isAbsolute := by
    cases p.isAbsolute <;> rfl
  have hskip : ∀ back, dot.foldl advance back = back := by
    rcases hdot with rfl | ⟨rfl, -⟩ <;> exact fun _ => rfl
  rw [hcomponents, List.foldl_append, List.foldl_append, hstart, hskip]

theorem isAbsolute_join (base raw : Path) :
    (base.join raw).isAbsolute = (raw.isAbsolute || base.isAbsolute) := by
  unfold join
  split
  · next h => rw [h, Bool.true_or]
  · next h =>
    rw [Bool.not_eq_true] at h
    rw [h, Bool.false_or]
    cases hbase : base.text with
    | nil => simpa [isAbsolute, hbase] using h
    | cons c t => split <;> simp [isAbsolute, hbase]

theorem steps_join {base raw : Path} (h : raw.isAbsolute = false) :
    steps (base.join raw).text = steps base.text ++ steps raw.text := by
  rw [join, if_neg (by simp [h])]
  split
  · rw [List.append_assoc, List.singleton_append, steps_append]
  · next hlast =>
    cases hbase : base.text using List.reverseRecOn with
    | nil => rfl
    | append_singleton t c =>
      obtain rfl : c = '/' := by simpa [hbase] using hlast
      simp [List.append_assoc]

/-- Where a path leads from a base, from the last component to the first. -/
def back (base raw : Path) : List Component :=
  (steps raw.text).foldl advance
    (if raw.isAbsolute then [.root] else (steps base.text).foldl advance (start base.isAbsolute))

theorem normalize_eq (base raw : Path) :
    normalize base raw = ofComponents (back base raw).reverse := by
  rw [normalize, foldl_components, back]
  cases h : raw.isAbsolute with
  | true => simp [join, h, start]
  | false => simp [isAbsolute_join, steps_join h, h, List.foldl_append]

/-- The components of a path in normal form: the root if it is absolute, then all `..`, then the
names. -/
def IsNormal (absolute : Bool) (cs : List Component) : Prop :=
  ∃ k names, AreNames names ∧
    cs = start absolute ++ List.replicate k .parent ++ names.map .name

section Normal

variable {absolute : Bool} {cs : List Component}

theorem isNormal_start (absolute : Bool) : IsNormal absolute (start absolute) :=
  ⟨0, [], by simp [AreNames], by simp⟩

theorem advance_parent (absolute : Bool) (k : ℕ) :
    advance (start absolute ++ List.replicate k Component.parent).reverse .parent =
      (start absolute ++ List.replicate (k + 1) Component.parent).reverse := by
  cases k with
  | zero => cases absolute <;> rfl
  | succ k =>
    rw [List.reverse_append, List.reverse_append, List.reverse_replicate, List.reverse_replicate]
    rfl

theorem IsNormal.advance (h : IsNormal absolute cs) {c : Component} (hc : IsStep c) :
    IsNormal absolute (Path.advance cs.reverse c).reverse := by
  obtain ⟨k, names, hnames, rfl⟩ := h
  rcases hc with rfl | ⟨n, rfl, hn⟩
  · cases names using List.reverseRecOn with
    | nil =>
      refine ⟨k + 1, [], hnames, ?_⟩
      rw [List.map_nil, List.append_nil, List.append_nil, advance_parent, List.reverse_reverse]
    | append_singleton names n =>
      refine ⟨k, names, fun m hm => hnames m (List.mem_append_left _ hm), ?_⟩
      simp [Path.advance]
  · refine ⟨k, names ++ [n], ?_, by simp [Path.advance]⟩
    intro m hm
    rcases List.mem_append.mp hm with hm | hm
    · exact hnames m hm
    · exact hn m hm

theorem IsNormal.foldl (h : IsNormal absolute cs) {way : List Component}
    (hway : ∀ c ∈ way, IsStep c) :
    IsNormal absolute (way.foldl Path.advance cs.reverse).reverse := by
  induction way generalizing cs with
  | nil => simpa using h
  | cons c way ih =>
    obtain ⟨hc, hway⟩ := List.forall_mem_cons.mp hway
    have hnext := ih (h.advance hc) hway
    rwa [List.reverse_reverse] at hnext

theorem isNormal_back (base raw : Path) :
    IsNormal (raw.isAbsolute || base.isAbsolute) (back base raw).reverse := by
  have hfrom : ∀ absolute t,
      IsNormal absolute ((steps t).foldl Path.advance (start absolute)).reverse := by
    intro absolute t
    have hsteps := (isNormal_start absolute).foldl fun c hc => isStep_of_mem_steps (t := t) hc
    rwa [show (start absolute).reverse = start absolute by cases absolute <;> rfl] at hsteps
  unfold back
  cases h : raw.isAbsolute with
  | true => exact hfrom true raw.text
  | false =>
    have hraw := (hfrom base.isAbsolute base.text).foldl fun c hc =>
      isStep_of_mem_steps (t := raw.text) hc
    rwa [List.reverse_reverse] at hraw

theorem IsNormal.eq_start_append (h : IsNormal absolute cs) :
    ∃ way, cs = start absolute ++ way ∧ ∀ c ∈ way, IsStep c := by
  obtain ⟨k, names, hnames, rfl⟩ := h
  refine ⟨List.replicate k .parent ++ names.map .name, by rw [List.append_assoc], fun c hc => ?_⟩
  rcases List.mem_append.mp hc with hc | hc
  · exact .inl (List.eq_of_mem_replicate hc)
  · obtain ⟨n, hn, rfl⟩ := List.mem_map.mp hc
    exact .inr ⟨n, rfl, by simpa [AreNames] using hnames n hn⟩

theorem IsNormal.foldl_self {way : List Component} (h : IsNormal absolute (start absolute ++ way)) :
    way.foldl Path.advance (start absolute) = (start absolute ++ way).reverse := by
  obtain ⟨k, names, -, hway⟩ := h
  rw [List.append_assoc, List.append_cancel_left_eq] at hway
  subst hway
  have hparents : ∀ k, (List.replicate k Component.parent).foldl Path.advance (start absolute) =
      (start absolute ++ List.replicate k Component.parent).reverse := by
    intro k
    induction k with
    | zero => cases absolute <;> rfl
    | succ k ih =>
      rw [List.replicate_succ', List.foldl_append, ih, List.foldl_cons, List.foldl_nil,
        advance_parent, List.replicate_succ']
  have hnames : ∀ back, (names.map Component.name).foldl Path.advance back =
      (names.map Component.name).reverse ++ back := by
    induction names with
    | nil => exact fun _ => rfl
    | cons n names ih =>
      intro back
      rw [List.map_cons, List.foldl_cons, ih]
      simp [Path.advance]
  rw [List.foldl_append, hparents, hnames]
  simp [List.append_assoc]

end Normal

section Written

variable {absolute : Bool} {way : List Component}

theorem ofPiece_text {c : Component} (h : IsStep c) : ofPiece c.text = some c ∧ '/' ∉ c.text := by
  rcases h with rfl | ⟨n, rfl, hn⟩
  · exact ⟨by decide, by decide⟩
  · obtain ⟨hne, hdot, hdots, hsep⟩ := areNames_singleton.mp hn
    exact ⟨ofPiece_eq_name_iff.mpr ⟨rfl, hne, hdot, hdots⟩, hsep⟩

theorem splitOn_intercalate_text (hway : ∀ c ∈ way, IsStep c) (hne : way ≠ []) :
    (List.intercalate ['/'] (way.map Component.text)).splitOn '/' = way.map Component.text := by
  refine List.splitOn_intercalate '/' (fun t ht => ?_) (by simpa using hne)
  obtain ⟨c, hc, rfl⟩ := List.mem_map.mp ht
  exact (ofPiece_text (hway c hc)).2

theorem steps_intercalate_text (hway : ∀ c ∈ way, IsStep c) :
    steps (List.intercalate ['/'] (way.map Component.text)) = way := by
  by_cases hne : way = []
  · subst hne
    rfl
  · rw [steps, splitOn_intercalate_text hway hne, List.filterMap_map]
    calc
      way.filterMap (ofPiece ∘ Component.text) = way.filterMap some :=
        List.filterMap_congr fun c hc => (ofPiece_text (hway c hc)).1
      _ = way := List.filterMap_some

theorem text_ofComponents (hway : ∀ c ∈ way, IsStep c) :
    (ofComponents (start absolute ++ way)).text =
      (if absolute then ['/'] else []) ++ List.intercalate ['/'] (way.map Component.text) := by
  cases absolute with
  | true => rfl
  | false =>
    cases way with
    | nil => rfl
    | cons c way =>
      rcases hway c List.mem_cons_self with rfl | ⟨n, rfl, -⟩ <;> rfl

theorem steps_ofComponents (hway : ∀ c ∈ way, IsStep c) :
    steps (ofComponents (start absolute ++ way)).text = way := by
  rw [text_ofComponents hway]
  cases absolute with
  | true => exact (steps_cons _).trans (steps_intercalate_text hway)
  | false => exact steps_intercalate_text hway

theorem isAbsolute_ofComponents (hway : ∀ c ∈ way, IsStep c) :
    (ofComponents (start absolute ++ way)).isAbsolute = absolute := by
  rw [isAbsolute, text_ofComponents hway]
  cases absolute with
  | true => rfl
  | false =>
    cases way with
    | nil => rfl
    | cons c way =>
      obtain ⟨hpiece, hsep⟩ := ofPiece_text (hway c List.mem_cons_self)
      obtain ⟨d, t, ht⟩ : ∃ d t, c.text = d :: t :=
        List.exists_cons_of_ne_nil fun hnil => by simp [hnil, ofPiece] at hpiece
      have hd : d ≠ '/' := by
        rintro rfl
        simp [ht] at hsep
      cases way <;> simp [List.intercalate, ht, hd]

theorem components_ofComponents (hway : ∀ c ∈ way, IsStep c) :
    (ofComponents (start absolute ++ way)).components = start absolute ++ way := by
  obtain ⟨dot, hcomponents, hdot⟩ := components_eq (ofComponents (start absolute ++ way))
  rw [isAbsolute_ofComponents hway, steps_ofComponents hway] at hcomponents
  rcases hdot with rfl | ⟨-, hhead⟩
  · rw [hcomponents, List.append_nil]
  · -- No step is written as a `.`, so none stands in front.
    rw [text_ofComponents hway] at hhead
    cases absolute with
    | true =>
      rw [if_pos rfl, List.singleton_append, splitOn_cons] at hhead
      cases hhead
    | false =>
      by_cases hne : way = []
      · subst hne
        cases hhead
      · rw [if_neg Bool.false_ne_true, List.nil_append, splitOn_intercalate_text hway hne,
          List.head?_map] at hhead
        obtain ⟨c, hc, htext⟩ := Option.map_eq_some_iff.mp hhead
        have hpiece := (ofPiece_text (hway c (List.mem_of_head? hc))).1
        simp [htext, ofPiece] at hpiece

end Written

theorem isAbsolute_normalize (base raw : Path) :
    (normalize base raw).isAbsolute = (raw.isAbsolute || base.isAbsolute) := by
  obtain ⟨way, hway, hsteps⟩ := (isNormal_back base raw).eq_start_append
  rw [normalize_eq, hway, isAbsolute_ofComponents hsteps]

theorem components_normalize (base raw : Path) :
    (normalize base raw).components = (back base raw).reverse := by
  obtain ⟨way, hway, hsteps⟩ := (isNormal_back base raw).eq_start_append
  rw [normalize_eq, hway, components_ofComponents hsteps]

theorem isNormal_normalize (base raw : Path) :
    IsNormal (normalize base raw).isAbsolute (normalize base raw).components := by
  rw [isAbsolute_normalize, components_normalize]
  exact isNormal_back base raw

/-- A normal form is left alone wherever its steps start from where it starts. -/
theorem normalize_normalize {base raw base' : Path}
    (h : (normalize base raw).isAbsolute = true ∨
      (steps base'.text).foldl advance (start base'.isAbsolute) = []) :
    normalize base' (normalize base raw) = normalize base raw := by
  have hnormal := isNormal_back base raw
  obtain ⟨way, hway, hsteps⟩ := hnormal.eq_start_append
  have habsolute := isAbsolute_normalize base raw
  have htext : steps (normalize base raw).text = way := by
    rw [normalize_eq, hway, steps_ofComponents hsteps]
  have hback : back base' (normalize base raw) =
      way.foldl advance (start (normalize base raw).isAbsolute) := by
    rw [back, htext]
    rcases h with h | h
    · rw [h]
      rfl
    · cases hcase : (normalize base raw).isAbsolute with
      | true => rfl
      | false => rw [if_neg Bool.false_ne_true, h]; rfl
  rw [hway] at hnormal
  rw [normalize_eq base' (normalize base raw), hback, habsolute, hnormal.foldl_self,
    List.reverse_reverse, ← hway, ← normalize_eq]

/-- A component of a path can start here: behind a separator, or in front of a path without a
root. -/
def IsBoundary (above below : Text) : Prop :=
  above.getLast? = some '/' ∨ above = [] ∧ below.head? ≠ some '/'

/-- The second text spells a path in a longer way than the first: by a `.` at a boundary of its
components, by a name and the `..` that takes it back, or by a separator more. At the end of a text
a boundary lies behind its trailing separator. -/
inductive Respelled : Text → Text → Prop
  | current {above below : Text} (h : IsBoundary above below) :
      Respelled (above ++ below) (above ++ ['.', '/'] ++ below)
  | detour {above below name : Text} (h : IsBoundary above below) (hname : AreNames [name]) :
      Respelled (above ++ below) (above ++ (name ++ ['/', '.', '.', '/']) ++ below)
  | separator (above below : Text) :
      Respelled (above ++ '/' :: below) (above ++ '/' :: '/' :: below)
  | trailing {t : Text} (h : t ≠ []) : Respelled t (t ++ ['/'])

/-- Texts that differ in nothing but how they spell a path. -/
def SameSpelling : Text → Text → Prop := Relation.EqvGen Respelled

theorem steps_boundary {above below : Text} (h : IsBoundary above below) (t : Text) :
    steps (above ++ (t ++ '/' :: below)) = steps above ++ steps t ++ steps below := by
  rcases h with h | ⟨rfl, -⟩
  · obtain ⟨above, rfl⟩ := List.getLast?_eq_some_iff.mp h
    simp
  · simp

theorem steps_boundary_nil {above below : Text} (h : IsBoundary above below) :
    steps (above ++ below) = steps above ++ steps below := by
  rcases h with h | ⟨rfl, -⟩
  · obtain ⟨above, rfl⟩ := List.getLast?_eq_some_iff.mp h
    simp
  · simp

/-- What a normal form keeps. A name stays until a `..` takes it back, and a `..` stays where there
is no name to take back. -/
theorem components_normalize_append (base : Path) {above : Text}
    (h : above = [] ∨ above.getLast? = some '/') :
    let before := (normalize base ⟨above⟩).components
    (∀ name, AreNames [name] →
      (normalize base ⟨above ++ name⟩).components = before ++ [.name name]) ∧
    (∀ names name, before = names ++ [.name name] →
      (normalize base ⟨above ++ ['.', '.']⟩).components = names) ∧
    ((∀ name, before.getLast? ≠ some (.name name)) →
      (normalize base ⟨above ++ ['.', '.']⟩).components = before ++ [.parent]) := by
  have hback : ∀ t : Text, t.head? ≠ some '/' →
      back base ⟨above ++ t⟩ = (steps t).foldl advance (back base ⟨above⟩) := by
    intro t ht
    have hboundary : IsBoundary above t := h.symm.imp_right fun hnil => ⟨hnil, ht⟩
    have habsolute : isAbsolute ⟨above ++ t⟩ = isAbsolute ⟨above⟩ := by
      cases above with
      | nil => simpa [isAbsolute] using ht
      | cons c above => rfl
    rw [back, back, habsolute, steps_boundary_nil hboundary, List.foldl_append]
  simp only [components_normalize]
  refine ⟨fun name hname => ?_, fun names name hlast => ?_, fun hnone => ?_⟩
  · obtain ⟨hne, -, -, hsep⟩ := areNames_singleton.mp hname
    rw [hback name fun hhead => hsep (List.mem_of_mem_head? hhead), steps_name hname]
    simp [advance]
  · rw [hback _ (by decide), show steps ['.', '.'] = [.parent] by decide,
      List.reverse_eq_iff.mp hlast]
    simp [advance]
  · rw [hback _ (by decide), show steps ['.', '.'] = [.parent] by decide]
    cases hwhere : back base ⟨above⟩ with
    | nil => rfl
    | cons c way =>
      cases c with
      | name n => simp [hwhere] at hnone
      | root | current | parent => simp [advance]

theorem IsBoundary.isAbsolute_eq {above below : Text} (h : IsBoundary above below) {t : Text}
    (ht : t ≠ []) (hhead : t.head? ≠ some '/') :
    isAbsolute ⟨above ++ t ++ below⟩ = isAbsolute ⟨above ++ below⟩ := by
  obtain ⟨c, t, rfl⟩ := List.exists_cons_of_ne_nil ht
  rcases h with h | ⟨rfl, hbelow⟩
  · cases above with
    | nil => cases h
    | cons d above => rfl
  · have hc : c ≠ '/' := by simpa using hhead
    simp [isAbsolute, hc, hbelow]

theorem Respelled.isAbsolute_eq {s t : Text} (h : Respelled s t) :
    isAbsolute ⟨t⟩ = isAbsolute ⟨s⟩ := by
  cases h with
  | current h => exact h.isAbsolute_eq (by simp) (by simp)
  | @detour above below name h hname =>
    obtain ⟨hne, -, -, hsep⟩ := areNames_singleton.mp hname
    refine h.isAbsolute_eq (by simp) ?_
    rw [List.head?_append_of_ne_nil _ hne]
    exact fun hhead => hsep (List.mem_of_mem_head? hhead)
  | separator above below => cases above <;> rfl
  | trailing h =>
    obtain ⟨c, s, rfl⟩ := List.exists_cons_of_ne_nil h
    rfl

/-- All spellings of a path lead to the same place. -/
theorem Respelled.foldl_steps {s t : Text} (h : Respelled s t) (start : List Component) :
    (steps t).foldl advance start = (steps s).foldl advance start := by
  cases h with
  | @current above below h =>
    have hsteps := steps_boundary h ['.']
    rw [List.append_assoc, steps_boundary_nil h]
    rw [show steps ['.'] = [] by decide, List.append_nil] at hsteps
    exact congrArg _ hsteps
  | @detour above below name h hname =>
    have hsteps := steps_boundary h (name ++ ['/', '.', '.'])
    rw [steps_append, steps_name hname, show steps ['.', '.'] = [.parent] by decide] at hsteps
    rw [steps_boundary_nil h, List.append_assoc, List.append_assoc]
    simp only [List.append_assoc, List.cons_append, List.nil_append] at hsteps ⊢
    rw [hsteps, List.foldl_append, List.foldl_append]
    rfl
  | separator above below => simp
  | @trailing t h => rw [steps_append, steps_nil, List.append_nil]

theorem SameSpelling.normalize_eq {s t : Text} (h : SameSpelling s t) (base : Path) :
    normalize base ⟨t⟩ = normalize base ⟨s⟩ := by
  induction h with
  | rel s t h =>
    rw [Path.normalize_eq, Path.normalize_eq, back, back, h.isAbsolute_eq, h.foldl_steps]
  | refl s => rfl
  | symm s t _ ih => exact ih.symm
  | trans s t u _ _ ih ih' => exact ih'.trans ih

end Errata.Path
