import Errata.Proofs.Json.Numerals

/-!
# JSON is read as it is written

What is written for a value is read as that value, whether it stands on one line or on many. The
numerals of doubles are the exception: reading them is not exact, so of a double it is assumed that
its own numeral gives it back.
-/
namespace Errata.Json

open Text

/-- The numeral of a double alone is read as that double. -/
def IsCarried (x : Float) : Prop := scan? (doubleText x) = some (.number (.double x))

/-- A value that nests at most `depth` deep and has nothing in it that is changed by being written. -/
inductive Writable : ℕ → Json → Prop
  | null (depth : ℕ) : Writable depth .null
  | bool (depth : ℕ) (b : Bool) : Writable depth (.bool b)
  | natural (depth : ℕ) {n : ℕ} (h : n < UInt64.size) : Writable depth (.number (.natural n))
  | negative (depth : ℕ) {n : ℕ} (hpos : n ≠ 0) (h : n ≤ 0x8000000000000000) :
      Writable depth (.number (.negative n))
  | double (depth : ℕ) {x : Float} (h : IsCarried x) : Writable depth (.number (.double x))
  | string (depth : ℕ) (t : Text) : Writable depth (.string t)
  | array {depth : ℕ} {items : List Json} (h : ∀ j ∈ items, Writable depth j) :
      Writable (depth + 1) (.array items)
  | object {depth : ℕ} {members : List (Text × Json)} (h : ∀ m ∈ members, Writable depth m.2) :
      Writable (depth + 1) (.object members)

theorem hexValue?_control : ∀ n < 0x20,
    hexValue? ['0', '0', Nat.digitChar (n / 16), Nat.digitChar (n % 16)] = some n := by
  decide

theorem escapeChar_cases (c : Char) :
    (∃ e, e ≠ 'u' ∧ escape? e = some c ∧ escapeChar c = ['\\', e]) ∨
      (c.toNat < 0x20 ∧ escapeChar c =
        ['\\', 'u', '0', '0', Nat.digitChar (c.toNat / 16), Nat.digitChar (c.toNat % 16)]) ∨
      (c ≠ '"' ∧ c ≠ '\\' ∧ 0x20 ≤ c.toNat ∧ escapeChar c = [c]) := by
  unfold escapeChar
  by_cases hquote : c = '"'
  · exact .inl ⟨'"', by decide, by rw [hquote]; rfl, if_pos hquote⟩
  rw [if_neg hquote]
  by_cases hslash : c = '\\'
  · exact .inl ⟨'\\', by decide, by rw [hslash]; rfl, if_pos hslash⟩
  rw [if_neg hslash]
  by_cases hback : c = '\x08'
  · exact .inl ⟨'b', by decide, by rw [hback]; rfl, if_pos hback⟩
  rw [if_neg hback]
  by_cases hfeed : c = '\x0c'
  · exact .inl ⟨'f', by decide, by rw [hfeed]; rfl, if_pos hfeed⟩
  rw [if_neg hfeed]
  by_cases hline : c = '\n'
  · exact .inl ⟨'n', by decide, by rw [hline]; rfl, if_pos hline⟩
  rw [if_neg hline]
  by_cases hreturn : c = '\r'
  · exact .inl ⟨'r', by decide, by rw [hreturn]; rfl, if_pos hreturn⟩
  rw [if_neg hreturn]
  by_cases htab : c = '\t'
  · exact .inl ⟨'t', by decide, by rw [htab]; rfl, if_pos htab⟩
  rw [if_neg htab]
  by_cases hcontrol : c.toNat < 0x20
  · exact .inr (.inl ⟨hcontrol, if_pos hcontrol⟩)
  rw [if_neg hcontrol]
  exact .inr (.inr ⟨hquote, hslash, Nat.not_lt.mp hcontrol, rfl⟩)

/-- A character is read back from what is written for it, whatever follows. -/
theorem pieces_escapeChar (c : Char) {s r : Text} {ps : List Piece} {h : r.length < s.length}
    (hs : pieces s = some (ps, ⟨r, h⟩)) :
    ∃ p h', pieces (escapeChar c ++ s) = some (p :: ps, ⟨r, h'⟩) ∧
      textOf? (p :: ps) = (textOf? ps).map (c :: ·) := by
  rcases escapeChar_cases c with ⟨e, hne, he, htext⟩ | ⟨hcontrol, htext⟩ |
    ⟨hquote, hslash, hlow, htext⟩
  · have hlt : r.length < ('\\' :: e :: s).length := Nat.lt_succ_of_lt (Nat.lt_succ_of_lt h)
    rw [htext]
    refine ⟨.char c, hlt, ?_, rfl⟩
    change pieces ('\\' :: e :: s) = some (.char c :: ps, ⟨r, hlt⟩)
    rw [pieces]
    · simp only [he, hs, Option.bind_eq_bind, Option.bind_some]
      rfl
    · intro _ _ _ _ _ hu
      exact absurd hu hne
  · have hlt : r.length < ('\\' :: 'u' :: '0' :: '0' :: Nat.digitChar (c.toNat / 16) ::
        Nat.digitChar (c.toNat % 16) :: s).length := by
      simp only [List.length_cons]
      omega
    have hword : textOf? (.word c.toNat :: ps) = (textOf? ps).map (c :: ·) := by
      conv_lhs => unfold textOf?
      rw [if_neg (by omega), if_neg (by omega), Char.ofNat_toNat]
    rw [htext]
    refine ⟨.word c.toNat, hlt, ?_, hword⟩
    change pieces ('\\' :: 'u' :: '0' :: '0' :: Nat.digitChar (c.toNat / 16) ::
      Nat.digitChar (c.toNat % 16) :: s) = some (.word c.toNat :: ps, ⟨r, hlt⟩)
    rw [pieces]
    simp only [hexValue?_control _ hcontrol, hs, Option.bind_eq_bind, Option.bind_some]
    rfl
  · have hlt : r.length < (c :: s).length := Nat.lt_succ_of_lt h
    have hplain : ¬(c = '\\' ∨ c.toNat < 0x20) := by
      rintro (hc | hc)
      · exact hslash hc
      · omega
    rw [htext]
    refine ⟨.char c, hlt, ?_, rfl⟩
    change pieces (c :: s) = some (.char c :: ps, ⟨r, hlt⟩)
    rw [pieces]
    · rw [if_neg hplain]
      simp only [hs, Option.bind_eq_bind, Option.bind_some]
      rfl
    · exact hquote
    · intro _ _ _ _ _ hc
      exact absurd hc hslash
    · intro _ _ hc
      exact absurd hc hslash

/-- A text is read back from its pieces. -/
theorem pieces_escaped (t rest : Text) :
    ∃ ps h, pieces (t.flatMap escapeChar ++ '"' :: rest) = some (ps, ⟨rest, h⟩) ∧
      textOf? ps = some t := by
  induction t with
  | nil =>
    have hclosed : pieces ('"' :: rest) = some ([], .tail '"' rest) := by rw [pieces]
    exact ⟨[], Nat.lt_succ_self _, hclosed, rfl⟩
  | cons c t ih =>
    obtain ⟨ps, h, hpieces, htext⟩ := ih
    obtain ⟨p, h', hpieces', htext'⟩ := pieces_escapeChar c hpieces
    rw [htext, Option.map_some] at htext'
    rw [List.flatMap_cons, List.append_assoc]
    exact ⟨p :: ps, h', hpieces', htext'⟩

def IsGap (t : Text) : Prop := ∀ c ∈ t, isSpace c

theorem skip_append {b : Text} (hb : IsGap b) (r : Text) : skip (b ++ r) = skip r :=
  List.dropWhile_append_of_pos hb

theorem skip_cons {c : Char} (hc : isSpace c = false) (r : Text) : skip (c :: r) = c :: r :=
  List.dropWhile_cons_of_neg (by simp [hc])

theorem skip_append_cons {b : Text} (hb : IsGap b) {c : Char} (hc : isSpace c = false) (r : Text) :
    skip (b ++ c :: r) = c :: r := by
  rw [skip_append hb, skip_cons hc]

theorem endsNumber_gap {b r : Text} (hb : IsGap b) (hr : EndsNumber r) : EndsNumber (b ++ r) := by
  cases b with
  | nil => exact hr
  | cons c b =>
    have hc := hb c List.mem_cons_self
    simp only [isSpace, Bool.or_eq_true, beq_iff_eq] at hc
    rw [List.cons_append, endsNumber_cons]
    rcases hc with ((rfl | rfl) | rfl) | rfl <;> decide

section Spelled

variable (gap : ℕ → Text) (space : Text)

mutual

/-- The value at a level, with a gap of this level before each item, member and closing mark, and
with a space behind each colon. -/
def spelled (level : ℕ) : Json → Text
  | .array [] => ['[', ']']
  | .object [] => ['{', '}']
  | .array (j :: js) =>
    '[' :: (gap (level + 1) ++ (spelled (level + 1) j ++
      (spelledItems (level + 1) js ++ (gap level ++ [']']))))
  | .object ((k, j) :: ms) =>
    '{' :: (gap (level + 1) ++ (stringText k ++ ':' :: (space ++ (spelled (level + 1) j ++
      (spelledMembers (level + 1) ms ++ (gap level ++ ['}']))))))
  | .null | .unfit => "null"
  | .bool b => if b then "true" else "false"
  | .number n => n.text
  | .string t => stringText t

def spelledItems (level : ℕ) : List Json → Text
  | [] => []
  | j :: js => ',' :: (gap level ++ (spelled level j ++ spelledItems level js))

def spelledMembers (level : ℕ) : List (Text × Json) → Text
  | [] => []
  | (k, j) :: ms =>
    ',' :: (gap level ++ (stringText k ++ ':' :: (space ++ (spelled level j ++
      spelledMembers level ms))))

end

end Spelled

theorem pretty_eq_spelled {depth : ℕ} {j : Json} (h : Writable depth j) (level : ℕ) :
    prettyAt level j = spelled newline [' '] level j := by
  induction h generalizing level with
  | null | bool | natural | negative | double | string => rw [prettyAt, spelled]
  | @array depth items h ih =>
    have hitems : ∀ js ⊆ items, ∀ level,
        prettyItems level js = spelledItems newline [' '] level js := by
      intro js hjs level
      induction js with
      | nil => simp [prettyItems, spelledItems]
      | cons j js ihjs =>
        obtain ⟨hj, hjs⟩ := List.cons_subset.mp hjs
        simp [prettyItems, spelledItems, ih j hj level, ihjs hjs]
    cases items with
    | nil => simp [prettyAt, spelled]
    | cons j js =>
      simp [prettyAt, spelled, ih j List.mem_cons_self (level + 1),
        hitems js (List.subset_cons_self j js) (level + 1)]
  | @object depth members h ih =>
    have hmembers : ∀ ms ⊆ members, ∀ level,
        prettyMembers level ms = spelledMembers newline [' '] level ms := by
      intro ms hms level
      induction ms with
      | nil => simp [prettyMembers, spelledMembers]
      | cons m ms ihms =>
        obtain ⟨k, j⟩ := m
        obtain ⟨hm, hms⟩ := List.cons_subset.mp hms
        simp [prettyMembers, spelledMembers, ih (k, j) hm level, ihms hms]
    cases members with
    | nil => simp [prettyAt, spelled]
    | cons m ms =>
      obtain ⟨k, j⟩ := m
      simp [prettyAt, spelled, ih (k, j) List.mem_cons_self (level + 1),
        hmembers ms (List.subset_cons_self _ ms) (level + 1)]

theorem compact_eq_spelled {depth : ℕ} {j : Json} (h : Writable depth j) (level : ℕ) :
    compact j = spelled (fun _ => []) [] level j := by
  induction h generalizing level with
  | null | bool | natural | negative | double | string => rw [compact, spelled]
  | @array depth items h ih =>
    have hitems : ∀ j js, j :: js ⊆ items → ∀ level, compactItems (j :: js) =
        compact j ++ spelledItems (fun _ => []) [] level js := by
      intro j js hjs level
      induction js generalizing j with
      | nil => simp [compactItems, spelledItems]
      | cons i is ihis =>
        obtain ⟨hj, his⟩ := List.cons_subset.mp hjs
        obtain ⟨hi, -⟩ := List.cons_subset.mp his
        simp [compactItems, spelledItems, ih i hi level, ihis i his]
    cases items with
    | nil => simp [compact, compactItems, spelled]
    | cons j js =>
      simp [compact, spelled, hitems j js (List.Subset.refl _) (level + 1),
        ih j List.mem_cons_self (level + 1)]
  | @object depth members h ih =>
    have hmembers : ∀ m ms, m :: ms ⊆ members → ∀ level, compactMembers (m :: ms) =
        stringText m.1 ++ ':' :: (compact m.2 ++ spelledMembers (fun _ => []) [] level ms) := by
      intro m ms hms level
      induction ms generalizing m with
      | nil => simp [compactMembers, spelledMembers]
      | cons n ns ihns =>
        obtain ⟨hm, hns⟩ := List.cons_subset.mp hms
        obtain ⟨hn, -⟩ := List.cons_subset.mp hns
        simp [compactMembers, spelledMembers, ih n hn level, ihns n hns]
    cases members with
    | nil => simp [compact, compactMembers, spelled]
    | cons m ms =>
      obtain ⟨k, j⟩ := m
      simp [compact, spelled, hmembers (k, j) ms (List.Subset.refl _) (level + 1),
        ih (k, j) List.mem_cons_self (level + 1)]

/-- A text that begins with no blank and with no closing bracket, as one for a value does. -/
def Starts (t : Text) : Prop := ∃ c r, t = c :: r ∧ isSpace c = false ∧ c ≠ ']'

theorem Starts.skip_append {t : Text} (h : Starts t) (r : Text) : skip (t ++ r) = t ++ r := by
  obtain ⟨c, t, rfl, hc, -⟩ := h
  exact skip_cons hc (t ++ r)

theorem starts_numeral (negative : Bool) {m : Numeral} (hm : m.IsProper) :
    Starts ((if negative then ['-'] else []) ++ m.text) := by
  obtain ⟨d, ds, hwhole⟩ := List.exists_cons_of_ne_nil hm.whole.ne_nil
  have hd : d.isDigit := hm.whole.digits d (by simp [hwhole])
  cases negative with
  | true => exact ⟨'-', m.text, rfl, rfl, by decide⟩
  | false =>
    refine ⟨d, ds ++ (m.fractionText ++ m.exponentText), by simp [Numeral.text, hwhole], ?_, ?_⟩
    · rw [isSpace]
      by_contra hspace
      simp only [Bool.not_eq_false, Bool.or_eq_true, beq_iff_eq] at hspace
      rcases hspace with ((rfl | rfl) | rfl) | rfl <;> cases hd
    · rintro rfl
      cases hd

theorem scan?_of_value {s : Text} {j : Json} (hskip : skip s = s)
    (h : ∃ hlt, value 127 (s ++ []) = some (j, ⟨[], hlt⟩)) : scan? s = some j := by
  obtain ⟨hlt, h⟩ : ∃ hlt, value 127 (skip s) = some (j, ⟨[], hlt⟩) := by
    rwa [hskip, ← List.append_nil s]
  unfold scan?
  rw [h]
  rfl

theorem value_null (depth : ℕ) (rest : Text) :
    ∃ h, value depth (("null" : Text) ++ rest) = some (.null, ⟨rest, h⟩) := by
  have hread : value depth ('n' :: 'u' :: 'l' :: 'l' :: rest) =
      some (.null, .behind ['n', 'u', 'l'] (.tail 'l' rest)) := by
    rw [value]
  exact ⟨_, hread⟩

theorem value_bool (depth : ℕ) (b : Bool) (rest : Text) :
    ∃ h, value depth ((if b then "true" else "false" : Text) ++ rest) =
      some (.bool b, ⟨rest, h⟩) := by
  cases b with
  | false =>
    have hread : value depth ('f' :: 'a' :: 'l' :: 's' :: 'e' :: rest) =
        some (.bool false, .behind ['f', 'a', 'l', 's'] (.tail 'e' rest)) := by
      rw [value]
    exact ⟨_, hread⟩
  | true =>
    have hread : value depth ('t' :: 'r' :: 'u' :: 'e' :: rest) =
        some (.bool true, .behind ['t', 'r', 'u'] (.tail 'e' rest)) := by
      rw [value]
    exact ⟨_, hread⟩

theorem value_string (depth : ℕ) (t rest : Text) :
    ∃ h, value depth (stringText t ++ rest) = some (.string t, ⟨rest, h⟩) := by
  obtain ⟨ps, h, hpieces, htext⟩ := pieces_escaped t rest
  have hstring : stringText t ++ rest = '"' :: (t.flatMap escapeChar ++ '"' :: rest) := by
    simp [stringText]
  have hread : value depth ('"' :: (t.flatMap escapeChar ++ '"' :: rest)) =
      some (.string t, .behind ['"'] ⟨rest, h⟩) := by
    rw [value, hpieces]
    simp only [Option.bind_eq_bind, Option.bind_some, htext, Option.elim_some]
  rw [hstring]
  exact ⟨_, hread⟩

theorem value_digit (depth : ℕ) {d : Char} (hd : d.isDigit) (r : Text) :
    value depth (d :: r) = numberBody false (d :: r) := by
  have hother : ∀ {c : Char} {r' : Text}, d :: r = c :: r' → c.isDigit = false → False := by
    intro c r' heq hc
    obtain ⟨rfl, -⟩ := List.cons.inj heq
    rw [hd] at hc
    cases hc
  rw [value]
  all_goals exact fun _ heq => hother heq rfl

theorem value_numeral (depth : ℕ) (negative : Bool) {m : Numeral} (hm : m.IsProper) {rest : Text}
    (hrest : EndsNumber rest) :
    ∃ h, value depth ((if negative then ['-'] else []) ++ m.text ++ rest) =
      some ((m.value? negative).elim .unfit .number, ⟨rest, h⟩) := by
  obtain ⟨hlt, hbody⟩ := numberBody_append negative hm hrest
  cases negative with
  | true =>
    have hread : value depth ('-' :: (m.text ++ rest)) =
        some ((m.value? true).elim .unfit .number, .behind ['-'] ⟨rest, hlt⟩) := by
      rw [value, hbody]
      rfl
    exact ⟨_, hread⟩
  | false =>
    obtain ⟨d, ds, hwhole⟩ := List.exists_cons_of_ne_nil hm.whole.ne_nil
    have hd : d.isDigit := hm.whole.digits d (by simp [hwhole])
    have htext : m.text ++ rest = d :: (ds ++ (m.fractionText ++ m.exponentText) ++ rest) := by
      simp [Numeral.text, hwhole]
    refine ⟨hlt, ?_⟩
    change value depth (m.text ++ rest) = _
    rw [← hbody, htext, value_digit depth hd]

theorem IsCarried.isFinite {x : Float} (h : IsCarried x) : x.isFinite := by
  by_contra hnot
  have htext : doubleText x = "null" := by simp [doubleText, hnot]
  have hnull : scan? ("null" : Text) = some .null := by
    exact scan?_of_value rfl (value_null 127 [])
  rw [IsCarried, htext, hnull] at h
  cases h

/-- A double is carried if its decimal, with one digit before the point, is worth it. -/
theorem isCarried_of_decimal {x : Float} {d : Char} {fraction : Text} (hd : d.isDigit)
    (hfraction : IsNumeral fraction) (htext : doubleText x = d :: '.' :: fraction)
    (hvalue : Decimal.toDouble? false [d] fraction 0 = some x) : IsCarried x := by
  let m : Numeral := ⟨[d], some fraction, none⟩
  have hm : m.IsProper := ⟨⟨nofun, by simpa [m] using hd⟩, fun _ hr => (List.cons.inj hr).2.symm,
    by simpa [m] using hfraction, by simp [m]⟩
  have hnumeral : doubleText x = m.text := by
    simp [htext, m, Numeral.text, Numeral.fractionText, Numeral.exponentText]
  have hworth : m.value? false = some (.double x) := by
    simp [m, Numeral.value?, Numeral.exponentValue, Number.ofParts?, hvalue]
  have hskip := (starts_numeral false hm).skip_append []
  rw [List.append_nil] at hskip
  have halone := scan?_of_value hskip (value_numeral 127 false hm endsNumber_nil)
  rw [hworth] at halone
  rw [IsCarried, hnumeral]
  exact halone

theorem value_double (depth : ℕ) {x : Float} (h : IsCarried x) {rest : Text}
    (hrest : EndsNumber rest) :
    ∃ hlt, value depth (doubleText x ++ rest) = some (.number (.double x), ⟨rest, hlt⟩) := by
  obtain ⟨negative, m, hm, htext⟩ := exists_numeral_doubleText h.isFinite
  have hskip := (starts_numeral negative hm).skip_append []
  rw [List.append_nil] at hskip
  have halone := scan?_of_value hskip (value_numeral 127 negative hm endsNumber_nil)
  rw [← htext, h] at halone
  rw [htext, Option.some.inj halone]
  exact value_numeral depth negative hm hrest

section Steps

variable {depth : ℕ} {s r t u : Text} {j : Json}

theorem length_lt_of_value (h : ∃ hlt, value depth (skip s) = some (j, ⟨r, hlt⟩)) :
    r.length < s.length :=
  Nat.lt_of_lt_of_le h.1 (skip_length_le s)

theorem elements_last (hvalue : ∃ h, value depth (skip s) = some (j, ⟨r, h⟩))
    (hr : skip r = ']' :: t) : ∃ h, elements depth s = some ([j], ⟨t, h⟩) := by
  have hlt := length_lt_of_value hvalue
  obtain ⟨_, hvalue⟩ := hvalue
  refine ⟨Nat.lt_trans (length_lt_of_skip hr) hlt, ?_⟩
  rw [elements, hvalue]
  simp only [Option.bind_eq_bind, Option.bind_some]
  split
  · next heq =>
    cases hr.symm.trans heq
    rfl
  · next heq => cases hr.symm.trans heq
  · next hnone _ => exact absurd hr (hnone t)

theorem elements_more {js : List Json} (hvalue : ∃ h, value depth (skip s) = some (j, ⟨r, h⟩))
    (hr : skip r = ',' :: t) (hrest : ∃ h, elements depth t = some (js, ⟨u, h⟩)) :
    ∃ h, elements depth s = some (j :: js, ⟨u, h⟩) := by
  have hlt := length_lt_of_value hvalue
  obtain ⟨_, hvalue⟩ := hvalue
  obtain ⟨hu, hrest⟩ := hrest
  refine ⟨Nat.lt_trans hu (Nat.lt_trans (length_lt_of_skip hr) hlt), ?_⟩
  rw [elements, hvalue]
  simp only [Option.bind_eq_bind, Option.bind_some]
  split
  · next heq => cases hr.symm.trans heq
  · next heq =>
    cases hr.symm.trans heq
    rw [hrest]
    rfl
  · next _ hnone => exact absurd hr (hnone t)

theorem length_lt_of_member {k : Text} (hkey : skip s = stringText k ++ ':' :: r)
    (hvalue : ∃ h, value depth (skip r) = some (j, ⟨t, h⟩)) : t.length < s.length := by
  have hs := skip_length_le s
  have ht := length_lt_of_value hvalue
  rw [hkey, List.length_append, List.length_cons] at hs
  omega

theorem skip_stringText (k r : Text) : skip (stringText k ++ r) = stringText k ++ r :=
  skip_cons rfl _

theorem skip_key {k : Text} (hkey : skip s = stringText k ++ ':' :: r) :
    skip s = '"' :: (k.flatMap escapeChar ++ '"' :: ':' :: r) := by
  simp [hkey, stringText]

theorem memberList_last {k : Text} (hkey : skip s = stringText k ++ ':' :: r)
    (hvalue : ∃ h, value depth (skip r) = some (j, ⟨t, h⟩)) (ht : skip t = '}' :: u) :
    ∃ h, memberList depth s = some (some [(k, j)], ⟨u, h⟩) := by
  have hlt := length_lt_of_member hkey hvalue
  have hquote := skip_key hkey
  have hcolon : skip (':' :: r) = ':' :: r := skip_cons rfl r
  obtain ⟨ps, _, hpieces, htext⟩ := pieces_escaped k (':' :: r)
  obtain ⟨_, hvalue⟩ := hvalue
  refine ⟨Nat.lt_trans (length_lt_of_skip ht) hlt, ?_⟩
  rw [memberList]
  split
  · next heq =>
    cases hquote.symm.trans heq
    rw [hpieces]
    simp only [Option.bind_eq_bind, Option.bind_some]
    split
    · next heq =>
      cases hcolon.symm.trans heq
      rw [hvalue]
      simp only [Option.bind_some, htext, Option.map_some]
      split
      · next heq =>
        cases ht.symm.trans heq
        rfl
      · next heq => cases ht.symm.trans heq
      · next hnone _ => exact absurd ht (hnone u)
    · next hnone => exact absurd hcolon (hnone r)
  · next hnone => exact absurd hquote (hnone _)

theorem memberList_more {k : Text} {members : List (Text × Json)} {v : Text}
    (hkey : skip s = stringText k ++ ':' :: r)
    (hvalue : ∃ h, value depth (skip r) = some (j, ⟨t, h⟩)) (ht : skip t = ',' :: u)
    (hrest : ∃ h, memberList depth u = some (some members, ⟨v, h⟩)) :
    ∃ h, memberList depth s = some (some ((k, j) :: members), ⟨v, h⟩) := by
  have hlt := length_lt_of_member hkey hvalue
  have hquote := skip_key hkey
  have hcolon : skip (':' :: r) = ':' :: r := skip_cons rfl r
  obtain ⟨ps, _, hpieces, htext⟩ := pieces_escaped k (':' :: r)
  obtain ⟨_, hvalue⟩ := hvalue
  obtain ⟨hv, hrest⟩ := hrest
  refine ⟨Nat.lt_trans hv (Nat.lt_trans (length_lt_of_skip ht) hlt), ?_⟩
  rw [memberList]
  split
  · next heq =>
    cases hquote.symm.trans heq
    rw [hpieces]
    simp only [Option.bind_eq_bind, Option.bind_some]
    split
    · next heq =>
      cases hcolon.symm.trans heq
      rw [hvalue]
      simp only [Option.bind_some, htext, Option.map_some]
      split
      · next heq => cases ht.symm.trans heq
      · next heq =>
        cases ht.symm.trans heq
        rw [hrest]
        rfl
      · next _ hnone => exact absurd ht (hnone u)
    · next hnone => exact absurd hcolon (hnone r)
  · next hnone => exact absurd hquote (hnone _)

theorem value_array {items : List Json} (hopen : ∀ r, skip s ≠ ']' :: r)
    (hitems : ∃ h, elements depth s = some (items, ⟨t, h⟩)) :
    ∃ h, value (depth + 1) ('[' :: s) = some (.array items, ⟨t, h⟩) := by
  obtain ⟨hlt, hitems⟩ := hitems
  refine ⟨Nat.lt_succ_of_lt hlt, ?_⟩
  rw [value]
  split
  · next heq => exact absurd heq (hopen _)
  · rw [Nat.add_sub_cancel, hitems]
    rfl

theorem value_object {members : List (Text × Json)} (hopen : ∀ r, skip s ≠ '}' :: r)
    (hmembers : ∃ h, memberList depth s = some (some members, ⟨t, h⟩)) :
    ∃ h, value (depth + 1) ('{' :: s) = some (.object members, ⟨t, h⟩) := by
  obtain ⟨hlt, hmembers⟩ := hmembers
  refine ⟨Nat.lt_succ_of_lt hlt, ?_⟩
  rw [value]
  split
  · next heq => exact absurd heq (hopen _)
  · rw [Nat.add_sub_cancel, hmembers]
    rfl

theorem value_brackets (depth : ℕ) (r : Text) :
    ∃ h, value (depth + 1) ('[' :: ']' :: r) = some (.array [], ⟨r, h⟩) := by
  have hskip : skip (']' :: r) = ']' :: r := skip_cons rfl r
  refine ⟨Nat.lt_succ_of_lt (Nat.lt_succ_self _), ?_⟩
  rw [value]
  split
  · next heq =>
    cases hskip.symm.trans heq
    rfl
  · next hnone => exact absurd hskip (hnone r)

theorem value_braces (depth : ℕ) (r : Text) :
    ∃ h, value (depth + 1) ('{' :: '}' :: r) = some (.object [], ⟨r, h⟩) := by
  have hskip : skip ('}' :: r) = '}' :: r := skip_cons rfl r
  refine ⟨Nat.lt_succ_of_lt (Nat.lt_succ_self _), ?_⟩
  rw [value]
  split
  · next heq =>
    cases hskip.symm.trans heq
    rfl
  · next hnone => exact absurd hskip (hnone r)

end Steps

section Spelled

variable {gap : ℕ → Text} {space : Text}

theorem starts_spelled {depth : ℕ} {j : Json} (h : Writable depth j) (level : ℕ) :
    Starts (spelled gap space level j) := by
  cases h with
  | null => exact ⟨'n', ['u', 'l', 'l'], rfl, rfl, by decide⟩
  | bool _ b =>
    cases b with
    | false => exact ⟨'f', ['a', 'l', 's', 'e'], rfl, rfl, by decide⟩
    | true => exact ⟨'t', ['r', 'u', 'e'], rfl, rfl, by decide⟩
  | @natural _ n =>
    have hstarts := starts_numeral false (Numeral.isProper_ofNat n)
    rwa [Numeral.text_ofNat] at hstarts
  | @negative _ n =>
    have hstarts := starts_numeral true (Numeral.isProper_ofNat n)
    rwa [Numeral.text_ofNat] at hstarts
  | double _ hx =>
    obtain ⟨negative, m, hm, htext⟩ := exists_numeral_doubleText hx.isFinite
    have hstarts := starts_numeral negative hm
    rwa [← htext] at hstarts
  | string _ t => exact ⟨'"', _, rfl, rfl, by decide⟩
  | @array _ items =>
    cases items with
    | nil => exact ⟨'[', _, rfl, rfl, by decide⟩
    | cons j js => exact ⟨'[', _, rfl, rfl, by decide⟩
  | @object _ members =>
    cases members with
    | nil => exact ⟨'{', _, rfl, rfl, by decide⟩
    | cons m ms => exact ⟨'{', _, rfl, rfl, by decide⟩

/-- A value that is read back wherever it stands, as long as it is not a number that goes on. -/
structure ReadsBack (gap : ℕ → Text) (space : Text) (depth : ℕ) (j : Json) : Prop where
  starts : ∀ level, Starts (spelled gap space level j)
  value : ∀ level rest, EndsNumber rest →
    ∃ h, value depth (spelled gap space level j ++ rest) = some (j, ⟨rest, h⟩)

theorem ReadsBack.value_skip {depth : ℕ} {j : Json} (h : ReadsBack gap space depth j) {b : Text}
    (hb : IsGap b) (level : ℕ) {rest : Text} (hrest : EndsNumber rest) :
    ∃ hlt, Json.value depth (skip (b ++ (spelled gap space level j ++ rest))) =
      some (j, ⟨rest, hlt⟩) := by
  rw [skip_append hb, (h.starts level).skip_append]
  exact h.value level rest hrest

theorem spelledItems_append (level : ℕ) (j : Json) (js : List Json) (r : Text) :
    spelledItems gap space level (j :: js) ++ r =
      ',' :: (gap level ++ (spelled gap space level j ++ (spelledItems gap space level js ++ r))) := by
  simp [spelledItems]

theorem spelledMembers_append (level : ℕ) (k : Text) (j : Json) (ms : List (Text × Json))
    (r : Text) :
    spelledMembers gap space level ((k, j) :: ms) ++ r =
      ',' :: (gap level ++ (stringText k ++ ':' :: (space ++ (spelled gap space level j ++
        (spelledMembers gap space level ms ++ r))))) := by
  simp [spelledMembers]

theorem elements_spelled (hgap : ∀ level, IsGap (gap level)) {depth : ℕ} {j : Json}
    {js : List Json} (h : ∀ i ∈ j :: js, ReadsBack gap space depth i) (level outer : ℕ)
    (rest : Text) :
    ∃ hlt, elements depth (gap level ++ (spelled gap space level j ++
      (spelledItems gap space level js ++ (gap outer ++ ']' :: rest)))) =
        some (j :: js, ⟨rest, hlt⟩) := by
  have hj := h j List.mem_cons_self
  induction js generalizing j with
  | nil =>
    rw [spelledItems, List.nil_append]
    refine elements_last (hj.value_skip (hgap level) level ?_) (skip_append_cons (hgap outer) rfl _)
    exact endsNumber_gap (hgap outer) (endsNumber_cons.mpr (by decide))
  | cons i is ih =>
    obtain ⟨-, his⟩ := List.forall_mem_cons.mp h
    rw [spelledItems_append]
    refine elements_more (hj.value_skip (hgap level) level ?_) (skip_cons rfl _)
      (ih his (his i List.mem_cons_self))
    exact endsNumber_cons.mpr (by decide)

theorem memberList_spelled (hgap : ∀ level, IsGap (gap level)) (hspace : IsGap space) {depth : ℕ}
    {k : Text} {j : Json} {ms : List (Text × Json)}
    (h : ∀ m ∈ (k, j) :: ms, ReadsBack gap space depth m.2) (level outer : ℕ) (rest : Text) :
    ∃ hlt, memberList depth (gap level ++ (stringText k ++ ':' :: (space ++
      (spelled gap space level j ++ (spelledMembers gap space level ms ++
        (gap outer ++ '}' :: rest)))))) = some (some ((k, j) :: ms), ⟨rest, hlt⟩) := by
  have hj := h (k, j) List.mem_cons_self
  have hkey : ∀ (k r : Text), skip (gap level ++ (stringText k ++ ':' :: r)) =
      stringText k ++ ':' :: r := by
    intro k r
    rw [skip_append (hgap level), skip_stringText]
  induction ms generalizing k j with
  | nil =>
    rw [spelledMembers, List.nil_append]
    refine memberList_last (hkey k _) (hj.value_skip hspace level ?_)
      (skip_append_cons (hgap outer) rfl _)
    exact endsNumber_gap (hgap outer) (endsNumber_cons.mpr (by decide))
  | cons m ms ih =>
    obtain ⟨k', j'⟩ := m
    obtain ⟨-, hms⟩ := List.forall_mem_cons.mp h
    rw [spelledMembers_append]
    refine memberList_more (hkey k _) (hj.value_skip hspace level ?_) (skip_cons rfl _)
      (ih hms (hms (k', j') List.mem_cons_self))
    exact endsNumber_cons.mpr (by decide)

/-- Whatever is writable is read back, with any gaps. -/
theorem readsBack_of_writable (hgap : ∀ level, IsGap (gap level)) (hspace : IsGap space)
    {depth : ℕ} {j : Json} (h : Writable depth j) : ReadsBack gap space depth j := by
  refine ⟨starts_spelled h, ?_⟩
  induction h with
  | null depth => exact fun _ rest _ => value_null depth rest
  | bool depth b => exact fun _ rest _ => value_bool depth b rest
  | @natural depth n hn =>
    intro _ rest hrest
    have hread := value_numeral depth false (Numeral.isProper_ofNat n) hrest
    rwa [Numeral.text_ofNat, Numeral.value?_ofNat hn] at hread
  | @negative depth n hpos hn =>
    intro _ rest hrest
    have hread := value_numeral depth true (Numeral.isProper_ofNat n) hrest
    rwa [Numeral.text_ofNat, Numeral.value?_neg_ofNat hpos hn] at hread
  | double depth hx => exact fun _ rest hrest => value_double depth hx hrest
  | string depth t => exact fun _ rest _ => value_string depth t rest
  | @array depth items h ih =>
    have hitems : ∀ i ∈ items, ReadsBack gap space depth i :=
      fun i hi => ⟨starts_spelled (h i hi), ih i hi⟩
    intro level rest _
    cases items with
    | nil => exact value_brackets depth rest
    | cons j js =>
      have htext : spelled gap space level (.array (j :: js)) ++ rest =
          '[' :: (gap (level + 1) ++ (spelled gap space (level + 1) j ++
            (spelledItems gap space (level + 1) js ++ (gap level ++ ']' :: rest)))) := by
        simp [spelled]
      rw [htext]
      refine value_array (fun r heq => ?_) (elements_spelled hgap hitems (level + 1) level rest)
      have hfirst := (hitems j List.mem_cons_self).starts (level + 1)
      rw [skip_append (hgap _), hfirst.skip_append] at heq
      obtain ⟨c, t, hc, -, hne⟩ := hfirst
      rw [hc] at heq
      exact hne (List.cons.inj heq).1
  | @object depth members h ih =>
    have hmembers : ∀ m ∈ members, ReadsBack gap space depth m.2 :=
      fun m hm => ⟨starts_spelled (h m hm), ih m hm⟩
    intro level rest _
    cases members with
    | nil => exact value_braces depth rest
    | cons m ms =>
      obtain ⟨k, j⟩ := m
      have htext : spelled gap space level (.object ((k, j) :: ms)) ++ rest =
          '{' :: (gap (level + 1) ++ (stringText k ++ ':' :: (space ++
            (spelled gap space (level + 1) j ++ (spelledMembers gap space (level + 1) ms ++
              (gap level ++ '}' :: rest)))))) := by
        simp [spelled]
      rw [htext]
      refine value_object (fun r heq => ?_)
        (memberList_spelled hgap hspace hmembers (level + 1) level rest)
      rw [skip_append (hgap _), skip_stringText] at heq
      cases heq

end Spelled

theorem Writable.mono {depth depth' : ℕ} {j : Json} (h : Writable depth j)
    (hle : depth ≤ depth') : Writable depth' j := by
  induction h generalizing depth' with
  | null => exact .null depth'
  | bool _ b => exact .bool depth' b
  | natural _ hn => exact .natural depth' hn
  | negative _ hpos hn => exact .negative depth' hpos hn
  | double _ hx => exact .double depth' hx
  | string _ t => exact .string depth' t
  | array h ih =>
    obtain ⟨n, rfl⟩ := Nat.exists_eq_add_of_lt hle
    exact .array fun j hj => ih j hj (Nat.le_add_right _ n)
  | object h ih =>
    obtain ⟨n, rfl⟩ := Nat.exists_eq_add_of_lt hle
    exact .object fun m hm => ih m hm (Nat.le_add_right _ n)

theorem Writable.isSound {depth : ℕ} {j : Json} (h : Writable depth j) : isSound j := by
  induction h with
  | null | bool | natural | negative | double | string => rfl
  | @array depth items h ih =>
    have hitems : ∀ js ⊆ items, areSound js := by
      intro js hjs
      induction js with
      | nil => rfl
      | cons j js ihjs =>
        obtain ⟨hj, hjs⟩ := List.cons_subset.mp hjs
        rw [areSound, ih j hj, ihjs hjs]
        rfl
    exact hitems items (List.Subset.refl _)
  | @object depth members h ih =>
    have hmembers : ∀ ms ⊆ members, haveSound ms := by
      intro ms hms
      induction ms with
      | nil => rfl
      | cons m ms ihms =>
        obtain ⟨k, j⟩ := m
        obtain ⟨hm, hms⟩ := List.cons_subset.mp hms
        rw [haveSound, ih (k, j) hm, ihms hms]
        rfl
    exact hmembers members (List.Subset.refl _)

theorem isGap_newline (level : ℕ) : IsGap (newline level) := by
  intro c hc
  rcases List.mem_cons.mp hc with rfl | hc
  · rfl
  · obtain rfl := List.eq_of_mem_replicate hc
    rfl

theorem scan?_compact {j : Json} (h : Writable 127 j) : scan? (compact j) = some j := by
  have hreads : ReadsBack (fun _ => []) [] 127 j :=
    readsBack_of_writable (fun _ _ hc => by cases hc) (fun _ hc => by cases hc) h
  rw [compact_eq_spelled h 0]
  refine scan?_of_value ?_ (hreads.value 0 [] endsNumber_nil)
  simpa using (hreads.starts 0).skip_append []

theorem scan?_pretty {j : Json} (h : Writable 127 j) : scan? (pretty j) = some j := by
  have hreads : ReadsBack newline [' '] 127 j :=
    readsBack_of_writable isGap_newline (fun c hc => by rw [List.mem_singleton.mp hc]; rfl) h
  rw [pretty, pretty_eq_spelled h 0]
  refine scan?_of_value ?_ (hreads.value 0 [] endsNumber_nil)
  simpa using (hreads.starts 0).skip_append []

theorem read?_written {j : Json} (h : Writable 127 j) :
    ∀ write ∈ [compact, pretty], scan? (write j) = some j ∧ read? (write j) = some j := by
  have hscan : ∀ write ∈ [compact, pretty], scan? (write j) = some j := by
    simp only [List.forall_mem_cons]
    exact ⟨scan?_compact h, scan?_pretty h, by simp⟩
  intro write hwrite
  refine ⟨hscan write hwrite, ?_⟩
  rw [read?, hscan write hwrite, Option.filter_some, if_pos h.isSound]

end Errata.Json
