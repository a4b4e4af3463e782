import Errata.Markup.Substitution
import Errata.Proofs.Text.Case
import Errata.Proofs.Text.Pieces
import Mathlib.Data.List.Induction

/-!
# The token that decides

Of the tokens that name a substitution the last one decides whether it is left: the last bare token
wipes out everything before it, and behind it each token that names the substitution overrules those
before. So only the spelling in full of the tokens counts, and with a bare token among them it does
not matter what the expression starts from.
-/
namespace Errata.Markup.Substitutions

open Text

/-- The tokens of an expression as they are written, without blanks around them. -/
def words (expr : Text) : List Text := ((expr.splitOn ',').map trim).filter fun t => !t.isEmpty

def isAdding (word : Text) : Bool := word.head? == some '+' || word.getLast? == some '+'

def isRemoving (word : Text) : Bool := !isAdding word && word.head? == some '-'

def isBare (word : Text) : Bool := !isAdding word && !isRemoving word

namespace Token

def name : Token → Text
  | .add name | .remove name | .only name => name

def mapName (f : Text → Text) : Token → Token
  | .add name => .add (f name)
  | .remove name => .remove (f name)
  | .only name => .only (f name)

end Token

def named (word : Text) : List Text := expand (Token.ofText word).name

/-- The last word behind the last bare one that is about the substitution. -/
def lastAbout? (words : List Text) (s : Text) : Option Text :=
  (words.reverse.takeWhile fun word => !isBare word).find? fun word => (named word).contains s

def lastBare? (words : List Text) : Option Text := words.reverse.find? isBare

/-- Whether a substitution is left: if the last word about it behind the last bare one adds; without
such a word, if the last bare one is about it; and without a bare one, if it was there before. -/
def isLeft (words : List Text) (base : Substitutions) (s : Text) : Bool :=
  match lastAbout? words s with
  | some word => isAdding word
  | none =>
    match lastBare? words with
    | some word => (named word).contains s
    | none => base.contains s

variable {s name word : Text} {base : Substitutions} {names : List Text}

theorem mem_insert : s ∈ insert name base ↔ s = name ∨ s ∈ base := by
  induction base with
  | nil => simp [insert]
  | cons n ns ih =>
    rw [insert]
    split
    · exact List.mem_cons
    · split
      · rw [List.mem_cons, List.mem_cons, ih, or_left_comm]
      · next hname hn =>
        have heq : name = n := List.le_antisymm (List.not_lt.mp hn) (List.not_lt.mp hname)
        simp [heq]

theorem mem_addAll : s ∈ base.addAll names ↔ s ∈ base ∨ s ∈ names := by
  unfold addAll
  induction names generalizing base with
  | nil => simp
  | cons name names ih =>
    rw [List.foldl_cons, ih, mem_insert, List.mem_cons, or_comm (a := s = name), or_assoc]

theorem mem_removeAll : s ∈ base.removeAll names ↔ s ∈ base ∧ s ∉ names := by
  simp [removeAll]

theorem mem_ofNames : s ∈ ofNames names ↔ s ∈ names := by
  rw [ofNames, mem_addAll]
  simp

theorem isBare_iff : isBare word ↔ isAdding word = false ∧ isRemoving word = false := by
  simp [isBare]

theorem mem_apply_ofText : s ∈ (Token.ofText word).apply base ↔
    if isAdding word then s ∈ base ∨ s ∈ named word
    else if isRemoving word then s ∈ base ∧ s ∉ named word
    else s ∈ named word := by
  unfold isRemoving isAdding named Token.ofText
  by_cases hfirst : word.head? = some '+'
  · simp [hfirst, Token.apply, Token.name, mem_addAll]
  · by_cases hlast : word.getLast? = some '+'
    · simp [hfirst, hlast, Token.apply, Token.name, mem_addAll]
    · by_cases hminus : word.head? = some '-'
      · simp [hminus, hlast, Token.apply, Token.name, mem_removeAll]
      · simp [hfirst, hlast, hminus, Token.apply, Token.name, mem_ofNames]

/-- The last word about a substitution decides whether it is left. -/
theorem mem_foldl_apply (words : List Text) :
    s ∈ (words.map Token.ofText).foldl Token.apply base ↔ isLeft words base s := by
  induction words using List.reverseRecOn with
  | nil => simp [isLeft, lastAbout?, lastBare?]
  | append_singleton words word ih =>
    rw [List.map_append, List.foldl_append, List.map_singleton, List.foldl_cons, List.foldl_nil,
      mem_apply_ofText]
    unfold isLeft lastAbout? lastBare? at ih ⊢
    rw [List.reverse_concat, List.takeWhile_cons, List.find?_cons (p := isBare)]
    by_cases hbare : isBare word
    · obtain ⟨hadding, hremoving⟩ := isBare_iff.mp hbare
      simp [hbare, hadding, hremoving]
    · have hkind : isAdding word = false → isRemoving word = true := by
        simpa [isBare] using hbare
      by_cases hnamed : s ∈ named word
      · cases hadding : isAdding word with
        | true => simp [hbare, hnamed, hadding]
        | false => simp [hbare, hnamed, hadding, hkind hadding]
      · cases hadding : isAdding word with
        | true => simpa [hbare, hnamed] using ih
        | false => simpa [hbare, hnamed, hkind hadding] using ih

theorem foldl_apply_eq (words : List Text) (h : ∃ word ∈ words, isBare word)
    (base base' : Substitutions) :
    (words.map Token.ofText).foldl Token.apply base =
      (words.map Token.ofText).foldl Token.apply base' := by
  obtain ⟨word, hword, hbare⟩ := h
  obtain ⟨before, after, rfl⟩ := List.append_of_mem hword
  have hreset : ∀ set set' : Substitutions,
      (Token.ofText word).apply set = (Token.ofText word).apply set' := by
    intro set set'
    obtain ⟨hadding, hremoving⟩ := isBare_iff.mp hbare
    simp_all [isAdding, isRemoving, Token.ofText, Token.apply]
  simp only [List.map_append, List.map_cons, List.foldl_append, List.foldl_cons]
  rw [hreset]

def aliases : List (Text × Text) :=
  [("n", "normal"), ("v", "verbatim"), ("c", "specialcharacters"),
    ("specialchars", "specialcharacters"), ("q", "quotes"), ("a", "attributes"),
    ("r", "replacements"), ("m", "macros"), ("p", "post_replacements")]

/-- A name in lower case, without blanks around it, and written out if it is an alias. -/
def fullName (name : Text) : Text :=
  let name := lower (trim name)
  (aliases.lookup name).getD name

def spelling (piece : Text) : Token := (Token.ofText (trim piece)).mapName fullName

/-- The tokens of an expression with their names in full; empty ones keep their places. -/
def spellings (expr : Text) : List Token := (expr.splitOn ',').map spelling

/-- What holds of a name that is no alias and of all names that have aliases holds of every name in
full. -/
theorem fullName_induction {P : Text → Text → Prop} (name : Text)
    (hself : aliases.lookup (lower (trim name)) = none →
      P (lower (trim name)) (lower (trim name)))
    (halias : ∀ entry ∈ aliases, P entry.1 entry.2) : P (lower (trim name)) (fullName name) := by
  simp only [fullName]
  cases h : aliases.lookup (lower (trim name)) with
  | none => exact hself h
  | some full =>
    obtain ⟨before, after, haliases, -⟩ := List.lookup_eq_some_iff.mp h
    exact halias (lower (trim name), full) (haliases ▸ List.mem_append_right _ List.mem_cons_self)

theorem lower_trim_lower_trim (t : Text) : lower (trim (lower (trim t))) = lower (trim t) := by
  rw [trim_lower, lower_lower, trim_trim]

theorem expand_lower_trim (t : Text) : expand (lower (trim t)) = expand t := by
  simp only [expand, lower_trim_lower_trim]

theorem expand_fullName (name : Text) : expand (fullName name) = expand name := by
  rw [← expand_lower_trim name]
  exact fullName_induction (P := fun short full => expand full = expand short) name
    (fun _ => rfl) (by decide)

theorem reserved?_fullName {name : Text} (h : trim name = name) :
    reserved? (fullName name) = reserved? name := by
  have hlower : reserved? (lower (trim name)) = reserved? name := by
    rw [h]
    simp only [reserved?, lower_lower]
  rw [← hlower]
  exact fullName_induction (P := fun short full => reserved? full = reserved? short) name
    (fun _ => rfl) (by decide)

theorem apply_mapName (token : Token) :
    (token.mapName fullName).apply base = token.apply base := by
  cases token <;> simp only [Token.mapName, Token.apply, expand_fullName]

theorem eq_of_ofText_eq_only {word name : Text} (h : Token.ofText word = .only name) :
    name = word := by
  unfold Token.ofText at h
  split at h
  · cases h
  · split at h
    · cases h
    · split at h
      · cases h
      · exact (Token.only.inj h).symm

theorem spelling_eq_empty_iff {piece : Text} : spelling piece = .only [] ↔ trim piece = [] := by
  unfold spelling
  constructor
  · intro h
    cases htoken : Token.ofText (trim piece) with
    | add name => simp [htoken, Token.mapName] at h
    | remove name => simp [htoken, Token.mapName] at h
    | only name =>
      obtain rfl := eq_of_ofText_eq_only htoken
      rw [htoken, Token.mapName, Token.only.injEq] at h
      have hlower : lower (trim (trim piece)) = [] :=
        fullName_induction (P := fun short full => full = [] → short = []) (trim piece)
          (fun _ => id) (by decide) h
      rw [trim_trim] at hlower
      exact List.map_eq_nil_iff.mp hlower
  · intro h
    rw [h]
    decide

/-- Tokens in full do what the tokens as they are written do. -/
theorem foldl_tokens (expr : Text) (base : Substitutions) :
    (tokens expr).foldl Token.apply base =
      ((spellings expr).filter (· ≠ .only [])).foldl Token.apply base := by
  unfold tokens spellings
  induction expr.splitOn ',' generalizing base with
  | nil => rfl
  | cons piece pieces ih =>
    by_cases hempty : trim piece = []
    · have hspelling := spelling_eq_empty_iff.mpr hempty
      simpa [hempty, hspelling] using ih base
    · have hspelling := mt spelling_eq_empty_iff.mp hempty
      have happly : (spelling piece).apply base = (Token.ofText (trim piece)).apply base :=
        apply_mapName _
      simpa [hempty, hspelling, happly] using ih _

/-- The words that stand for a whole set when they stand alone. -/
def reservedWords : List Text := ["normal", "n", "verbatim", "v", "none", "default"]

/-- The set that a token stands for if it is a reserved word and the only one. -/
def reservedAlone? : List Token → Option Substitutions
  | [.only name] => reserved? name
  | _ => none

theorem lower_mem_of_reserved? {t : Text} (h : reserved? t ≠ none) : lower t ∈ reservedWords := by
  have hwords : ∀ word ∈ reservedWords, lower t = word → lower t ∈ reservedWords := by
    rintro word hword rfl
    exact hword
  simp only [reserved?] at h
  split at h
  · next hnormal => exact hnormal.elim (hwords _ (by decide)) (hwords _ (by decide))
  · split at h
    · next hverbatim => exact hverbatim.elim (hwords _ (by decide)) (hwords _ (by decide))
    · split at h
      · next hnone => exact hnone.elim (hwords _ (by decide)) (hwords _ (by decide))
      · exact absurd rfl h

theorem ofText_of_reserved? {t : Text} (h : reserved? t ≠ none) : Token.ofText t = .only t := by
  have hwords : ∀ word ∈ reservedWords,
      word.head? ≠ some '+' ∧ word.getLast? ≠ some '+' ∧ word.head? ≠ some '-' := by
    decide
  obtain ⟨hfirst, hlast, hminus⟩ := hwords _ (lower_mem_of_reserved? h)
  rw [Ne, head?_lower_eq_iff (by decide)] at hfirst hminus
  rw [Ne, getLast?_lower_eq_iff (by decide)] at hlast
  rw [Token.ofText, if_neg hfirst, if_neg hlast, if_neg hminus]

theorem reservedAlone?_two (token token' : Token) (tokens : List Token) :
    reservedAlone? (token :: token' :: tokens) = none := by
  cases token <;> rfl

theorem reserved?_trim (expr : Text) : reserved? (trim expr) = reservedAlone? (spellings expr) := by
  by_cases hcomma : ',' ∈ expr
  · have hnone : reserved? (trim expr) = none := by
      by_contra h
      have hwords : ∀ word ∈ reservedWords, ',' ∉ word := by decide
      refine hwords _ (lower_mem_of_reserved? h) ?_
      exact List.mem_map.mpr ⟨',', mem_trim hcomma (by decide), by decide⟩
    rw [hnone, spellings]
    cases hpieces : expr.splitOn ',' with
    | nil => rfl
    | cons piece pieces =>
      cases pieces with
      | nil =>
        -- A single piece would be the whole expression and hold no comma.
        have hwhole : List.intercalate [','] (expr.splitOn ',') = expr := List.intercalate_splitOn _
        rw [hpieces, List.intercalate_singleton] at hwhole
        exact absurd (hwhole ▸ hcomma) (not_mem_of_mem_splitOn (by rw [hpieces]; simp))
      | cons piece' pieces => exact (reservedAlone?_two _ _ _).symm
  · have hpieces : expr.splitOn ',' = [expr] := List.splitOn_eq_singleton hcomma
    rw [spellings, hpieces, List.map_singleton, spelling]
    cases htoken : Token.ofText (trim expr) with
    | only name =>
      obtain rfl := eq_of_ofText_eq_only htoken
      exact (reserved?_fullName (trim_trim expr)).symm
    | add name =>
      by_contra h
      rw [ofText_of_reserved? h] at htoken
      cases htoken
    | remove name =>
      by_contra h
      rw [ofText_of_reserved? h] at htoken
      cases htoken

theorem spellings_trim (expr : Text) : spellings (trim expr) = spellings expr := by
  have hcomma : ¬isBlank ',' := by decide
  have hpieces := trim_pieces_trim hcomma expr
  have hspelling : spelling = (fun word => (Token.ofText word).mapName fullName) ∘ trim := rfl
  rw [spellings, hspelling, ← List.map_map, hpieces, List.map_map, ← hspelling, spellings]

/-- What an expression leaves is a matter of its tokens in full. -/
theorem resolve_eq (expr : Text) (base : Substitutions) : resolve expr base =
    (reservedAlone? (spellings expr)).getD
      (((spellings expr).filter (· ≠ .only [])).foldl Token.apply base) := by
  simp only [resolve]
  rw [reserved?_trim, foldl_tokens, spellings_trim]

theorem words_trim (expr : Text) : words (trim expr) = words expr := by
  rw [words, trim_pieces_trim (by decide), words]

theorem resolve_of_not_reserved {expr : Text} (h : lower (trim expr) ∉ reservedWords)
    (base : Substitutions) :
    resolve expr base = ((words expr).map Token.ofText).foldl Token.apply base := by
  have hnone : reserved? (trim expr) = none := by
    by_contra hreserved
    exact h (lower_mem_of_reserved? hreserved)
  simp only [resolve]
  rw [hnone, Option.getD_none, ← words_trim]
  rfl

theorem resolve_trim (expr : Text) (base : Substitutions) :
    resolve (trim expr) base = resolve expr base := by
  simp only [resolve, trim_trim]

theorem ofText_lower (word : Text) :
    Token.ofText (lower word) = (Token.ofText word).mapName lower := by
  unfold Token.ofText
  simp only [head?_lower_eq_iff (d := '+') (by decide), head?_lower_eq_iff (d := '-') (by decide),
    getLast?_lower_eq_iff (d := '+') (by decide)]
  split
  · exact congrArg Token.add List.map_tail.symm
  · split
    · exact congrArg Token.add List.map_dropLast.symm
    · split
      · exact congrArg Token.remove List.map_tail.symm
      · rfl

theorem fullName_lower (name : Text) : fullName (lower name) = fullName name := by
  simp only [fullName, trim_lower, lower_lower]

theorem spelling_lower (piece : Text) : spelling (lower piece) = spelling piece := by
  rw [spelling, trim_lower, ofText_lower, spelling]
  cases Token.ofText (trim piece) <;> simp only [Token.mapName, fullName_lower]

theorem spellings_lower (expr : Text) : spellings (lower expr) = spellings expr := by
  rw [spellings, splitOn_lower (by decide), List.map_map, spellings]
  exact List.map_congr_left fun piece _ => spelling_lower piece

/-- In an expression that is no reserved word the last bare token sets what is left, and behind it
the last token about a substitution decides whether that one is left. So with a bare token it does
not count what the expression starts from. Nor does it ever count how the tokens are spelled: in
which case, with which blanks around them, and with aliases or with full names. -/
theorem last_token_decides {expr : Text} (h : lower (trim expr) ∉ reservedWords)
    (base : Substitutions) :
    (∀ s, s ∈ resolve expr base ↔ isLeft (words expr) base s) ∧
    ((∃ word ∈ words expr, isBare word) → ∀ base', resolve expr base' = resolve expr base) ∧
    (∀ expr', lower expr' = lower expr → resolve expr' base = resolve expr base) ∧
    ∀ expr', spellings expr' = spellings expr → resolve expr' base = resolve expr base := by
  have hwords := resolve_of_not_reserved h
  have hspelled : ∀ expr', spellings expr' = spellings expr →
      resolve expr' base = resolve expr base := by
    intro expr' hspellings
    rw [resolve_eq, hspellings, ← resolve_eq]
  refine ⟨fun s => ?_, fun hbare base' => ?_, fun expr' hlower => ?_, hspelled⟩
  · rw [hwords]
    exact mem_foldl_apply (words expr)
  · rw [hwords, hwords, foldl_apply_eq (words expr) hbare]
  · apply hspelled
    rw [← spellings_lower, hlower, spellings_lower]

/-- Behind a bare group of substitutions one more is added and one is taken out; aliases, capital
letters and blanks spell the same. -/
theorem last_token_decides_normal :
    let expr : Text := "quotes, N ,x+,-R"
    lower (trim expr) ∉ reservedWords ∧ "macros".toList ∈ resolve expr [] ∧
      "x".toList ∈ resolve expr [] ∧ replacements ∉ resolve expr [] ∧
      resolve expr [replacements] = resolve expr [] ∧
      resolve "q,normal,X+,-replacements" [] = resolve expr [] := by
  intro expr
  have hplain : lower (trim expr) ∉ reservedWords := by decide
  obtain ⟨hmem, hreset, -, hspelled⟩ := last_token_decides hplain []
  refine ⟨hplain, (hmem _).mpr ?_, (hmem _).mpr ?_, mt (hmem _).mp ?_, hreset ?_ _, hspelled _ ?_⟩
  all_goals decide

end Errata.Markup.Substitutions
