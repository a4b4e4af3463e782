import Errata.Text.Basic

/-!
# Lines

A text is cut into lines at `\n`; one `\r` right before the `\n` belongs to the terminator. A lone
`\r` ends no line, and nothing after a final `\n` is no line. Every line keeps the terminator it
had, so `join_cut` gives the text back.
-/
namespace Errata

/-- How a line ends; only the last line of a text can be unterminated. -/
inductive Ending where
  | lf
  | crlf
  | unterminated
  deriving DecidableEq, Repr

structure Line where
  text : Text
  ending : Ending
  deriving DecidableEq, Repr

namespace Ending

def chars : Ending → Text
  | .lf => ['\n']
  | .crlf => ['\r', '\n']
  | .unterminated => []

end Ending

namespace Text

/-- The lines of a text with their terminators. -/
def cut : Text → List Line
  | [] => []
  | '\n' :: r => ⟨[], .lf⟩ :: cut r
  | '\r' :: '\n' :: r => ⟨[], .crlf⟩ :: cut r
  | c :: r =>
    match cut r with
    | [] => [⟨[c], .unterminated⟩]
    | l :: ls => ⟨c :: l.text, l.ending⟩ :: ls

/-- The lines of a text without their terminators. -/
def lines (t : Text) : List Text := (cut t).map (·.text)

theorem join_cut (t : Text) : (cut t).flatMap (fun l => l.text ++ l.ending.chars) = t := by
  fun_induction cut t with
  | case1 => rfl
  | case2 r ih => rw [List.flatMap_cons, ih]; rfl
  | case3 r ih => rw [List.flatMap_cons, ih]; rfl
  | case4 c r h₁ h₂ h ih => simp_all [Ending.chars]
  | case5 c r h₁ h₂ l ls h ih => simp_all

/-- Some line of the text ends in `\r\n`. -/
def hasCrlf (t : Text) : Bool := contains ['\r', '\n'] t

def endsInNewline (t : Text) : Bool := t.getLast? == some '\n'

end Text

end Errata
