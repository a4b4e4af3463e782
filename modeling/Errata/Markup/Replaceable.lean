import Errata.Markup.Block
import Errata.Markup.Inline

/-!
# Where a replacement may be made

Inline literals are never touched, and a block is touched only if its attributes switch the
`replacements` substitution on.
-/
namespace Errata.Markup

/-- A replacement may be made at this line and column, both counted from zero. -/
def mayReplace (lines : List Text) (line column : Nat) : Bool :=
  if lines[line]?.any fun text => Inline.isLiteral text column then false
  else match blockAt lines line with
    | none => true
    | some b => b.active.contains Substitutions.replacements

end Errata.Markup
