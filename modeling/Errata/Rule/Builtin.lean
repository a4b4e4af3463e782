import Errata.Rule.Annotation
import Errata.Rule.ContentType
import Errata.Rule.Entity
import Errata.Rule.Registry

/-!
# The built-in rules

Two rules change content, the others mark what they find. The checks of task modules run after the
content type has been settled.
-/
namespace Errata.Registry

/-- The built-in rules, in the order in which they are registered. -/
def builtinList : List Rule := [
  Rule.entityReference,
  Rule.contentType,
  Rule.flag "ShortDescription" [],
  Rule.flag "BlockTitle" [],
  Rule.flag "DocumentId" [],
  Rule.flag "CrossReference" [],
  Rule.flag "TaskSection" ["ContentType"],
  Rule.flag "TaskStep" ["ContentType"],
  Rule.flag "TaskTitle" ["ContentType"],
  Rule.flag "TaskContents" ["ContentType"],
  Rule.flag "TaskExample" ["ContentType"]]

def builtin : Registry := ofList builtinList

end Errata.Registry
