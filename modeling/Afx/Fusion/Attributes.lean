import Afx.Fusion.Fault
import Afx.Markup.Basic
import Afx.Text.Segments

/-!
# The Attributes of a Tag

Before the attributes of a tag are rendered they are prepared in three steps.
Directives say where a tag goes or where its children go; they are taken out,
and must have a text. Meta paths that end in a shorthand are numbered, so that
repeated ones do not fall on the same path. Last, the props are arranged for
Fusion's way of merging: props behind a spread are put into a group behind it,
and meta props come at the end.

## Main definitions

* `payload`: The text of a directive.
* `withoutDirectives`: The attributes that are rendered, and the path that
  receives the children if a directive names one.
* `expanded`: Shorthand meta paths with a number.
* `arranged`: The order in which attributes are rendered.
* `prepared`: All three steps.
-/

namespace Afx

namespace Fusion

/-- The text of a directive. -/
def payload (directive : String) : Markup → Except Fault String
  | .literal value => .ok value
  | other => .error (.directivePayload directive other.kindName)

/-- A directive that the parent of a tag obeys. -/
def isParentDirective (name : String) : Bool :=
  name == "@key" || name == "@path"

/-- The directive that names the path of the children. -/
def childrenDirective : String := "@children"

/-- The attributes that are no directives, and the text of the last directive
    for the children, which before the list is `children`. -/
def withoutDirectivesFrom (children : Option String) :
    List Markup → Except Fault (List Markup × Option String)
  | [] => .ok ([], children)
  | .prop name value :: rest =>
    if isParentDirective name then
      -- The parent reads the text; here it only has to be one.
      match payload name value with
      | .ok _ => withoutDirectivesFrom children rest
      | .error fault => .error fault
    else if name == childrenDirective then
      match payload name value with
      | .ok path => withoutDirectivesFrom (some path) rest
      | .error fault => .error fault
    else
      (withoutDirectivesFrom children rest).map fun (kept, found) =>
        (.prop name value :: kept, found)
  | other :: rest =>
    (withoutDirectivesFrom children rest).map fun (kept, found) => (other :: kept, found)

/-- The attributes that are no directives, and the path that receives the
    children if a directive names one. -/
def withoutDirectives (attributes : List Markup) : Except Fault (List Markup × Option String) :=
  withoutDirectivesFrom none attributes

/-- The part of a dotted name behind its last dot. -/
def lastSegment (name : String) : String :=
  String.ofList ((Text.segments '.' name.toList).getLast?.getD [])

/-- What a shorthand is numbered by, if a dotted name ends in one. -/
def shorthand? (name : String) : Option String :=
  if lastSegment name == "@if" then some "if"
  else if lastSegment name == "@process" then some "process"
  else none

/-- Numbers the shorthand meta paths; `seen` holds the names of the props before. -/
def expandedFrom (seen : List String) : List Markup → List Markup
  | [] => []
  | .prop name value :: rest =>
    let full := match shorthand? name with
      | some word => name ++ "." ++ word ++ "_" ++ toString (seen.count name + 1)
      | none => name
    .prop full value :: expandedFrom (name :: seen) rest
  | other :: rest => other :: expandedFrom seen rest

/-- A meta path that ends in a shorthand gets the number of its occurrence. -/
def expanded (attributes : List Markup) : List Markup :=
  expandedFrom [] attributes

/-- The attributes arranged so far: those in place, the props behind the last
    spread, and the meta props, each with the last one first. -/
structure Arrangement where
  placed : List Markup := []
  pending : List (String × Markup) := []
  deferred : List Markup := []
  behindSpread : Bool := false

namespace Arrangement

/-- The attributes in place once the pending props are grouped. -/
def flushed (a : Arrangement) : List Markup :=
  if a.pending.isEmpty then a.placed else .group a.pending.reverse :: a.placed

/-- Takes one more attribute. -/
def add (a : Arrangement) : Markup → Arrangement
  | .prop name value =>
    if Markup.isMeta name then { a with deferred := .prop name value :: a.deferred }
    else if a.behindSpread then { a with pending := (name, value) :: a.pending }
    else { a with placed := .prop name value :: a.placed }
  | .spread value =>
    { a with placed := .spread value :: a.flushed, pending := [], behindSpread := true }
  | other => { a with placed := other :: a.placed }

end Arrangement

/-- The order in which attributes are rendered: props behind a spread in a
    group before the next spread, and meta props at the end. -/
def arranged (attributes : List Markup) : List Markup :=
  let a := attributes.foldl Arrangement.add {}
  a.flushed.reverse ++ a.deferred.reverse

/-- The attributes as they are rendered, and the path that receives the children
    if a directive names one. -/
def prepared (attributes : List Markup) : Except Fault (List Markup × Option String) :=
  (withoutDirectives attributes).map fun (kept, children) => (arranged (expanded kept), children)

end Fusion

end Afx
