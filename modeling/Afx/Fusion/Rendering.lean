import Afx.Data.Association
import Afx.Fusion.Attributes
import Afx.Fusion.Value
import Afx.Text.Blank

/-!
# From Markup to Fusion

A tag becomes an object: of its own name if that refers to a prototype, and
else of the prototype for plain tags, which is told the name of the tag. The
attributes become entries, then the children that a directive gives a path of
their own, and last the other children together. Siblings become a single
value, or an object with one entry for each if there are several that can be
seen.

Rendering follows nested markup only so far. Every step into a part of the
markup spends one unit of a budget: into a sibling list and one of its members,
into an attribute, its value and a group of them, and into the value itself.
Children with a path of their own are entered directly and so cost least.

## Main definitions

* `Vocabulary`: The names that objects and children get.
* `visible`: The siblings that can be seen, with their layout removed.
* `placedChildren`, `contentChildren`: The children of a tag with and without a
  path of their own.
* `collect`: Renders one part after another.
* `value`, `siblings`: The Fusion value of markup and of a list of siblings.
* `budget`: How far nested markup is followed.
-/

namespace Afx

namespace Fusion

/-- The prototypes of objects that markup does not name itself, and the path of
    a tag's children. -/
structure Vocabulary where
  tag : String
  join : String
  dataStructure : String
  children : String

/-- What can be seen of a sibling: no comment, no null, and text without its layout. -/
def visible? : Markup → Option Markup
  | .comment _ => none
  | .foreign .null => none
  | .text raw => if Markup.normalise raw == "" then none else some (.text (Markup.normalise raw))
  | other => some other

/-- The siblings that can be seen. -/
def visible (values : List Markup) : List Markup :=
  values.filterMap visible?

/-- The path of the member with this number in an object of siblings: what a
    tag asks for, else a name with the number. -/
def memberPath (number : Nat) : Markup → Except Fault String
  | .element _ _ attributes _ =>
    match Markup.lastProp? "@key" attributes with
    | some key => payload "@key" key
    | none => .ok ("item_" ++ toString number)
  | _ => .ok ("item_" ++ toString number)

/-- The path of its own that a child asks for, if it is a tag with one. -/
def ownPath? : Markup → Option (Except Fault String)
  | .element _ _ attributes _ => (Markup.lastProp? "@path" attributes).map (payload "@path")
  | _ => none

/-- Puts the children with a path of their own at their paths, after those that
    are placed before them. -/
def placedFrom (placed : List (String × Markup)) :
    List Markup → Except Fault (List (String × Markup))
  | [] => .ok placed
  | child :: rest =>
    match ownPath? child with
    | none => placedFrom placed rest
    | some (.ok path) => placedFrom (assign path child placed) rest
    | some (.error fault) => .error fault

/-- The children with a path of their own, in the order in which their paths
    first appear; of several with one path the last counts. -/
def placedChildren (children : List Markup) : Except Fault (List (String × Markup)) :=
  placedFrom [] children

/-- The children without a path of their own. -/
def contentChildren (children : List Markup) : List Markup :=
  children.filter fun child => (ownPath? child).isNone

/-- Numbers the attributes that merge in other properties, which are the spreads
    and groups; an attribute has the number that the next of them gets. -/
def numbered (next : Nat) : List Markup → List (Nat × Markup)
  | [] => []
  | attr :: rest =>
    match attr with
    | .spread _ | .group _ => (next, attr) :: numbered (next + 1) rest
    | _ => (next, attr) :: numbered next rest

/-- Plain tags keep their attributes in a place of their own. -/
def scope (name : String) : String :=
  if Markup.isPrototype name then "" else "attributes."

/-- The path of a prop; meta props have no scope. -/
def propPath (within name : String) : String :=
  if Markup.isMeta name then name else within ++ name

/-- The path of the spread or group with this number. -/
def applyPath (within : String) (number : Nat) : String :=
  within ++ "@apply.spread_" ++ toString number

/-- The prototype of a tag's object. -/
def Vocabulary.prototype (v : Vocabulary) (name : String) : String :=
  if Markup.isPrototype name then name else v.tag

/-- What the object of a plain tag is told about the tag. -/
def introduction (name : String) (selfClosing : Bool) : List (String × Value) :=
  if Markup.isPrototype name then []
  else ("tagName", .text name) :: if selfClosing then [("selfClosingTag", .boolean true)] else []

/-- Renders one part after another and keeps what renders as something. -/
def collect {α β : Type} (render : α → Except Fault (Option β)) :
    List α → Except Fault (List β)
  | [] => .ok []
  | part :: rest =>
    match render part with
    | .error fault => .error fault
    | .ok none => collect render rest
    | .ok (some rendered) => (collect render rest).map (rendered :: ·)

mutual

/-- The value of a list of siblings. -/
def siblings (v : Vocabulary) : Nat → List Markup → Except Fault Value
  | 0, _ => .error .nestedTooDeeply
  | budget + 1, values =>
    match visible values with
    | [] => .ok (.text "")
    | [single] => do return (← member v budget single).getD (.text "")
    | several => do
      let entries ← collect (fun (one, number) => do
        let path ← memberPath number one
        return (← member v budget one).map fun rendered => (path, rendered)) (several.zipIdx 1)
      return .object v.join entries

/-- The value of one of several siblings. -/
def member (v : Vocabulary) : Nat → Markup → Except Fault (Option Value)
  | 0, _ => .error .nestedTooDeeply
  | budget + 1, one => value v budget one

/-- The value of markup; a comment has none. -/
def value (v : Vocabulary) : Nat → Markup → Except Fault (Option Value)
  | 0, _ => .error .nestedTooDeeply
  | _ + 1, .expression code => .ok (some (.expression code))
  | _ + 1, .literal content => .ok (some (.text content))
  | _ + 1, .text raw => .ok (some (.text raw))
  | _ + 1, .flag set => .ok (some (.boolean set))
  | _ + 1, .comment _ => .ok none
  | budget + 1, .element name selfClosing attributes children => do
    -- The first fault counts, so the order is that of the entries.
    let (rendered, property) ← prepared attributes
    let fields ← collect (fun (number, attr) => field v budget (scope name) number attr)
      (numbered 1 rendered)
    -- All paths are known before the first child is rendered.
    let placed ← placedChildren children
    let paths ← collect (fun (path, child) => do
      return (← value v budget child).map fun inner => (path, inner)) placed
    let content := contentChildren children
    let body ← if content.isEmpty then pure []
      else (siblings v budget content).map fun inner => [(property.getD v.children, inner)]
    return some (.object (v.prototype name)
      (introduction name selfClosing ++ fields ++ paths ++ body))
  | _ + 1, other => .error (.unknownValue other.kindName)

/-- The entry of an attribute; a prop whose value is a comment has none. -/
def field (v : Vocabulary) : Nat → String → Nat → Markup → Except Fault (Option (String × Value))
  | 0, _, _, _ => .error .nestedTooDeeply
  | budget + 1, within, _, .prop name payload => assignment v budget (propPath within name) payload
  | _ + 1, within, number, .spread (.expression code) =>
    .ok (some (applyPath within number, .expression code))
  | _ + 1, _, _, .spread other => .error (.spreadPayload other.kindName)
  | budget + 1, within, number, .group props => do
    return some (applyPath within number, ← collection v budget props)
  | _ + 1, _, _, other => .error (.unknownAttribute other.kindName)

/-- The object of a group of props. -/
def collection (v : Vocabulary) : Nat → List (String × Markup) → Except Fault Value
  | 0, _ => .error .nestedTooDeeply
  | budget + 1, props => do
    let entries ← collect (fun (name, payload) => assignment v budget name payload) props
    return .object v.dataStructure entries

/-- The entry that assigns a value to a path, unless it renders as nothing. -/
def assignment (v : Vocabulary) : Nat → String → Markup → Except Fault (Option (String × Value))
  | 0, _, _ => .error .nestedTooDeeply
  | budget + 1, path, payload => do
    return (← value v budget payload).map fun rendered => (path, rendered)

end

/-- How far nested markup is followed. -/
def budget : Nat := 988

end Fusion

end Afx
