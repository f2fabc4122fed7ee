import Afx.Text.Segments

/-!
# Paths

A path is written as components with slashes between them; empty components
and single dots say nothing. A component of two dots leads to the parent, which
is a question for the file system: the directory before it has to be there.
Where only the writing counts, the two cancel each other.

A path that starts with a slash starts at the root. Any other starts in a directory,
which is not part of its writing: it counts neither for how the path is shown nor for
how long it is.

The last component is a name, and a name may have a suffix, which starts at its
last dot. A dot at either end of the name starts no suffix.

File systems take names and routes only up to a length, which is counted in
bytes, and no null characters in them.

## Main definitions

* `components`: What a written path says.
* `stem`, `suffix`: The two parts of a name.
* `Route`: A path with its start, and with its leads to parents kept.
* `Route.ofText`: The route of a written path.
* `Route.way`: All components on the way from the root.
* `Route.cancelled`: The route from the root, with its leads to parents cancelled.
* `nameLimit`, `routeLimit`: How long names and routes may be.
-/

namespace Afx

namespace Files

/-- The component that leads to the parent. -/
def parentMark : String := ".."

/-- The components of a written path. -/
def components (path : String) : List String :=
  ((Text.segments '/' path.toList).map String.ofList).filter fun c => c != "" && c != "."

/-- The last component of a written path, empty if there is none. -/
def lastName (path : String) : String :=
  (components path).getLast?.getD ""

/-- The stem and the suffix of a name. -/
def splitName (name : String) : String × String :=
  let back := name.toList.reverse
  match back.takeWhile (· != '.'), back.dropWhile (· != '.') with
  | e :: ending, dot :: c :: front =>
    (String.ofList (c :: front).reverse, String.ofList (dot :: (e :: ending).reverse))
  | _, _ => (name, "")

/-- A name without its suffix. -/
def stem (name : String) : String :=
  (splitName name).1

/-- The suffix of a name with its dot, empty if there is none. -/
def suffix (name : String) : String :=
  (splitName name).2

/-- How many bytes a name may have. -/
def nameLimit : Nat := 255

/-- How many bytes a route may have. -/
def routeLimit : Nat := 4095

/-- Whether a path holds a null character. -/
def hasNull (path : String) : Bool :=
  path.toList.contains '\x00'

/-- A path as it is written, with its leads to parents. -/
structure Route where
  /-- The way from the root to the directory in which the path starts, and nothing for
      a path that starts at the root itself. -/
  start : Option (List String)
  components : List String
  deriving DecidableEq, Repr

namespace Route

/-- The route from the root along components. -/
def fromRoot (components : List String) : Route :=
  ⟨none, components⟩

/-- All components on the way from the root. -/
def way (r : Route) : List String :=
  r.start.getD [] ++ r.components

/-- The route as it is written; a dot stands for the directory in which it starts. -/
def text (r : Route) : String :=
  match r.start, r.components with
  | none, _ => "/" ++ Text.joined "/" r.components
  | some _, [] => "."
  | some _, _ => Text.joined "/" r.components

/-- The route of a path that is written in the directory `here`. -/
def ofText (here : Route) (path : String) : Route :=
  if path.toList.head? == some '/' then fromRoot (Files.components path)
  else ⟨some here.way, Files.components path⟩

/-- The last component, empty if there is none. -/
def name (r : Route) : String :=
  r.components.getLast?.getD ""

/-- The route without its last component. -/
def parent (r : Route) : Route :=
  ⟨r.start, r.components.dropLast⟩

/-- Whether the route ends in no name of an entry: it is the root, or the directory in
    which it starts, or it ends in a lead to a parent. -/
def isNameless (r : Route) : Bool :=
  r.components.isEmpty || r.name == parentMark

/-- The route from the root, with every lead to a parent cancelled against what stands
    before it. -/
def cancelled (r : Route) : Route :=
  fromRoot (r.way.foldl (fun kept c => if c == parentMark then kept.dropLast else kept ++ [c]) [])

end Route

end Files

end Afx
