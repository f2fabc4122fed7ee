import Afx.Data.Association
import Afx.Files.Path

/-!
# A Tree of Files

Files are kept as a finite map from places to entries. A place is the list of
names from the root to it, without leads to parents; the root is always a
directory. A route is followed from the root, and every component before the
last has to lead to a directory, also before a lead back to the parent. A name
that is too long is noticed where it is looked up, and a route that is too long
or holds a null character before it is followed at all.

## Main definitions

* `Entry`: A directory, or a file with its content.
* `Tree`: The entries by their places.
* `Tree.enter`: The directory that a route leads to.
* `Tree.find`: The place that a route leads to, and what is there.
* `Tree.isThere`: Whether a route leads to anything.
* `Tree.put`, `Tree.remove`: Changes at one place.

## Theorems

* `Tree.get?_put`, `Tree.get?_remove`: A change at one place is one at no
  other.
-/

namespace Afx

namespace Files

-- Contents are compared by one instance, also where others are in scope.
local instance (priority := high) decidableEqContent : DecidableEq ByteArray :=
  ByteArray.instDecidableEq

/-- A directory, or a file with its content. -/
inductive Entry where
  | directory
  | file (content : ByteArray)
  deriving DecidableEq

/-- Why an operation on files fails. -/
inductive FileFault where
  /-- Something on the way is missing. -/
  | notFound
  /-- Something on the way is a file. -/
  | notADirectory
  /-- There is something already. -/
  | alreadyExists
  /-- There is a directory where a file is wanted. -/
  | isADirectory
  /-- The place is a parent or the root, which cannot be replaced. -/
  | busy
  /-- A name or the whole route is too long. -/
  | nameTooLong
  /-- The route holds a null character. -/
  | nullCharacter
  /-- More directories are missing on the way than are made at once. -/
  | tooManyDirectories
  deriving DecidableEq, Repr

/-- The names from the root to an entry. -/
abbrev Place := List String

/-- The entries by their places. The root has no entry of its own. -/
structure Tree where
  entries : List (Place × Entry) := []

namespace Tree

/-- What is at a place; the root is a directory. -/
def get? (t : Tree) (p : Place) : Option Entry :=
  if p.isEmpty then some .directory else t.entries.lookup p

/-- Puts an entry at a place, instead of what was there. -/
def put (t : Tree) (p : Place) (e : Entry) : Tree :=
  ⟨assign p e t.entries⟩

/-- Takes the entry at a place away. -/
def remove (t : Tree) (p : Place) : Tree :=
  ⟨retract p t.entries⟩

/-- The directory that components lead to from a directory. -/
def enter (t : Tree) (here : Place) : List String → Except FileFault Place
  | [] => .ok here
  | c :: rest =>
    if nameLimit < c.utf8ByteSize then .error .nameTooLong
    else
      let next := if c == parentMark then here.dropLast else here ++ [c]
      match t.get? next with
      | some .directory => t.enter next rest
      | some (.file _) => .error .notADirectory
      | none => .error .notFound

/-- What keeps a route from being followed at all. -/
def checkRoute (r : Route) : Except FileFault Unit :=
  if hasNull r.text then .error .nullCharacter
  else if routeLimit < r.text.utf8ByteSize then .error .nameTooLong
  else .ok ()

/-- The place that a route leads to, and what is there. A route that ends in no name leads
    to a directory; any other leads into one, in which its name may be missing. -/
def find (t : Tree) (r : Route) : Except FileFault (Place × Option Entry) := do
  checkRoute r
  if r.isNameless then return (← t.enter [] r.way, some .directory)
  else
    let parent ← t.enter [] r.parent.way
    if nameLimit < r.name.utf8ByteSize then .error .nameTooLong
    else return (parent ++ [r.name], t.get? (parent ++ [r.name]))

/-- What a route leads to, if anything. -/
def look? (t : Tree) (r : Route) : Option Entry :=
  match t.find r with
  | .ok (_, found) => found
  | .error _ => none

/-- Whether a route leads to anything. -/
def leads (t : Tree) (r : Route) : Bool :=
  (t.look? r).isSome

/-- Whether a route leads to anything, for those who need to know why not: a
    name that is too long leaves the question open. -/
def isThere (t : Tree) (r : Route) : Except FileFault Bool :=
  match t.find r with
  | .ok (_, found) => .ok found.isSome
  | .error .nameTooLong => .error .nameTooLong
  | .error _ => .ok false

/-- Whether a route leads to a directory. -/
def isDirectory (t : Tree) (r : Route) : Bool :=
  match t.look? r with
  | some .directory => true
  | _ => false

theorem get?_put {t : Tree} {p q : Place} {e : Entry} (hq : q ≠ []) :
    (t.put p e).get? q = if q == p then some e else t.get? q := by
  have hne : q.isEmpty = false := by simpa using hq
  simp [get?, put, hne, lookup_assign]

theorem get?_remove {t : Tree} {p q : Place} (hq : q ≠ []) :
    (t.remove p).get? q = if q == p then none else t.get? q := by
  have hne : q.isEmpty = false := by simpa using hq
  simp [get?, remove, hne, lookup_retract]

end Tree

end Files

end Afx
