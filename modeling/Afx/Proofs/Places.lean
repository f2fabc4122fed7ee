import Afx.Files.Store
import Mathlib.Data.List.Induction

/-!
# Where Routes Lead

Following a route through a tree is walking along its components, with every
directory on the way looked at. Where the walk ends does not depend on the
tree: a lead to a parent always goes back by one name, so a route that can be
followed ends at the place that its writing tells. What depends on the tree is
only whether it can be followed, and a tree with more directories than another
lets more routes be followed.

Not every list of entries is a tree of files. In one that is, every entry is in
a directory, and this is what makes a route without leads to parents fail to be
followed only if there is nothing at its end.

## Main definitions

* `walked`: The place at the end of a walk.
* `Route.OnWay`: The routes that lead to a route.
* `Tree.Names`: A route can be followed to a directory and names something in it.
* `Tree.Closed`: Every entry of the tree is in a directory.
* `Tree.Grown`: A tree has new directories along a way, and is else the same.

## Theorems

* `walked_of_enter`: A walk that succeeds ends where it is written to end.
* `enter_of_directories`: More directories let more routes be followed.
* `enter_of_enter`: A route that can be followed can be followed cancelled.
* `find_eq_ok`: What a route that was followed leads to.
* `enter_eq_error`: Where a walk fails.
* `Tree.Closed.enter_ne_notFound`: In a closed tree the way to an entry is not
  missing.
* `Tree.Grown.trans`: Growth along a way and further along it.
-/

namespace Afx

namespace Files

variable {t u v : Tree}

/-- The place one component further. -/
def stepped (here : Place) (c : String) : Place :=
  if c == parentMark then here.dropLast else here ++ [c]

/-- The place at the end of a walk. -/
def walked (here : Place) (way : List String) : Place :=
  way.foldl stepped here

theorem stepped_of_ne {here : Place} {c : String} (hc : c ≠ parentMark) :
    stepped here c = here ++ [c] := by
  rw [stepped, if_neg (by simpa using hc)]

theorem cancelled_components (r : Route) : r.cancelled.components = walked [] r.way := rfl

theorem walked_append (here : Place) (way more : List String) :
    walked here (way ++ more) = walked (walked here way) more :=
  List.foldl_append

/-- Without leads to parents a walk ends at the names it goes along. -/
theorem walked_of_not_mem {here : Place} {way : List String} (h : parentMark ∉ way) :
    walked here way = here ++ way := by
  induction way generalizing here with
  | nil => simp [walked]
  | cons c rest ih =>
      have hc : c ≠ parentMark := fun e => h (e ▸ List.mem_cons_self)
      have hrest : parentMark ∉ rest := fun hm => h (List.mem_cons_of_mem _ hm)
      calc walked here (c :: rest) = walked (stepped here c) rest := rfl
        _ = here ++ c :: rest := by rw [stepped_of_ne hc, ih hrest, List.append_assoc]; rfl

/-- A cancelled route has no leads to parents left. -/
theorem parentMark_not_mem_walked {here : Place} {way : List String} (h : parentMark ∉ here) :
    parentMark ∉ walked here way := by
  induction way generalizing here with
  | nil => exact h
  | cons c rest ih =>
      refine ih ?_
      unfold stepped
      split
      · exact fun hm => h (List.dropLast_sublist here |>.mem hm)
      · rename_i hc
        intro hm
        rcases List.mem_append.mp hm with hm | hm
        · exact h hm
        · exact hc (by simpa using (List.mem_singleton.mp hm).symm)

namespace Route

variable {r : Route}

theorem isNameless_eq_false :
    r.isNameless = false ↔ r.components ≠ [] ∧ r.name ≠ parentMark := by
  simp [isNameless]

theorem components_eq (h : r.components ≠ []) :
    r.components = r.parent.components ++ [r.name] := by
  have hname : r.name = r.components.getLast h := by
    rw [name, List.getLast?_eq_some_getLast h]
    rfl
  rw [hname, parent, List.dropLast_concat_getLast h]

theorem way_eq (h : r.components ≠ []) : r.way = r.parent.way ++ [r.name] := by
  calc r.way = r.start.getD [] ++ (r.parent.components ++ [r.name]) := by
        rw [← components_eq h, way]
    _ = r.parent.way ++ [r.name] := by
        rw [← List.append_assoc]
        rfl

/-- A way without leads to parents has nothing to cancel. -/
theorem cancelled_of_plain (h : parentMark ∉ r.way) : r.cancelled.components = r.way := by
  rw [cancelled_components, walked_of_not_mem h, List.nil_append]

theorem parentMark_not_mem_cancelled (r : Route) : parentMark ∉ r.cancelled.components :=
  parentMark_not_mem_walked (by simp)

@[simp]
theorem name_concat (start : Option (List String)) (way : List String) (last : String) :
    name ⟨start, way ++ [last]⟩ = last := by
  simp [name]

@[simp]
theorem parent_concat (start : Option (List String)) (way : List String) (last : String) :
    parent ⟨start, way ++ [last]⟩ = ⟨start, way⟩ := by
  simp [parent]

/-- A route is another one, or one of those that lead to it. -/
def OnWay (outer r : Route) : Prop :=
  outer.start = r.start ∧ outer.components <+: r.components

theorem OnWay.refl (r : Route) : r.OnWay r :=
  ⟨rfl, List.prefix_rfl⟩

theorem OnWay.parent (r : Route) : r.parent.OnWay r :=
  ⟨rfl, List.dropLast_prefix _⟩

theorem OnWay.trans {outer middle : Route} (h : outer.OnWay middle) (h' : middle.OnWay r) :
    outer.OnWay r :=
  ⟨h.1.trans h'.1, h.2.trans h'.2⟩

theorem OnWay.prefix_way {outer : Route} (h : outer.OnWay r) : outer.way <+: r.way := by
  rw [way, way, h.1]
  exact (List.prefix_append_right_inj _).mpr h.2

end Route

/-! ## One place of a tree -/

@[simp]
theorem get?_nil : t.get? [] = some .directory := rfl

theorem get?_put_self {p : Place} {e : Entry} (hp : p ≠ []) : (t.put p e).get? p = some e := by
  rw [Tree.get?_put hp, if_pos (beq_self_eq_true p)]

theorem get?_put_of_ne {p q : Place} {e : Entry} (h : q ≠ p) :
    (t.put p e).get? q = t.get? q := by
  by_cases hq : q = []
  · subst hq
    rfl
  · rw [Tree.get?_put hq, if_neg (by simpa using h)]

/-- An entry that takes no directory's place leaves all directories. -/
theorem directory_put {p q : Place} {e : Entry} (hold : t.get? p ≠ some .directory)
    (hq : t.get? q = some .directory) : (t.put p e).get? q = some .directory := by
  rw [get?_put_of_ne, hq]
  rintro rfl
  exact hold hq

/-- A file that is put is no new directory. -/
theorem directory_of_put {p q : Place} {content : ByteArray} (hp : p ≠ [])
    (h : (t.put p (.file content)).get? q = some .directory) : t.get? q = some .directory := by
  have hq : q ≠ p := by
    rintro rfl
    rw [get?_put_self hp] at h
    simp at h
  rwa [get?_put_of_ne hq] at h

/-- Taking away what was put at a free place gives the tree back. -/
theorem remove_put {p : Place} {e : Entry} (hp : p ≠ []) (h : t.get? p = none) :
    (t.put p e).remove p = t := by
  have hfree : t.entries.lookup p = none := by simpa [Tree.get?, hp] using h
  have hne : ∀ entry ∈ t.entries, entry.1 ≠ p := by
    intro entry hentry heq
    have hmem := List.lookup_eq_none_iff.mp hfree entry hentry
    exact absurd (beq_iff_eq.mpr heq.symm) (by simpa using hmem)
  -- A free place gets its entry at the end of the list, where it is taken away again.
  have hput : ∀ entries : List (Place × Entry), (∀ entry ∈ entries, entry.1 ≠ p) →
      retract p (assign p e entries) = entries := by
    intro entries hall
    induction entries with
    | nil => simp [assign, retract]
    | cons entry rest ih =>
        rcases entry with ⟨q, old⟩
        have hq : q ≠ p := hall (q, old) List.mem_cons_self
        have hrest := ih fun x hx => hall x (List.mem_cons_of_mem _ hx)
        rw [assign, if_neg (by simpa using hq), retract,
          List.filter_cons_of_pos (by simpa using hq)]
        exact congrArg _ hrest
  exact congrArg Tree.mk (hput t.entries hne)

/-! ## Walks through a tree -/

/-- A component that is not too long leads on if there is a directory. -/
theorem enter_of_short {here : Place} {c : String} {rest : List String}
    (hc : c.utf8ByteSize ≤ nameLimit) :
    t.enter here (c :: rest) = match t.get? (stepped here c) with
      | some .directory => t.enter (stepped here c) rest
      | some (.file _) => .error .notADirectory
      | none => .error .notFound := by
  rw [Tree.enter, if_neg (Nat.not_lt.mpr hc)]
  rfl

theorem enter_cons {here p : Place} {c : String} {rest : List String} :
    t.enter here (c :: rest) = .ok p ↔
      c.utf8ByteSize ≤ nameLimit ∧ t.get? (stepped here c) = some .directory ∧
        t.enter (stepped here c) rest = .ok p := by
  by_cases hc : c.utf8ByteSize ≤ nameLimit
  · rw [enter_of_short hc]
    cases hget : t.get? (stepped here c) with
    | none => simp
    | some e => cases e <;> simp [hc]
  · simp [Tree.enter, if_pos (Nat.lt_of_not_le hc), hc]

theorem enter_append {here p : Place} {way more : List String} :
    t.enter here (way ++ more) = .ok p ↔
      ∃ middle, t.enter here way = .ok middle ∧ t.enter middle more = .ok p := by
  induction way generalizing here with
  | nil => simp [Tree.enter]
  | cons c rest ih =>
      simp only [List.cons_append, enter_cons, ih]
      constructor
      · rintro ⟨hc, hdir, middle, hm, hp⟩
        exact ⟨middle, ⟨hc, hdir, hm⟩, hp⟩
      · rintro ⟨middle, ⟨hc, hdir, hm⟩, hp⟩
        exact ⟨hc, hdir, middle, hm, hp⟩

/-- A walk that succeeds ends where it is written to end. -/
theorem walked_of_enter {here p : Place} {way : List String} (h : t.enter here way = .ok p) :
    p = walked here way := by
  induction way generalizing here with
  | nil =>
      simp only [Tree.enter, Except.ok.injEq] at h
      exact h.symm
  | cons c rest ih => exact ih (enter_cons.mp h).2.2

theorem directory_of_enter {here p : Place} {way : List String} (h : t.enter here way = .ok p)
    (hhere : t.get? here = some .directory) : t.get? p = some .directory := by
  induction way generalizing here with
  | nil =>
      simp only [Tree.enter, Except.ok.injEq] at h
      exact h ▸ hhere
  | cons c rest ih =>
      rcases enter_cons.mp h with ⟨-, hdir, hrest⟩
      exact ih hrest hdir

/-- More directories let more routes be followed. -/
theorem enter_of_directories
    (hdirs : ∀ p, t.get? p = some .directory → u.get? p = some .directory)
    {here p : Place} {way : List String} (h : t.enter here way = .ok p) :
    u.enter here way = .ok p := by
  induction way generalizing here with
  | nil => exact h
  | cons c rest ih =>
      rcases enter_cons.mp h with ⟨hc, hdir, hrest⟩
      exact enter_cons.mpr ⟨hc, hdirs _ hdir, ih hrest⟩

/-- What can be followed can be followed on from its end. -/
theorem enter_append_of_ok {here middle : Place} {way : List String}
    (h : t.enter here way = .ok middle) (more : List String) :
    t.enter here (way ++ more) = t.enter middle more := by
  induction way generalizing here with
  | nil =>
      simp only [Tree.enter, Except.ok.injEq] at h
      rw [h, List.nil_append]
  | cons c rest ih =>
      rcases enter_cons.mp h with ⟨hc, hdir, hrest⟩
      rw [List.cons_append, enter_of_short hc, hdir]
      exact ih hrest

/-- What can be followed can also be followed with its leads to parents cancelled. -/
theorem enter_of_enter {way : List String} {p : Place} (h : t.enter [] way = .ok p) :
    t.enter [] p = .ok p := by
  induction way using List.reverseRecOn generalizing p with
  | nil =>
      simp only [Tree.enter, Except.ok.injEq] at h
      rw [← h, Tree.enter]
  | append_singleton outer c ih =>
      rcases enter_append.mp h with ⟨q, houter, hc⟩
      have hq := ih houter
      rcases enter_cons.mp hc with ⟨hshort, hdir, hend⟩
      simp only [Tree.enter, Except.ok.injEq] at hend
      by_cases hmark : c = parentMark
      · -- The lead to the parent undoes the last step of a way that is plain.
        have hp : p = q.dropLast := by rw [← hend, stepped, if_pos (by simpa using hmark)]
        have hplain : parentMark ∉ p := by
          rw [hp, walked_of_enter houter]
          exact fun hm => parentMark_not_mem_walked (by simp) (List.dropLast_sublist _ |>.mem hm)
        rcases List.dropLast_prefix q with ⟨last, hlast⟩
        rw [← hlast, enter_append, ← hp] at hq
        rcases hq with ⟨middle, hmiddle, -⟩
        rw [hmiddle, walked_of_enter hmiddle, walked_of_not_mem hplain, List.nil_append]
      · have hp : p = q ++ [c] := by rw [← hend, stepped_of_ne hmark]
        rw [hp, enter_append]
        refine ⟨q, hq, enter_cons.mpr ⟨hshort, hdir, ?_⟩⟩
        rw [stepped_of_ne hmark, Tree.enter]

theorem checkRoute_ne_notFound (r : Route) : Tree.checkRoute r ≠ .error .notFound := by
  unfold Tree.checkRoute
  split
  · simp
  · split <;> simp

/-- A route that ends in no name is entered as a whole. -/
theorem find_of_nameless {r : Route} (h : r.isNameless = true) :
    t.find r = (Tree.checkRoute r).bind fun _ =>
      (t.enter [] r.way).bind fun place => .ok (place, some .directory) := by
  unfold Tree.find
  rw [if_pos h]
  rfl

/-- A route that ends in a name is entered up to it. -/
theorem find_of_named {r : Route} (h : r.isNameless = false) :
    t.find r = (Tree.checkRoute r).bind fun _ =>
      (t.enter [] r.parent.way).bind fun parent =>
        if nameLimit < r.name.utf8ByteSize then .error .nameTooLong
        else .ok (parent ++ [r.name], t.get? (parent ++ [r.name])) := by
  unfold Tree.find
  rw [if_neg (by simp [h])]
  rfl

/-- Looking a route up finds something missing only on the way. -/
theorem enter_of_find_notFound {r : Route} (h : t.find r = .error .notFound) :
    ∃ outer : Route, outer.OnWay r ∧ t.enter [] outer.way = .error .notFound := by
  cases hcheck : Tree.checkRoute r with
  | error fault =>
      have hfault : fault ≠ .notFound := by
        rintro rfl
        exact checkRoute_ne_notFound r hcheck
      cases hname : r.isNameless with
      | true => simp [find_of_nameless hname, hcheck, Except.bind, hfault] at h
      | false => simp [find_of_named hname, hcheck, Except.bind, hfault] at h
  | ok _ =>
      cases hname : r.isNameless with
      | true =>
          refine ⟨r, .refl r, ?_⟩
          rw [find_of_nameless hname, hcheck] at h
          cases henter : t.enter [] r.way with
          | error fault => simpa [henter, Except.bind] using h
          | ok place => simp [henter, Except.bind] at h
      | false =>
          refine ⟨r.parent, .parent r, ?_⟩
          rw [find_of_named hname, hcheck] at h
          cases henter : t.enter [] r.parent.way with
          | error fault => simpa [henter, Except.bind] using h
          | ok parent =>
              simp only [henter, Except.bind] at h
              split at h <;> simp at h

/-- The route can be followed to a directory, in which it names something. -/
structure Tree.Names (t : Tree) (r : Route) (parent : Place) : Prop where
  named : r.isNameless = false
  followed : Tree.checkRoute r = .ok ()
  short : r.name.utf8ByteSize ≤ nameLimit
  entered : t.enter [] r.parent.way = .ok parent

namespace Tree.Names

variable {r : Route} {parent : Place}

theorem ne_nil (h : t.Names r parent) : r.components ≠ [] :=
  (Route.isNameless_eq_false.mp h.named).1

theorem find (h : t.Names r parent) :
    t.find r = .ok (parent ++ [r.name], t.get? (parent ++ [r.name])) := by
  simp [find_of_named h.named, h.followed, h.entered, Except.bind, Nat.not_lt.mpr h.short]

theorem of_directories (hdirs : ∀ p, t.get? p = some .directory → u.get? p = some .directory)
    (h : t.Names r parent) : u.Names r parent :=
  { h with entered := enter_of_directories hdirs h.entered }

theorem stepped_eq (h : t.Names r parent) : stepped parent r.name = parent ++ [r.name] :=
  stepped_of_ne (Route.isNameless_eq_false.mp h.named).2

/-- A directory that a route names can be entered along the whole route. -/
theorem enter_self (h : t.Names r parent) (hdir : t.get? (parent ++ [r.name]) = some .directory) :
    t.enter [] r.way = .ok (parent ++ [r.name]) := by
  rw [Route.way_eq h.ne_nil, enter_append]
  refine ⟨parent, h.entered, enter_cons.mpr ⟨h.short, ?_, ?_⟩⟩
  · rw [h.stepped_eq, hdir]
  · rw [h.stepped_eq]
    rfl

theorem place_eq (h : t.Names r parent) : parent ++ [r.name] = r.cancelled.components := by
  rw [cancelled_components, Route.way_eq h.ne_nil, walked_append, ← walked_of_enter h.entered]
  exact h.stepped_eq.symm

end Tree.Names

/-- What was found at the end of a route, which ends in no name or has one. -/
theorem find_eq_ok {r : Route} {p : Place} {e : Option Entry} (h : t.find r = .ok (p, e)) :
    (r.isNameless = true ∧ t.enter [] r.way = .ok p ∧ e = some .directory) ∨
      ∃ parent, t.Names r parent ∧ p = parent ++ [r.name] ∧ e = t.get? p := by
  cases hname : r.isNameless with
  | true =>
      refine Or.inl ⟨rfl, ?_⟩
      rw [find_of_nameless hname] at h
      cases hcheck : Tree.checkRoute r with
      | error fault => simp [hcheck, Except.bind] at h
      | ok _ =>
          cases henter : t.enter [] r.way with
          | error fault => simp [hcheck, henter, Except.bind] at h
          | ok place =>
              simp only [hcheck, henter, Except.bind, Except.ok.injEq, Prod.mk.injEq] at h
              exact ⟨by rw [h.1], h.2.symm⟩
  | false =>
      refine Or.inr ?_
      rw [find_of_named hname] at h
      cases hcheck : Tree.checkRoute r with
      | error fault => simp [hcheck, Except.bind] at h
      | ok _ =>
          cases henter : t.enter [] r.parent.way with
          | error fault => simp [hcheck, henter, Except.bind] at h
          | ok parent =>
              simp only [hcheck, henter, Except.bind] at h
              split at h
              · simp at h
              · rename_i hsize
                simp only [Except.ok.injEq, Prod.mk.injEq] at h
                rcases h with ⟨rfl, rfl⟩
                exact ⟨parent, ⟨hname, hcheck, Nat.le_of_not_lt hsize, henter⟩, rfl, rfl⟩

/-- Anything but a directory is found by its name in the directory it is in. -/
theorem names_of_find {r : Route} {p : Place} {e : Option Entry} (h : t.find r = .ok (p, e))
    (he : e ≠ some .directory) :
    ∃ parent, t.Names r parent ∧ p = parent ++ [r.name] ∧ e = t.get? p := by
  rcases find_eq_ok h with ⟨-, -, hdir⟩ | hnames
  · exact absurd hdir he
  · exact hnames

/-- A route to a directory can be followed to its end. -/
theorem enter_of_find {r : Route} {p : Place} (h : t.find r = .ok (p, some .directory)) :
    t.enter [] r.way = .ok p := by
  rcases find_eq_ok h with ⟨-, henter, -⟩ | ⟨parent, hnames, rfl, hdir⟩
  · exact henter
  · exact hnames.enter_self hdir.symm

theorem find_of_isDirectory {r : Route} (h : t.isDirectory r = true) :
    ∃ p, t.find r = .ok (p, some .directory) := by
  unfold Tree.isDirectory Tree.look? at h
  cases hfind : t.find r with
  | error fault => simp [hfind] at h
  | ok found =>
      rcases found with ⟨p, e⟩
      cases e with
      | none => simp [hfind] at h
      | some e =>
          cases e with
          | directory => exact ⟨p, rfl⟩
          | file content => simp [hfind] at h

/-- Where a walk fails: at the first component that is too long, or that leads to
    a file or to nothing. -/
theorem enter_eq_error {here : Place} {way : List String} {fault : FileFault}
    (h : t.enter here way = .error fault) :
    ∃ part c rest middle, way = part ++ c :: rest ∧ t.enter here part = .ok middle ∧
      (fault = .nameTooLong ∧ nameLimit < c.utf8ByteSize ∨
        fault = .notADirectory ∧ (∃ content, t.get? (stepped middle c) = some (.file content)) ∨
        fault = .notFound ∧ t.get? (stepped middle c) = none) := by
  induction way generalizing here with
  | nil => simp [Tree.enter] at h
  | cons c rest ih =>
      by_cases hc : c.utf8ByteSize ≤ nameLimit
      · rw [enter_of_short hc] at h
        cases hget : t.get? (stepped here c) with
        | none =>
            simp only [hget, Except.error.injEq] at h
            exact ⟨[], c, rest, here, rfl, rfl, .inr (.inr ⟨h.symm, hget⟩)⟩
        | some e =>
            cases e with
            | file content =>
                simp only [hget, Except.error.injEq] at h
                exact ⟨[], c, rest, here, rfl, rfl, .inr (.inl ⟨h.symm, content, hget⟩)⟩
            | directory =>
                simp only [hget] at h
                rcases ih h with ⟨part, d, left, middle, rfl, hpart, hfault⟩
                exact ⟨c :: part, d, left, middle, rfl, enter_cons.mpr ⟨hc, hget, hpart⟩, hfault⟩
      · have hlong : nameLimit < c.utf8ByteSize := Nat.lt_of_not_le hc
        simp only [Tree.enter, if_pos hlong, Except.error.injEq] at h
        exact ⟨[], c, rest, here, rfl, rfl, .inl ⟨h.symm, hlong⟩⟩

/-! ## Closed trees -/

/-- Every entry of the tree is in a directory. -/
def Tree.Closed (t : Tree) : Prop :=
  ∀ p name, t.get? (p ++ [name]) ≠ none → t.get? p = some .directory

theorem closed_empty : ({} : Tree).Closed := by
  intro p name h
  simp [Tree.get?] at h

/-- An entry may be put into a directory, in place of anything but a directory. -/
theorem Tree.Closed.put {parent : Place} {name : String} {e : Entry} (ht : t.Closed)
    (hparent : t.get? parent = some .directory)
    (hold : t.get? (parent ++ [name]) ≠ some .directory) :
    (t.put (parent ++ [name]) e).Closed := by
  have hne : parent ≠ parent ++ [name] := by simp
  intro p last hlast
  by_cases hp : p ++ [last] = parent ++ [name]
  · rcases List.append_inj' hp rfl with ⟨rfl, -⟩
    rw [get?_put_of_ne hne, hparent]
  · rw [get?_put_of_ne hp] at hlast
    have hdir := ht p last hlast
    -- What was at the place was no directory, so no entry was in it.
    have hq : p ≠ parent ++ [name] := fun e => hold (e ▸ hdir)
    rw [get?_put_of_ne hq, hdir]

/-- Everything on the way to an entry of a closed tree is a directory. -/
theorem Tree.Closed.directory_of_append (ht : t.Closed) {p q : Place} (hq : q ≠ [])
    (h : t.get? (p ++ q) ≠ none) : t.get? p = some .directory := by
  induction q using List.reverseRecOn with
  | nil => exact absurd rfl hq
  | append_singleton q name ih =>
      have hdir : t.get? (p ++ q) = some .directory := ht (p ++ q) name (by rwa [List.append_assoc])
      by_cases hnil : q = []
      · simpa [hnil] using hdir
      · exact ih hnil (by simp [hdir])

/-- In a closed tree no part of the way to an entry is missing. -/
theorem Tree.Closed.enter_ne_notFound (ht : t.Closed) {here : Place} {way more : List String}
    (hway : parentMark ∉ way) (h : t.get? (here ++ (way ++ more)) ≠ none) :
    t.enter here way ≠ .error .notFound := by
  intro herror
  rcases enter_eq_error herror with ⟨part, c, rest, middle, rfl, hpart, hfault⟩
  have hmiddle : middle = here ++ part := by
    rw [walked_of_enter hpart, walked_of_not_mem fun hm => hway (List.mem_append_left _ hm)]
  have hc : c ≠ parentMark := fun e => hway (by simp [e])
  -- The component at which the walk stops leads to the entry or to a directory above it.
  have hthere : t.get? (here ++ part ++ [c]) ≠ none := by
    by_cases hrest : rest ++ more = []
    · simpa [List.append_eq_nil_iff.mp hrest] using h
    · have hdir : t.get? (here ++ part ++ [c]) = some .directory :=
        ht.directory_of_append hrest (by simpa using h)
      rw [hdir]
      simp
  rcases hfault with ⟨hf, -⟩ | ⟨hf, -⟩ | ⟨-, hnone⟩
  · exact absurd hf (by decide)
  · exact absurd hf (by decide)
  · rw [hmiddle, stepped_of_ne hc] at hnone
    exact hthere hnone

/-- In a closed tree a plain route to an entry can be followed. -/
theorem Tree.Closed.find_ne_notFound (ht : t.Closed) {r : Route} (hplain : parentMark ∉ r.way)
    (h : t.get? r.way ≠ none) : t.find r ≠ .error .notFound := by
  intro hmissing
  rcases enter_of_find_notFound hmissing with ⟨outer, houter, henter⟩
  rcases houter.prefix_way with ⟨more, hmore⟩
  have hthere : t.get? ([] ++ (outer.way ++ more)) ≠ none := by rwa [List.nil_append, hmore]
  exact ht.enter_ne_notFound (fun hm => hplain (houter.prefix_way.mem hm)) hthere henter

/-! ## Growing trees -/

/-- A tree has new directories, each at the end of a route on the way, and is else the
    same. -/
structure Tree.Grown (t u : Tree) (r : Route) : Prop where
  kept : ∀ {p e}, t.get? p = some e → u.get? p = some e
  added : ∀ {p e}, t.get? p = none → u.get? p = some e →
    e = .directory ∧ ∃ outer : Route, outer.OnWay r ∧ u.enter [] outer.way = .ok p

namespace Tree.Grown

variable {r more : Route}

theorem refl (t : Tree) (r : Route) : t.Grown t r where
  kept h := h
  added hnone hsome := by simp [hnone] at hsome

/-- Growth along a way, and then further along it. -/
theorem trans (h : t.Grown u r) (h' : u.Grown v more) (hway : r.OnWay more) :
    t.Grown v more where
  kept hp := h'.kept (h.kept hp)
  added {p e} hnone hsome := by
    cases hu : u.get? p with
    | none => exact h'.added hu hsome
    | some old =>
        rcases h.added hnone hu with ⟨rfl, outer, houter, henter⟩
        have he : e = .directory := by simpa [h'.kept hu] using hsome.symm
        exact ⟨he, outer, houter.trans hway, enter_of_directories (fun _ => h'.kept) henter⟩

/-- A directory that was none before was missing. -/
theorem made (h : t.Grown u r) {p : Place} (hnot : t.get? p ≠ some .directory)
    (hdir : u.get? p = some .directory) :
    t.get? p = none ∧ ∃ outer : Route, outer.OnWay r ∧ u.enter [] outer.way = .ok p := by
  cases hp : t.get? p with
  | none => exact ⟨rfl, (h.added hp hdir).2⟩
  | some e => exact absurd (hp.trans (h.kept hp ▸ hdir)) hnot

theorem file_iff (h : t.Grown u r) {p : Place} {content : ByteArray} :
    u.get? p = some (.file content) ↔ t.get? p = some (.file content) := by
  constructor
  · intro hfile
    cases ht : t.get? p with
    | none =>
        rcases h.added ht hfile with ⟨hdir, -⟩
        simp at hdir
    | some e => rw [← hfile, h.kept ht]
  · exact h.kept

end Tree.Grown

end Files

end Afx
