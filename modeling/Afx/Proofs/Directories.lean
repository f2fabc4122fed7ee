import Afx.Proofs.Places

/-!
# Directories on the Way

Making a directory makes those on the way to it that are missing, the outermost
first. Whether this succeeds or fails half way, all it does to the tree is to let
it grow along the route: no entry is lost or replaced, and each new directory is
where a part of the route leads.

It succeeds if the way is free: then every component leads to a directory or to
nothing, and whatever is missing can be made.

## Main definitions

* `Tree.FreeAlong`: No file is on a way, and nothing on it is too long.

## Theorems

* `grown_makeDirectories`: Making directories only lets the tree grow.
* `closed_makeDirectories`: The tree stays closed.
* `enter_makeDirectories`: What was made can be entered.
* `started_makeDirectories`: The start of a route is there already.
* `Tree.FreeAlong.makeDirectories`: On a free way directories can be made.
-/

namespace Afx

namespace Files

variable {t u : Tree}

theorem makeDirectory_eq_ok {r : Route} (h : makeDirectory t r = .ok u) :
    ∃ parent, t.Names r parent ∧ t.get? (parent ++ [r.name]) = none ∧
      u = t.put (parent ++ [r.name]) .directory := by
  unfold makeDirectory at h
  split at h
  · rename_i place hfind
    rcases names_of_find hfind (by simp) with ⟨parent, hnames, rfl, hnone⟩
    exact ⟨parent, hnames, hnone.symm, by simpa using h.symm⟩
  · simp at h
  · simp at h

theorem grown_makeDirectory {r : Route} (h : makeDirectory t r = .ok u) :
    t.Grown u r := by
  rcases makeDirectory_eq_ok h with ⟨parent, hnames, hnone, rfl⟩
  have hkept : ∀ {p e}, t.get? p = some e →
      (t.put (parent ++ [r.name]) .directory).get? p = some e := by
    intro p e hp
    have hne : p ≠ parent ++ [r.name] := by
      rintro rfl
      simp [hnone] at hp
    rw [get?_put_of_ne hne, hp]
  refine ⟨hkept, ?_⟩
  intro p e hp hpe
  -- The only entry that was not there before is the one that was put.
  by_cases hplace : p = parent ++ [r.name]
  · subst hplace
    have hself : (t.put (parent ++ [r.name]) .directory).get? (parent ++ [r.name]) =
        some .directory := get?_put_self (by simp)
    rw [hself, Option.some.injEq] at hpe
    exact ⟨hpe.symm, r, .refl r,
      (hnames.of_directories fun _ => hkept).enter_self hself⟩
  · rw [get?_put_of_ne hplace, hp] at hpe
    simp at hpe

theorem tree_tolerating (t : Tree) (r : Route) (fault : FileFault) :
    (tolerating t r fault).tree = t := by
  unfold tolerating
  split <;> rfl

/-- Making directories leaves the tree as it is, or makes one, or leaves what
    making the outer ones leaves, or makes one after that. -/
theorem tree_makeDirectoriesWithin (t : Tree) (start : Option (List String)) (limit : Nat)
    (name : String) (outer : List String) :
    let tree := (makeDirectoriesWithin t start limit (name :: outer)).tree
    let r : Route := ⟨start, (name :: outer).reverse⟩
    tree = t ∨ makeDirectory t r = .ok tree ∨
      ∃ below, let after := (makeDirectoriesWithin t start below outer).tree
        tree = after ∨ makeDirectory after r = .ok tree := by
  intro tree r
  have htree : tree = (makeDirectoriesWithin t start limit (name :: outer)).tree := rfl
  unfold makeDirectoriesWithin at htree
  dsimp only at htree
  split at htree
  · rename_i made hmade
    exact .inr (.inl (htree ▸ hmade))
  · exact .inl htree
  · rename_i below hmissing
    refine .inr (.inr ⟨below, ?_⟩)
    split at htree
    · rename_i fault after hafter
      exact .inl (by rw [hafter, htree])
    · rename_i after hafter
      simp only [hafter]
      split at htree
      · rename_i made hmade
        exact .inr (htree ▸ hmade)
      · exact .inl (htree.trans (tree_tolerating _ _ _))
  · exact .inl (htree.trans (tree_tolerating _ _ _))

theorem grown_makeDirectoriesWithin (t : Tree) (start : Option (List String)) (limit : Nat)
    (names : List String) :
    t.Grown (makeDirectoriesWithin t start limit names).tree ⟨start, names.reverse⟩ := by
  induction names generalizing limit with
  | nil =>
      unfold makeDirectoriesWithin
      rw [tree_tolerating]
      exact .refl t _
  | cons name outer ih =>
      have hway : Route.OnWay ⟨start, outer.reverse⟩ ⟨start, (name :: outer).reverse⟩ :=
        ⟨rfl, by simp⟩
      rcases tree_makeDirectoriesWithin t start limit name outer with h | h | ⟨below, h | h⟩
      · rw [h]
        exact .refl t _
      · exact grown_makeDirectory h
      · rw [h]
        exact (ih below).trans (.refl _ _) hway
      · exact (ih below).trans (grown_makeDirectory h) hway

/-- Making directories only lets the tree grow, along the route to the last. -/
theorem grown_makeDirectories (t : Tree) (r : Route) : t.Grown (makeDirectories t r).tree r := by
  have h := grown_makeDirectoriesWithin t r.start directoryLimit r.components.reverse
  rwa [List.reverse_reverse] at h

theorem closed_makeDirectory {r : Route} (ht : t.Closed) (h : makeDirectory t r = .ok u) :
    u.Closed := by
  rcases makeDirectory_eq_ok h with ⟨parent, hnames, hnone, rfl⟩
  exact ht.put (directory_of_enter hnames.entered get?_nil) (by simp [hnone])

theorem closed_makeDirectories (ht : t.Closed) (r : Route) : (makeDirectories t r).tree.Closed := by
  unfold makeDirectories
  generalize directoryLimit = limit
  induction r.components.reverse generalizing limit with
  | nil =>
      unfold makeDirectoriesWithin
      rwa [tree_tolerating]
  | cons name outer ih =>
      rcases tree_makeDirectoriesWithin t r.start limit name outer with h | h | ⟨below, h | h⟩
      · rwa [h]
      · exact closed_makeDirectory ht h
      · rw [h]
        exact ih below
      · exact closed_makeDirectory (ih below) h

/-- Where there is a directory at last, its route can be followed. -/
theorem enter_makeDirectory {r : Route} (h : makeDirectory t r = .ok u) :
    ∃ p, u.enter [] r.way = .ok p := by
  rcases makeDirectory_eq_ok h with ⟨parent, hnames, -, hu⟩
  have hafter := hnames.of_directories fun _ => (grown_makeDirectory h).kept
  exact ⟨_, hafter.enter_self (by rw [hu, get?_put_self (by simp)])⟩

/-- Where making a directory was no failure, there is one. -/
theorem enter_tolerating {r : Route} {fault : FileFault}
    (h : (tolerating t r fault).outcome = .ok ()) : ∃ p, t.enter [] r.way = .ok p := by
  unfold tolerating at h
  split at h
  · rename_i hdir
    rcases find_of_isDirectory hdir with ⟨p, hp⟩
    exact ⟨p, enter_of_find hp⟩
  · simp at h

theorem enter_makeDirectoriesWithin (t : Tree) (start : Option (List String)) (limit : Nat)
    (names : List String) :
    let result := makeDirectoriesWithin t start limit names
    result.outcome = .ok () →
      ∃ p, result.tree.enter [] (Route.way ⟨start, names.reverse⟩) = .ok p := by
  unfold makeDirectoriesWithin
  dsimp only
  split
  · rw [tree_tolerating]
    exact enter_tolerating
  · split
    · rename_i made hmade
      exact fun _ => enter_makeDirectory hmade
    · simp
    · split
      · simp
      · split
        · rename_i made hmade
          exact fun _ => enter_makeDirectory hmade
        · rw [tree_tolerating]
          exact enter_tolerating
    · rw [tree_tolerating]
      exact enter_tolerating

/-- After directories were made their route can be followed. -/
theorem enter_makeDirectories {r : Route} (h : (makeDirectories t r).outcome = .ok ()) :
    ∃ p, (makeDirectories t r).tree.enter [] r.way = .ok p := by
  have hentered := enter_makeDirectoriesWithin t r.start directoryLimit r.components.reverse h
  rwa [List.reverse_reverse] at hentered

/-- The directory in which a route starts is there before any is made, as it is not made
    itself. -/
theorem started_makeDirectories {r : Route} (h : (makeDirectories t r).outcome = .ok ()) :
    ∃ here, t.enter [] (r.start.getD []) = .ok here := by
  have hprefix : ∀ {way : List String} {p : Place},
      t.enter [] (r.start.getD [] ++ way) = .ok p →
        ∃ here, t.enter [] (r.start.getD []) = .ok here := by
    intro way p hp
    rcases enter_append.mp hp with ⟨here, hhere, -⟩
    exact ⟨here, hhere⟩
  unfold makeDirectories at h
  generalize directoryLimit = limit at h
  generalize r.components.reverse = names at h
  induction names generalizing limit with
  | nil =>
      unfold makeDirectoriesWithin at h
      rcases enter_tolerating h with ⟨p, hp⟩
      exact hprefix hp
  | cons name outer ih =>
      unfold makeDirectoriesWithin at h
      dsimp only at h
      split at h
      · rename_i made hmade
        rcases makeDirectory_eq_ok hmade with ⟨parent, hnames, -⟩
        exact hprefix hnames.entered
      · simp at h
      · rename_i limit _
        split at h
        · simp at h
        · rename_i after hafter
          exact ih limit (by rw [hafter])
      · rcases enter_tolerating h with ⟨p, hp⟩
        exact hprefix hp

/-- A directory that is made on a plain way is not beside its end. -/
theorem get?_of_grown {r : Route} {name : String} (h : t.Grown u r)
    (hplain : parentMark ∉ r.way) : u.get? (r.way ++ [name]) = t.get? (r.way ++ [name]) := by
  cases ht : t.get? (r.way ++ [name]) with
  | some e => exact h.kept ht
  | none =>
      cases hu : u.get? (r.way ++ [name]) with
      | none => rfl
      | some e =>
          rcases h.added ht hu with ⟨-, outer, houter, henter⟩
          have hpart := houter.prefix_way
          have hwalked := walked_of_enter henter
          rw [walked_of_not_mem fun hm => hplain (hpart.mem hm), List.nil_append] at hwalked
          have hlength := hpart.length_le
          rw [← hwalked, List.length_append, List.length_singleton] at hlength
          omega

/-! ## Free ways -/

/-- No file is on the way of a route without leads to parents, the directory in which it
    starts is there, and no name or route on it is too long. -/
structure Tree.FreeAlong (t : Tree) (r : Route) : Prop where
  plain : parentMark ∉ r.way
  started : t.enter [] (r.start.getD []) = .ok (r.start.getD [])
  short : ∀ c ∈ r.components, c.utf8ByteSize ≤ nameLimit
  followed : ∀ outer : Route, outer.OnWay r → Tree.checkRoute outer = .ok ()
  free : ∀ outer : Route, outer.OnWay r →
    t.get? outer.way = none ∨ t.get? outer.way = some .directory

namespace Tree.FreeAlong

variable {r : Route} {start : Option (List String)} {outer : List String} {name : String}

theorem init (h : t.FreeAlong ⟨start, outer ++ [name]⟩) : t.FreeAlong ⟨start, outer⟩ := by
  have hway : Route.OnWay ⟨start, outer⟩ ⟨start, outer ++ [name]⟩ :=
    ⟨rfl, List.prefix_append _ _⟩
  exact {
    plain := fun hm => h.plain (hway.prefix_way.mem hm)
    started := h.started
    short := fun c hc => h.short c (List.mem_append_left _ hc)
    followed := fun inner hi => h.followed inner (hi.trans hway)
    free := fun inner hi => h.free inner (hi.trans hway) }

theorem grown {more : Route} (h : t.FreeAlong r) (hgrown : t.Grown u more) : u.FreeAlong r where
  plain := h.plain
  started := enter_of_directories (fun _ => hgrown.kept) h.started
  short := h.short
  followed := h.followed
  free outer ho := by
    rcases h.free outer ho with hnone | hdir
    · cases hu : u.get? outer.way with
      | none => exact .inl rfl
      | some e => exact .inr (by rw [(hgrown.added hnone hu).1])
    · exact .inr (hgrown.kept hdir)

/-- Along a free way a walk succeeds, or something is missing. -/
theorem enter_cases (h : t.FreeAlong r) :
    t.enter [] r.way = .ok r.way ∨ t.enter [] r.way = .error .notFound := by
  -- The induction is on the components that are left, from those that were walked.
  suffices hfrom : ∀ (left done : List String), done ++ left = r.components →
      t.enter (r.start.getD [] ++ done) left = .ok r.way ∨
        t.enter (r.start.getD [] ++ done) left = .error .notFound by
    rw [Route.way, enter_append_of_ok h.started]
    simpa [Route.way] using hfrom r.components [] rfl
  intro left
  induction left with
  | nil =>
      intro done hdone
      exact .inl (by rw [Route.way, ← hdone, List.append_nil, Tree.enter])
  | cons c rest ih =>
      intro done hdone
      have hmem : c ∈ r.components := by simp [← hdone]
      have hpart : Route.OnWay ⟨r.start, done ++ [c]⟩ r := ⟨rfl, rest, by simpa using hdone⟩
      have hc : c ≠ parentMark := fun e => h.plain (List.mem_append_right _ (e ▸ hmem))
      rw [enter_of_short (h.short c hmem), stepped_of_ne hc, List.append_assoc]
      rcases h.free _ hpart with hnone | hdir
      · rw [Route.way] at hnone
        exact .inr (by rw [hnone])
      · rw [Route.way] at hdir
        rw [hdir]
        exact ih (done ++ [c]) (by simpa using hdone)

theorem named (h : t.FreeAlong ⟨start, outer ++ [name]⟩) :
    Route.isNameless ⟨start, outer ++ [name]⟩ = false := by
  rw [Route.isNameless_eq_false, Route.name_concat]
  refine ⟨by simp, ?_⟩
  rintro rfl
  exact h.plain (by simp [Route.way])

theorem names (h : t.FreeAlong ⟨start, outer ++ [name]⟩)
    (henter : t.enter [] (Route.way ⟨start, outer⟩) = .ok (Route.way ⟨start, outer⟩)) :
    t.Names ⟨start, outer ++ [name]⟩ (Route.way ⟨start, outer⟩) where
  named := h.named
  followed := h.followed _ (.refl _)
  short := by
    rw [Route.name_concat]
    exact h.short name (by simp)
  entered := by rwa [Route.parent_concat]

/-- Where the outer directories are there, the last one is made or is there. -/
theorem makeDirectory_cases (h : t.FreeAlong ⟨start, outer ++ [name]⟩)
    (henter : t.enter [] (Route.way ⟨start, outer⟩) = .ok (Route.way ⟨start, outer⟩)) :
    let r : Route := ⟨start, outer ++ [name]⟩
    (∃ made, makeDirectory t r = .ok made ∧ made.enter [] r.way = .ok r.way) ∨
    makeDirectory t r = .error .alreadyExists ∧ t.isDirectory r = true ∧
      t.enter [] r.way = .ok r.way := by
  intro r
  have hnames : t.Names r _ := h.names henter
  have hplace : Route.way ⟨start, outer⟩ ++ [r.name] = r.way := by
    rw [Route.way_eq hnames.ne_nil, Route.parent_concat]
  have hfind := hnames.find
  rw [hplace] at hfind
  rcases h.free r (.refl r) with hnone | hdir
  · have hmade : makeDirectory t r = .ok (t.put r.way .directory) := by
      rw [makeDirectory, hfind, hnone]
    have hentered := (hnames.of_directories fun _ => (grown_makeDirectory hmade).kept).enter_self
    rw [hplace] at hentered
    exact .inl ⟨_, hmade, hentered (get?_put_self (by simp [← hplace]))⟩
  · have hentered := hnames.enter_self
    rw [hplace] at hentered
    refine .inr ⟨?_, ?_, hentered hdir⟩
    · rw [makeDirectory, hfind, hdir]
    · rw [Tree.isDirectory, Tree.look?, hfind]
      simp only [hdir]

/-- Where one of the outer directories is missing, this is what is found. -/
theorem makeDirectory_of_missing (h : t.FreeAlong ⟨start, outer ++ [name]⟩)
    (hmissing : t.enter [] (Route.way ⟨start, outer⟩) = .error .notFound) :
    makeDirectory t ⟨start, outer ++ [name]⟩ = .error .notFound := by
  rw [makeDirectory, find_of_named h.named, h.followed _ (.refl _)]
  simp [hmissing, Except.bind]

theorem isDirectory_start (h : t.FreeAlong ⟨start, []⟩) : t.isDirectory ⟨start, []⟩ = true := by
  have henter : t.enter [] (Route.way ⟨start, []⟩) = .ok (Route.way ⟨start, []⟩) := by
    simpa [Route.way] using h.started
  have hcheck : Tree.checkRoute ⟨start, []⟩ = .ok () := h.followed _ (.refl _)
  rw [Tree.isDirectory, Tree.look?, find_of_nameless rfl, hcheck, henter]
  rfl

theorem makeDirectoriesWithin {names : List String} (h : t.FreeAlong ⟨start, names.reverse⟩)
    (limit : Nat) (hshallow : names.length ≤ limit + 1) :
    (makeDirectoriesWithin t start limit names).outcome = .ok () ∧
      (makeDirectoriesWithin t start limit names).tree.enter []
        (Route.way ⟨start, names.reverse⟩) = .ok (Route.way ⟨start, names.reverse⟩) := by
  induction names generalizing limit with
  | nil =>
      unfold Files.makeDirectoriesWithin
      rw [tolerating, if_pos h.isDirectory_start]
      exact ⟨rfl, by simpa [Route.way] using h.started⟩
  | cons name outer ih =>
      unfold Files.makeDirectoriesWithin
      simp only [List.reverse_cons] at h ⊢
      rcases h.init.enter_cases with henter | hmissing
      · rcases h.makeDirectory_cases henter with
          ⟨made, hmade, hentered⟩ | ⟨hexists, hdir, hentered⟩
        · rw [hmade]
          exact ⟨rfl, hentered⟩
        · rw [hexists]
          dsimp only
          rw [tolerating, if_pos hdir]
          exact ⟨rfl, hentered⟩
      · rw [h.makeDirectory_of_missing hmissing]
        cases limit with
        | zero =>
            -- Nothing can be missing on the way to a single name.
            have hnil : outer = [] := List.eq_nil_of_length_eq_zero (by simpa using hshallow)
            have hstarted := h.started
            simp [hnil, Route.way] at hmissing hstarted
            simp [hstarted] at hmissing
        | succ limit =>
            rcases ih h.init limit (by simpa using hshallow) with ⟨hok, henter⟩
            have hafter := h.grown (grown_makeDirectoriesWithin t start limit outer)
            dsimp only
            generalize Files.makeDirectoriesWithin t start limit outer = result
              at hok henter hafter ⊢
            rcases result with ⟨outcome, after⟩
            have houtcome : outcome = .ok () := hok
            subst houtcome
            dsimp only
            rcases hafter.makeDirectory_cases henter with
              ⟨made, hmade, hentered⟩ | ⟨hexists, hdir, hentered⟩
            · rw [hmade]
              exact ⟨rfl, hentered⟩
            · rw [hexists]
              dsimp only
              rw [tolerating, if_pos hdir]
              exact ⟨rfl, hentered⟩

/-- Directories can be made along a free way, and then it can be followed. -/
theorem makeDirectories (h : t.FreeAlong r) (hshallow : r.components.length ≤ directoryLimit) :
    (makeDirectories t r).outcome = .ok () ∧
      (makeDirectories t r).tree.enter [] r.way = .ok r.way := by
  have hway : (⟨r.start, r.components.reverse.reverse⟩ : Route) = r := by
    rw [List.reverse_reverse]
  have hfree : t.FreeAlong ⟨r.start, r.components.reverse.reverse⟩ := by rwa [hway]
  have hmade := hfree.makeDirectoriesWithin directoryLimit
    (by simpa using Nat.le_succ_of_le hshallow)
  rwa [hway] at hmade

end Tree.FreeAlong

end Files

end Afx
