import Afx.Proofs.Writing

/-!
# What a New File Can Overwrite

A call that is to write a new file asks first whether its route leads to
anything, and then writes. Between the two the directories on the way are made,
so that the route may lead to something once it is written to, although it led
to nothing when it was asked. This takes a detour: the route goes into a
directory that is missing, and comes back by a lead to the parent. Making the
directory opens the way to what was there all the time, and it is overwritten.

A detour is the only way to lose a file: every other call, and so every call
whose route has no lead to a parent and every call whose directories are there,
leaves each file as it is. The condition is exact, as a call that takes a detour
to a file and succeeds always overwrites it.

## Main definitions

* `Tree.Detour`: The way to a place is missing, and leads to it once it is made.

## Theorems

* `writeNew_on_file`: What a call does to a file that is there.
* `back_of_detour`: A detour to an entry has a lead to a parent.
* `fresh_calls_lose_only_by_detour`: What calls for new files do to files.
* `writeNew_overwrites`: A call for a new file that overwrites one.
-/

namespace Afx

namespace Files

variable {t : Tree}

/-- The route cannot be followed because something on the way is missing, and it
    leads to the place once that is there. -/
def Tree.Detour (t : Tree) (target : Route) (p : Place) : Prop :=
  t.find target = .error .notFound ∧ target.cancelled.components = p

/-- A route that can be followed only after directories were made leads through
    something that is missing, and not through a file. -/
theorem find_before_growth {ready : Tree} {r target : Route} {parent : Place}
    (hgrown : t.Grown ready r) (hnames : ready.Names target parent) :
    t.find target = .error .notFound ∨ t.Names target parent := by
  cases henter : t.enter [] target.parent.way with
  | ok entered =>
      have hsame : entered = parent := by
        rw [walked_of_enter henter, walked_of_enter hnames.entered]
      exact .inr { hnames with entered := hsame ▸ henter }
  | error fault =>
      left
      rw [find_of_named hnames.named, hnames.followed, henter]
      rcases enter_eq_error henter with ⟨part, c, rest, middle, hway, hpart, hfault⟩
      -- The grown tree can be entered up to here and further, so only a gap is possible.
      rcases enter_append.mp (hway ▸ hnames.entered) with ⟨entered, hentered, hon⟩
      have hmiddle : entered = middle := by
        rw [walked_of_enter hentered, walked_of_enter hpart]
      subst hmiddle
      rcases enter_cons.mp hon with ⟨hshort, hdir, -⟩
      rcases hfault with ⟨-, hlong⟩ | ⟨-, content, hfile⟩ | ⟨rfl, -⟩
      · omega
      · rw [hgrown.kept hfile] at hdir
        simp at hdir
      · rfl

/-- What a call for a new file does to a file that is there: it leaves it, or it
    has taken a detour to it and succeeds, and overwrites it. -/
theorem writeNew_on_file (check : Check) (draws : List Draw) (target : Route)
    (document : Document) {p : Place} {old : ByteArray} (h : t.get? p = some (.file old)) :
    let result := writeNew check draws t target document
    ¬ (result.outcome = .ok () ∧ t.Detour target p) ∧ result.tree.get? p = some (.file old) ∨
      (result.outcome = .ok () ∧ t.Detour target p) ∧
        result.tree.get? p = some (.file document.text.toUTF8) := by
  intro result
  have hresult : result = writeNew check draws t target document := rfl
  unfold writeNew at hresult
  cases hthere : t.isThere target with
  | error fault =>
      rw [hthere] at hresult
      exact .inl (by rw [hresult]; simpa using h)
  | ok there =>
      rw [hthere] at hresult
      cases there with
      | true => exact .inl (by rw [hresult]; simpa using h)
      | false =>
          have hgrown := grown_makeDirectories t target.parent
          rcases writeAtomically_cases check draws t target document with
            ⟨fault, hcase⟩ | ⟨parent, -, hnames, hold, hadmitted, hcase⟩
          · left
            rw [hresult]
            dsimp only
            rw [hcase]
            exact ⟨by simp, hgrown.kept h⟩
          · rw [hresult]
            dsimp only
            rw [hcase]
            by_cases hp : p = parent ++ [target.name]
            · -- The call writes to the file, so its route did not lead there before.
              right
              have hstored : document.stored = document.text.toUTF8 := by
                rw [Document.stored, if_pos (admitted_eq_ok.mp hadmitted).1]
              rw [hp, get?_put_self (by simp), hstored]
              refine ⟨⟨rfl, ?_, hnames.place_eq.symm⟩, rfl⟩
              rcases find_before_growth hgrown hnames with hfind | hbefore
              · exact hfind
              · rw [Tree.isThere, hbefore.find, ← hp, h] at hthere
                simp at hthere
            · left
              rw [get?_put_of_ne hp]
              refine ⟨?_, hgrown.kept h⟩
              rintro ⟨-, -, hplace⟩
              exact hp (by rw [← hplace, hnames.place_eq])

/-- A call that succeeds starts where there is a directory. -/
theorem started_of_writeNew {check : Check} {draws : List Draw} {target : Route}
    {document : Document} (h : (writeNew check draws t target document).outcome = .ok ()) :
    ∃ here, t.enter [] (target.start.getD []) = .ok here := by
  unfold writeNew at h
  split at h
  · simp at h
  · simp at h
  · rcases writeAtomically_cases check draws t target document with
      ⟨fault, hcase⟩ | ⟨parent, hmade, -⟩
    · rw [hcase] at h
      simp at h
    · exact started_makeDirectories (r := target.parent) hmade

/-- A detour to an entry, from a directory that is there, has a lead to a parent. -/
theorem back_of_detour (ht : t.Closed) {target : Route} {here p : Place}
    (hstart : t.enter [] (target.start.getD []) = .ok here) (h : t.Detour target p)
    (hp : t.get? p ≠ none) : parentMark ∈ target.components := by
  by_contra hplain
  rcases h with ⟨hfind, hplace⟩
  have hend : p = here ++ target.components := by
    rw [← hplace, cancelled_components, Route.way, walked_append, ← walked_of_enter hstart,
      walked_of_not_mem hplain]
  rcases enter_of_find_notFound hfind with ⟨outer, ⟨houter, rest, hrest⟩, hmissing⟩
  rw [Route.way, houter, enter_append_of_ok hstart] at hmissing
  -- All directories above the entry are there, so nothing on the way is missing.
  have hthere : t.get? (here ++ (outer.components ++ rest)) ≠ none := by rwa [hrest, ← hend]
  refine ht.enter_ne_notFound (fun hm => hplain ?_) hthere hmissing
  rw [← hrest]
  exact List.mem_append_left _ hm

/-- Calls for new files leave a file as it is if none takes a detour to it with a
    lead to a parent. -/
theorem file_performAll (ht : t.Closed) (check : Check) (calls : List Call)
    (hfresh : ∀ c ∈ calls, c.fresh = true) {p : Place} {content : ByteArray}
    (h : t.get? p = some (.file content))
    (hdirect : ∀ front c back, calls = front ++ c :: back →
      (performAll check t front).Detour c.target p → parentMark ∉ c.target.components) :
    (performAll check t calls).get? p = some (.file content) := by
  -- By induction on the calls that are left, with the tree that those before have left.
  induction calls generalizing t with
  | nil => exact h
  | cons c rest ih =>
      have hkept : (c.perform check t).tree.get? p = some (.file content) := by
        rw [Call.perform, if_pos (hfresh c List.mem_cons_self)]
        rcases writeNew_on_file (c.used check) c.draws c.target c.document h with
          ⟨-, hkept⟩ | ⟨⟨hok, hdetour⟩, -⟩
        · exact hkept
        · rcases started_of_writeNew hok with ⟨here, hstart⟩
          have hback := back_of_detour ht hstart hdetour (by simp [h])
          exact absurd hback (hdirect [] c rest rfl hdetour)
      have hclosed : (c.perform check t).tree.Closed := closed_performAll ht check [c]
      refine ih hclosed (fun d hd => hfresh d (List.mem_cons_of_mem _ hd)) hkept ?_
      intro front d back hrest
      exact hdirect (c :: front) d back (by rw [hrest]; rfl)

/-- Calls for new files lose a file only by a detour. Each call leaves a file as
    it is, unless it succeeds and has taken a detour to it, and then the file has
    the new content; a detour to an entry has a lead to a parent. So in every
    sequence of such calls a file keeps the content it was given first, if each
    later call takes no detour to it or has no lead to a parent in its route. -/
theorem fresh_calls_lose_only_by_detour (check : Check) (t : Tree) (ht : t.Closed)
    (calls : List Call) (hfresh : ∀ c ∈ calls, c.fresh = true) :
    (∀ done c rest, calls = done ++ c :: rest →
      let before := performAll check t done
      let result := c.perform check before
      ∀ p old, before.get? p = some (.file old) →
        (¬ (result.outcome = .ok () ∧ before.Detour c.target p) ∧
            result.tree.get? p = some (.file old) ∨
          (result.outcome = .ok () ∧ before.Detour c.target p) ∧
            parentMark ∈ c.target.components ∧
            result.tree.get? p = some (.file c.document.text.toUTF8))) ∧
    (∀ done rest, calls = done ++ rest → ∀ p content,
      (performAll check t done).get? p = some (.file content) →
      (∀ front c back, rest = front ++ c :: back →
        (performAll check t (done ++ front)).Detour c.target p →
          parentMark ∉ c.target.components) →
      (performAll check t calls).get? p = some (.file content)) := by
  constructor
  · rintro done c rest rfl before result p old hold
    have hbefore : before.Closed := closed_performAll ht check done
    have hresult : result = writeNew (c.used check) c.draws before c.target c.document := by
      simp only [result]
      rw [Call.perform, if_pos (hfresh c (by simp))]
    rcases writeNew_on_file (c.used check) c.draws c.target c.document hold with
      hkept | ⟨hlost, hnew⟩
    · exact .inl (hresult ▸ hkept)
    · rcases started_of_writeNew hlost.1 with ⟨here, hstart⟩
      have hback := back_of_detour hbefore hstart hlost.2 (by simp [hold])
      exact .inr (hresult ▸ ⟨hlost, hback, hnew⟩)
  · rintro done rest rfl p content hfile hdirect
    rw [performAll_append]
    refine file_performAll (closed_performAll ht check done) check rest
      (fun c hc => hfresh c (List.mem_append_right _ hc)) hfile ?_
    intro front c back hrest hdetour
    exact hdirect front c back hrest (by rwa [performAll_append])

/-- A tree with one file. -/
def lone : Tree := ({} : Tree).put ["b"] (.file "old".toUTF8)

theorem closed_lone : lone.Closed := by
  have hput : (({} : Tree).put ([] ++ ["b"]) (.file "old".toUTF8)).Closed :=
    closed_empty.put get?_nil (by decide)
  exact hput

/-- After a first call has made its directory, a route through it takes no detour,
    and the second call leaves the file as it is. -/
theorem fresh_calls_lose_only_by_detour_refused :
    lone.Closed ∧
    (performAll Check.braces lone [⟨.fromRoot ["a", "c"], "new", [.ofNumber 0], true, true⟩,
      ⟨.fromRoot ["a", "..", "b"], "new", [.ofNumber 0], true, true⟩]).get? ["b"] =
        some (.file "old".toUTF8) := by
  refine ⟨closed_lone, ?_⟩
  refine (fresh_calls_lose_only_by_detour Check.braces lone closed_lone _ (by simp)).2 []
    _ rfl ["b"] _ (by decide +kernel) ?_
  intro front c back hcalls hdetour
  cases front with
  | nil =>
      rcases List.cons.inj hcalls with ⟨rfl, -⟩
      decide
  | cons first more =>
      rcases List.cons.inj hcalls with ⟨rfl, hrest⟩
      cases more with
      | nil =>
          rcases List.cons.inj hrest with ⟨rfl, -⟩
          have hleads : (performAll Check.braces lone
              [⟨.fromRoot ["a", "c"], "new", [.ofNumber 0], true, true⟩]).leads
                (.fromRoot ["a", "..", "b"]) = true := by decide +kernel
          rw [Tree.leads, Tree.look?] at hleads
          rw [List.nil_append] at hdetour
          rw [hdetour.1] at hleads
          simp at hleads
      | cons second others => simp at hrest

/-- A call for a new file overwrites one: its route goes into a directory that is
    missing and back, so that it leads to nothing until the directory is made. -/
theorem writeNew_overwrites :
    lone.get? ["b"] = some (.file "old".toUTF8) ∧
    (writeNew Check.braces [.ofNumber 0] lone (.fromRoot ["a", "..", "b"]) "new").tree.get?
      ["b"] = some (.file "new".toUTF8) ∧ "old".toUTF8 ≠ "new".toUTF8 := by
  decide +kernel

end Files

end Afx
