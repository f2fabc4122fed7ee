import Afx.Command.Invocation
import Afx.Proofs.Agreement
import Afx.Proofs.Overwriting

/-!
# What a Run Does to Files

A run reads files before it writes one, so that whatever goes wrong until then
leaves all files as they are. `perform_cases` is the border: a request fails
with the tree unchanged, or its result is delivered, and only `write_cases` has
to say what the writing can do.

The output of a request has no leads to parents, as they are cancelled when it is
read. So it is always the same place that is written to, whatever directories
are made on the way, and the directories are the parts of its own way.

One thing is not as it should be. A result that holds half of a surrogate pair
cannot be encoded. If it is written through a temporary file nothing is lost, but
if it is written plainly the output is open by then, and the run that fails leaves
it empty.

## Main definitions

* `Footprint`: All that was done to a tree is at a target and on the way to it.
* `Request.outputSettings`: The settings for the output that are in force.
* `requested?`: The request that the arguments of a run make.
* `Run`: A run of the command.
* `Torn`: A run has crashed with its output emptied.
* `Effect`: What a run does to the tree.
* `runAll`: The tree after a sequence of runs.

## Theorems

* `write_cases`: What writing the output leaves behind.
* `write_keeps`: What has to be kept is kept.
* `perform_cases`: A request fails before anything is written, or its result is
  delivered.
* `effect_run`: Every run has the effect.
* `runs_keep_to_their_output`: The same for the runs of a sequence.
* `failing_run_empties_output`: A run that fails and loses the content of a file.
-/

namespace Afx

namespace Files

variable {t ready : Tree} {target : Route}

/-- All that was done to a tree is at a target and on the way to it: every other
    file is as it was, no directory is lost, and a new directory was missing and
    is on the way. -/
structure Footprint (before : Tree) (target : Route) (after : Tree) : Prop where
  others : ∀ p content, p ≠ target.way →
    (after.get? p = some (.file content) ↔ before.get? p = some (.file content))
  kept : ∀ p, before.get? p = some .directory → after.get? p = some .directory
  made : ∀ p, before.get? p ≠ some .directory → after.get? p = some .directory →
    before.get? p = none ∧ p <+: target.parent.way

/-- Directories that are made on a plain way are on it. -/
theorem footprint_of_grown (hplain : parentMark ∉ target.way)
    (hgrown : t.Grown ready target.parent) : Footprint t target ready where
  others _ _ _ := hgrown.file_iff
  kept _ hp := hgrown.kept hp
  made p hnot hdir := by
    rcases hgrown.made hnot hdir with ⟨hnone, outer, houter, henter⟩
    -- Without leads to parents, the way that leads there is the place.
    have hwalked := walked_of_enter henter
    have hmark : parentMark ∉ outer.way := fun hm =>
      hplain ((houter.trans (.parent target)).prefix_way.mem hm)
    rw [walked_of_not_mem hmark, List.nil_append] at hwalked
    exact ⟨hnone, hwalked ▸ houter.prefix_way⟩

/-- Putting a file at the target stays within the footprint. -/
theorem Footprint.put {content : ByteArray} (h : Footprint t target ready)
    (hne : target.way ≠ []) (hold : ready.get? target.way ≠ some .directory) :
    Footprint t target (ready.put target.way (.file content)) where
  others p old hp := by
    rw [get?_put_of_ne hp]
    exact h.others p old hp
  kept p hp := directory_put hold (h.kept p hp)
  made p hnot hdir := h.made p hnot (directory_of_put hne hdir)

end Files

namespace Command

open Files (Tree Route Draw Document Result WriteFault Footprint parentMark)

variable {t : Tree} {target : Route} {document : Document}

/-! ## Writing the output -/

/-- What writing to a plain target leaves behind. The tree has grown along the way
    to it, and that is all; or the target has been written to besides, which
    fails only for a document that cannot be encoded, written plainly. -/
theorem write_cases (s : OutputSettings) (draws : List Draw) (t : Tree) (target : Route)
    (document : Document) (hplain : parentMark ∉ target.way) :
    ∃ ready, t.Grown ready target.parent ∧ (t.Closed → ready.Closed) ∧
      ((∃ fault, s.write draws t target document = ⟨.error fault, ready⟩) ∨
        ∃ parent content, ready.Names target parent ∧ parent ++ [target.name] = target.way ∧
          ready.get? target.way ≠ some .directory ∧
          (s.mode = .keep → t.isThere target = .ok false) ∧
          (s.write draws t target document = ⟨.ok (), ready.put target.way (.file content)⟩ ∨
            s.atomic.isTrue = false ∧ ready = t ∧ content = .empty ∧
              s.write draws t target document =
                ⟨.error .unencodable, ready.put target.way (.file content)⟩)) := by
  have hplace : ∀ {ready : Tree} {parent}, ready.Names target parent →
      parent ++ [target.name] = target.way := by
    intro ready parent hnames
    rw [hnames.place_eq, Route.cancelled_of_plain hplain]
  rcases write_asks s.mode draws t target with ⟨fault, hstopped⟩ | ⟨hfree, hwrite⟩
  · exact ⟨t, .refl t _, id, .inl ⟨fault, hstopped s document rfl⟩⟩
  rw [hwrite s document rfl]
  unfold OutputSettings.writeAnyway
  -- A temporary file takes its place only if all has gone well; a file that is
  -- written plainly is there before the document is encoded.
  by_cases hatomic : s.atomic.isTrue = true
  · rw [if_pos hatomic]
    refine ⟨_, Files.grown_makeDirectories t target.parent,
      fun ht => Files.closed_makeDirectories ht target.parent, ?_⟩
    rcases Files.writeAtomically_cases s.check draws t target document with
      hfailed | ⟨parent, -, hnames, hold, -, h⟩
    · exact .inl hfailed
    · rw [hplace hnames] at hold h
      exact .inr ⟨parent, _, hnames, hplace hnames, hold, hfree, .inl h⟩
  · rw [if_neg hatomic]
    refine ⟨t, .refl t _, id, ?_⟩
    cases s.check document.text with
    | error refusal => exact .inl ⟨_, rfl⟩
    | ok _ =>
        rcases Files.writePlainly_cases t target document with
          ⟨fault, h⟩ | ⟨parent, hnames, hold, h⟩
        · exact .inl ⟨_, h⟩
        · rw [hplace hnames] at hold h
          refine .inr ⟨parent, document.stored, hnames, hplace hnames, hold, hfree, ?_⟩
          by_cases hencodable : document.encodable = true
          · rw [Files.admitted_none hencodable] at h
            exact .inl h
          · refine .inr ⟨by simpa using hatomic, rfl, ?_, ?_⟩
            · rw [Document.stored, if_neg hencodable]
            · rw [Document.admitted, if_neg hencodable] at h
              exact h

theorem closed_write (ht : t.Closed) (s : OutputSettings) (draws : List Draw)
    (document : Document) (hplain : parentMark ∉ target.way) :
    (s.write draws t target document).tree.Closed := by
  rcases write_cases s draws t target document hplain with ⟨ready, -, hclosed, hcases⟩
  rcases hcases with ⟨fault, h⟩ | ⟨parent, content, hnames, hplace, hold, -, h⟩
  · rw [h]
    exact hclosed ht
  · have hput : (ready.put target.way (.file content)).Closed := by
      rw [← hplace] at hold ⊢
      exact (hclosed ht).put (Files.directory_of_enter hnames.entered Files.get?_nil) hold
    rcases h with h | ⟨-, -, -, h⟩
    · rwa [h]
    · rwa [h]

theorem footprint_write (s : OutputSettings) (draws : List Draw) (t : Tree)
    (document : Document) (hplain : parentMark ∉ target.way) :
    Footprint t target (s.write draws t target document).tree := by
  rcases write_cases s draws t target document hplain with ⟨ready, hgrown, -, hcases⟩
  have hready := Files.footprint_of_grown hplain hgrown
  rcases hcases with ⟨fault, h⟩ | ⟨parent, content, -, hplace, hold, -, h | ⟨-, -, -, h⟩⟩
  · rwa [h]
  · rw [h]
    exact hready.put (by simp [← hplace]) hold
  · rw [h]
    exact hready.put (by simp [← hplace]) hold

/-- What has to be kept is kept. A target that was not there when it was asked for
    is no file of a closed tree, because the way to a file is never missing. -/
theorem write_keeps (ht : t.Closed) {s : OutputSettings} (hmode : s.mode = .keep)
    (draws : List Draw) (document : Document) (hplain : parentMark ∉ target.way)
    {p : Files.Place} {old : ByteArray} (hold : t.get? p = some (.file old)) :
    (s.write draws t target document).tree.get? p = some (.file old) := by
  rcases write_cases s draws t target document hplain with ⟨ready, hgrown, -, hcases⟩
  rcases hcases with ⟨fault, h⟩ | ⟨parent, content, hnames, hplace, -, hfree, h⟩
  · rw [h]
    exact hgrown.kept hold
  · have hp : p ≠ target.way := by
      rintro rfl
      -- The route could not be followed before, or it led to this file.
      rcases Files.find_before_growth hgrown hnames with hmissing | hbefore
      · exact ht.find_ne_notFound hplain (by simp [hold]) hmissing
      · have hthere := hfree hmode
        rw [Tree.isThere, hbefore.find, hplace, hold] at hthere
        simp at hthere
    rcases h with h | ⟨-, -, -, h⟩
    · rw [h, Files.get?_put_of_ne hp]
      exact hgrown.kept hold
    · rw [h, Files.get?_put_of_ne hp]
      exact hgrown.kept hold

/-! ## Endings -/

theorem exitCode_report {ending : Ending} (h : ending ≠ .help) (log : String) :
    (ending.report log).exitCode ≠ 0 := by
  cases ending with
  | help => exact absurd rfl h
  | misuse problem => simp [Ending.report]
  | failure message => simp [Ending.report]
  | crash condition => simp [Ending.report]

theorem endingOf_ne_help (failure : Fusion.Failure) : endingOf failure ≠ .help := by
  cases failure <;> simp [endingOf]

theorem endingOfWrite_ne_help (fault : WriteFault) : endingOfWrite fault ≠ .help := by
  cases fault <;> simp [endingOfWrite]

theorem readText_ne_help {r : Route} {ending : Ending} (h : readText t r = .error ending) :
    ending ≠ .help := by
  rintro rfl
  unfold readText at h
  split at h
  · simp at h
  · simp at h
  · simp at h
  · split at h <;> simp at h

theorem readSettings_ne_help {r : Route} {ending : Ending} (h : readSettings t r = .error ending) :
    ending ≠ .help := by
  rintro rfl
  unfold readSettings at h
  cases htext : readText t r with
  | error other =>
      simp only [htext, bind, Except.bind, Except.error.injEq] at h
      exact readText_ne_help htext h
  | ok text =>
      simp only [htext, bind, Except.bind] at h
      split at h
      · simp at h
      · split at h
        · simp at h
        · simp at h
        · split at h
          · simp at h
          · simp [pure, Except.pure] at h
      · simp at h

theorem convert_ne_help (q : Request) {here : Route} {s : Fusion.Settings} {source : String}
    {ending : Ending} (h : (q.convert t here s source).2 = .error ending) : ending ≠ .help := by
  rintro rfl
  unfold Request.convert at h
  split at h
  · split at h
    · simp at h
    · rename_i failure _
      simp only [Except.error.injEq] at h
      exact endingOf_ne_help failure h
  · split at h
    · rename_i name _
      unfold Request.declaration at h
      cases hrenderer : s.convert s.indentation source with
      | error failure =>
          simp only [hrenderer, Except.mapError, bind, Except.bind, Except.error.injEq] at h
          exact endingOf_ne_help failure h
      | ok renderer =>
          simp only [hrenderer, Except.mapError, bind, Except.bind] at h
          unfold Request.comment at h
          cases hline : commandLine t here q.parameters with
          | error fault => simp [hline] at h
          | ok line => simp [hline, pure, Except.pure] at h
    · cases hconverted : s.convert (.text "") source with
      | ok fusion => simp [hconverted, Except.mapError] at h
      | error failure =>
          simp only [hconverted, Except.mapError, Except.error.injEq] at h
          exact endingOf_ne_help failure h

theorem document_ne_help (q : Request) {here : Route} {s : Fusion.Settings} {source : String}
    {ending : Ending} (h : (q.document t here s source).2 = .error ending) : ending ≠ .help := by
  unfold Request.document at h
  cases hconverted : (q.convert t here (s.mended '\ufffd') source).2 with
  | ok text => simp [hconverted, Except.map] at h
  | error other =>
      simp only [hconverted, Except.map, Except.error.injEq] at h
      exact h ▸ convert_ne_help q hconverted

/-! ## Requests -/

/-- The settings for the output that are in force: those of the settings file, or
    else the usual ones, with the mode that was asked for. -/
def Request.outputSettings (q : Request) (t : Tree) : OutputSettings :=
  let given : OutputSettings := match q.config.map (readSettings t) with
    | some (.ok (_, output)) => output
    | _ => {}
  { given with mode := q.mode.getD given.mode }

/-- A request fails before anything is written, or its result is delivered. -/
theorem perform_cases (q : Request) (draws : List Draw) (t : Tree) (here : Route) :
    (∃ ending log, ending ≠ .help ∧ q.perform draws t here = ⟨Ending.report log ending, t⟩) ∨
      ∃ log fusion, q.perform draws t here = q.deliver draws t (q.outputSettings t) log fusion := by
  -- What is left to do once both files are read.
  have hread : ∀ (settings : Fusion.Settings) (source : String),
      (∃ log ending, ending ≠ .help ∧ q.document t here settings source = (log, .error ending)) ∨
        ∃ log fusion, q.document t here settings source = (log, .ok fusion) := by
    intro settings source
    rcases hdocument : q.document t here settings source with ⟨log, ending | fusion⟩
    · exact .inl ⟨log, ending, document_ne_help q (by rw [hdocument]), rfl⟩
    · exact .inr ⟨log, fusion, rfl⟩
  unfold Request.perform Request.outputSettings
  cases hconfig : q.config with
  | none =>
      cases hsource : readText t q.path with
      | error ending => exact .inl ⟨ending, "", readText_ne_help hsource, rfl⟩
      | ok source =>
          simp only [Option.map_none, bind, Except.bind, pure, Except.pure]
          rcases hread {} source with ⟨log, ending, hhelp, hdocument⟩ | ⟨log, fusion, hdocument⟩
          · exact .inl ⟨ending, _, hhelp, by rw [hdocument]⟩
          · exact .inr ⟨log, fusion, by rw [hdocument]⟩
  | some config =>
      cases hsettings : readSettings t config with
      | error ending =>
          simp only [hsettings, bind, Except.bind]
          exact .inl ⟨ending, "", readSettings_ne_help hsettings, rfl⟩
      | ok given =>
          cases hsource : readText t q.path with
          | error ending =>
              simp only [hsettings, bind, Except.bind]
              exact .inl ⟨ending, "", readText_ne_help hsource, rfl⟩
          | ok source =>
              simp only [Option.map_some, hsettings, bind, Except.bind, pure, Except.pure]
              rcases hread given.1 source with
                ⟨log, ending, hhelp, hdocument⟩ | ⟨log, fusion, hdocument⟩
              · exact .inl ⟨ending, _, hhelp, by rw [hdocument]⟩
              · exact .inr ⟨log, fusion, by rw [hdocument]⟩

theorem deliver_printed {q : Request} (h : q.output = none) (draws : List Draw)
    (o : OutputSettings) (log : Log) (fusion : Document) :
    (q.deliver draws t o log fusion).tree = t := by
  unfold Request.deliver
  rw [h]
  dsimp only
  split <;> rfl

/-- What is shown of a result that is written tells how the writing has ended. -/
theorem deliver_written {q : Request} (h : q.output = some target) (draws : List Draw)
    (o : OutputSettings) (log : Log) (fusion : Document) :
    let result := o.write draws t target (terminated fusion)
    let a := q.deliver draws t o log fusion
    a.tree = result.tree ∧ (a.report.exitCode = 0 ↔ result.outcome = .ok ()) ∧
      (result.outcome = .error .unencodable → a.report.crash = some .unencodable) := by
  unfold Request.deliver
  rw [h]
  dsimp only
  generalize o.write draws t target (terminated fusion) = result
  rcases result with ⟨fault | _, after⟩
  · refine ⟨rfl, ?_, ?_⟩
    · simp [exitCode_report (endingOfWrite_ne_help fault)]
    · intro hfault
      rw [Except.error.inj hfault]
      rfl
  · simp

/-! ## Runs -/

/-- The request that the arguments of a run make, if they make one. -/
def requested? (t : Tree) (here : Route) (arguments : List String) : Option Request :=
  match scan {} arguments with
  | .error _ => none
  | .ok given =>
    if (given.value? .help).isSome then none else (given.request t here).toOption

theorem plain_of_routeOf {here r : Route} {path : String} (h : Given.routeOf here path = .ok r) :
    parentMark ∉ r.way := by
  unfold Given.routeOf at h
  split at h
  · simp at h
  · simp only [Except.ok.injEq] at h
    rw [← h]
    exact Route.parentMark_not_mem_cancelled _

/-- Leads to parents are cancelled in the route of the output. -/
theorem plain_of_request {given : Given} {here : Route} {q : Request}
    (h : given.request t here = .ok q) (houtput : q.output = some target) :
    parentMark ∉ target.way := by
  -- The output is the second argument, if there is one.
  have hsecond : ∀ {more : List String}, more.head?.mapM (Given.routeOf here) = .ok (some target) →
      parentMark ∉ target.way := by
    intro more hmore
    cases hhead : more.head? with
    | none => simp [hhead, pure, Except.pure] at hmore
    | some path =>
        simp only [hhead, Option.mapM_some, Functor.map, Except.map] at hmore
        cases hpath : Given.routeOf here path with
        | error objection => simp [hpath] at hmore
        | ok r =>
            have hr : r = target := by simpa [hpath] using hmore
            exact hr ▸ plain_of_routeOf hpath
  unfold Given.request at h
  simp only [bind, Except.bind] at h
  split at h
  · simp at h
  split at h
  · simp at h
  split at h
  · simp at h
  split at h
  · simp at h
  rename_i output hmore
  split at h
  · simp at h
  · simp only [pure, Except.pure, Except.ok.injEq] at h
    subst h
    exact hsecond (hmore.trans (congrArg Except.ok houtput))

/-- A run of the command: what is drawn for the name of a temporary file, the directory
    in which it is run, and its arguments. -/
structure Run where
  draws : List Draw
  here : Route
  arguments : List String

/-- The request that the arguments of a run make, if they make one. -/
def Run.asked (r : Run) (t : Tree) : Option Request :=
  requested? t r.here r.arguments

/-- What is left after a run. -/
def Run.aftermath (r : Run) (t : Tree) : Aftermath :=
  run r.draws t r.here r.arguments

theorem run_cases (r : Run) (t : Tree) :
    (r.asked t = none ∧ (r.aftermath t).tree = t) ∨
      ∃ q, r.asked t = some q ∧ r.aftermath t = q.perform r.draws t r.here ∧
        ∀ target, q.output = some target → parentMark ∉ target.way := by
  unfold Run.asked Run.aftermath requested? run
  cases scan {} r.arguments with
  | error problem => exact .inl ⟨rfl, rfl⟩
  | ok given =>
      dsimp only
      split
      · exact .inl ⟨rfl, rfl⟩
      · cases hrequest : given.request t r.here with
        | error objection =>
            refine .inl ⟨rfl, ?_⟩
            cases objection <;> rfl
        | ok q => exact .inr ⟨q, rfl, rfl, fun target => plain_of_request hrequest⟩

/-- A run has crashed with its output emptied: the result cannot be encoded, and
    it was to be written plainly, so that the output was open by then. -/
def Torn (asked : Option Request) (before : Tree) (a : Aftermath) : Prop :=
  ∃ q target, asked = some q ∧ q.output = some target ∧
    (q.outputSettings before).atomic.isTrue = false ∧ a.report.crash = some .unencodable ∧
    a.tree = before.put target.way (.file .empty)

/-- What a run does to the tree, for the request that its arguments make. -/
structure Effect (asked : Option Request) (before : Tree) (a : Aftermath) : Prop where
  /-- Without an output nothing changes. -/
  silent : asked.bind Request.output = none → a.tree = before
  /-- With an output, all that changes is the output and directories on the way. -/
  footprint : ∀ q target, asked = some q → q.output = some target →
    Footprint before target a.tree
  /-- If the run fails, all files are as before, unless the output is torn. -/
  failed : a.report.exitCode ≠ 0 → Torn asked before a ∨ ∀ p content,
    (a.tree.get? p = some (.file content) ↔ before.get? p = some (.file content))
  /-- If it succeeds, its output is a file. -/
  succeeded : a.report.exitCode = 0 → ∀ q target, asked = some q → q.output = some target →
    ∃ content, a.tree.get? target.way = some (.file content)
  /-- A file that has to be kept is kept. -/
  guarded : ∀ q, asked = some q → (q.outputSettings before).mode = .keep → ∀ p content,
    before.get? p = some (.file content) → a.tree.get? p = some (.file content)

theorem effect_unchanged {asked : Option Request} {a : Aftermath} (h : a.tree = t)
    (hfails : asked.bind Request.output ≠ none → a.report.exitCode ≠ 0) :
    Effect asked t a where
  silent _ := h
  footprint _ _ _ _ := h ▸ ⟨fun _ _ _ => Iff.rfl, fun _ hp => hp, fun _ hnot hp => absurd hp hnot⟩
  failed _ := .inr fun _ _ => h ▸ Iff.rfl
  succeeded hzero q target hq hout := absurd hzero (hfails (by simp [hq, hout]))
  guarded _ _ _ _ _ hp := h ▸ hp

/-- What is delivered to an output has the effect. -/
theorem effect_deliver (ht : t.Closed) {q : Request} (houtput : q.output = some target)
    (hplain : parentMark ∉ target.way) (draws : List Draw) (log : Log) (fusion : Document) :
    Effect (some q) t (q.deliver draws t (q.outputSettings t) log fusion) := by
  rcases deliver_written (t := t) houtput draws (q.outputSettings t) log fusion with
    ⟨htree, hcode, hcrash⟩
  generalize q.deliver draws t (q.outputSettings t) log fusion = a at htree hcode hcrash ⊢
  refine ⟨?_, ?_, ?_, ?_, ?_⟩
  · intro hnone
    simp [houtput] at hnone
  · rintro _ other ⟨⟩ hother
    rw [houtput, Option.some.injEq] at hother
    rw [htree, ← hother]
    exact footprint_write _ draws t _ hplain
  · -- Of the ways to write to the output only one fails.
    intro hfailed
    rcases write_cases (q.outputSettings t) draws t target (terminated fusion) hplain with
      ⟨ready, hgrown, -, hcases⟩
    rcases hcases with ⟨fault, h⟩ | ⟨parent, content, -, -, -, -, h | ⟨hplainly, rfl, rfl, h⟩⟩
    · right
      intro p content
      rw [htree, h]
      exact hgrown.file_iff
    · exact absurd (hcode.mpr (by rw [h])) hfailed
    · exact .inl ⟨q, target, rfl, houtput, hplainly, hcrash (by rw [h]), by rw [htree, h]⟩
  · rintro hzero _ other ⟨⟩ hother
    rw [houtput, Option.some.injEq] at hother
    have hok := hcode.mp hzero
    rcases write_cases (q.outputSettings t) draws t target (terminated fusion) hplain with
      ⟨ready, -, -, hcases⟩
    rcases hcases with ⟨fault, h⟩ | ⟨parent, content, -, hplace, -, -, h | ⟨-, -, -, h⟩⟩
    · simp [h] at hok
    · rw [htree, h, ← hother]
      exact ⟨content, Files.get?_put_self (by simp [← hplace])⟩
    · simp [h] at hok
  · rintro _ ⟨⟩ hmode p content hold
    rw [htree]
    exact write_keeps ht hmode draws _ hplain hold

/-- Every run on a closed tree has the effect. -/
theorem effect_run (ht : t.Closed) (r : Run) : Effect (r.asked t) t (r.aftermath t) := by
  rcases run_cases r t with ⟨hasked, htree⟩ | ⟨q, hasked, hrun, hplain⟩
  · rw [hasked]
    exact effect_unchanged htree (by simp)
  · rw [hasked, hrun]
    rcases perform_cases q r.draws t r.here with ⟨ending, log, hending, h⟩ | ⟨log, fusion, h⟩
    · rw [h]
      exact effect_unchanged rfl fun _ => exitCode_report hending log
    · rw [h]
      cases houtput : q.output with
      | none => exact effect_unchanged (deliver_printed houtput _ _ _ _) (by simp [houtput])
      | some target => exact effect_deliver ht houtput (hplain target houtput) r.draws log fusion

theorem closed_run (ht : t.Closed) (r : Run) : (r.aftermath t).tree.Closed := by
  rcases run_cases r t with ⟨-, htree⟩ | ⟨q, -, hrun, hplain⟩
  · rwa [htree]
  · rw [hrun]
    rcases perform_cases q r.draws t r.here with ⟨ending, log, -, h⟩ | ⟨log, fusion, h⟩
    · rwa [h]
    · rw [h]
      cases houtput : q.output with
      | none => rwa [deliver_printed houtput]
      | some target =>
          rw [(deliver_written houtput r.draws (q.outputSettings t) log fusion).1]
          exact closed_write ht _ r.draws _ (hplain target houtput)

/-- The tree after a sequence of runs. -/
def runAll (t : Tree) (runs : List Run) : Tree :=
  runs.foldl (fun before r => (r.aftermath before).tree) t

theorem runAll_append (t : Tree) (done rest : List Run) :
    runAll t (done ++ rest) = runAll (runAll t done) rest :=
  List.foldl_append

theorem closed_runAll (ht : t.Closed) (runs : List Run) : (runAll t runs).Closed := by
  induction runs generalizing t with
  | nil => exact ht
  | cons first rest ih => exact ih (closed_run ht first)

/-- A file keeps its content in a run unless it is the output and need not be
    kept. -/
theorem Effect.file_kept {asked : Option Request} {a : Aftermath} (h : Effect asked t a)
    {p : Files.Place} {content : ByteArray} (hp : t.get? p = some (.file content))
    (hguarded : ∀ q target, asked = some q → q.output = some target → target.way = p →
      (q.outputSettings t).mode = .keep) :
    a.tree.get? p = some (.file content) := by
  cases hasked : asked with
  | none => rw [h.silent (by simp [hasked]), hp]
  | some q =>
      cases houtput : q.output with
      | none => rw [h.silent (by simp [hasked, houtput]), hp]
      | some target =>
          by_cases htarget : target.way = p
          · exact h.guarded q hasked (hguarded q target hasked houtput htarget) p content hp
          · exact ((h.footprint q target hasked houtput).others p content (Ne.symm htarget)).mpr hp

/-- By induction on the runs, with the tree that the first one leaves. -/
theorem file_runAll (ht : t.Closed) (runs : List Run) {p : Files.Place} {content : ByteArray}
    (hp : t.get? p = some (.file content))
    (hguarded : ∀ done r rest, runs = done ++ r :: rest →
      ∀ q target, r.asked (runAll t done) = some q → q.output = some target →
        target.way = p → (q.outputSettings (runAll t done)).mode = .keep) :
    (runAll t runs).get? p = some (.file content) := by
  induction runs generalizing t with
  | nil => exact hp
  | cons first rest ih =>
      have hkept : (first.aftermath t).tree.get? p = some (.file content) :=
        (effect_run ht first).file_kept hp (hguarded [] first rest rfl)
      refine ih (closed_run ht first) hkept ?_
      intro done r left hrest
      exact hguarded (first :: done) r left (by rw [hrest]; rfl)

/-- Each run of a sequence has the effect of `Effect` on the tree that the runs
    before it leave: if it fails it changes no file, unless its result cannot be
    encoded and its output is emptied; if it succeeds it changes its output at
    most; and a file that has to be kept is kept. So a file keeps its content
    through a sequence in which each run that has it for its output has to keep
    it. -/
theorem runs_keep_to_their_output (t : Tree) (ht : t.Closed) (runs : List Run) :
    (∀ done r rest, runs = done ++ r :: rest →
      let before := runAll t done
      let a := run r.draws before r.here r.arguments
      runAll t (done ++ [r]) = a.tree ∧
        Effect (requested? before r.here r.arguments) before a) ∧
    ∀ p content, t.get? p = some (.file content) →
      (∀ done r rest, runs = done ++ r :: rest →
        ∀ q target, requested? (runAll t done) r.here r.arguments = some q →
          q.output = some target → target.way = p →
            (q.outputSettings (runAll t done)).mode = .keep) →
      (runAll t runs).get? p = some (.file content) := by
  constructor
  · intro done r rest _ before a
    have hbefore : before.Closed := closed_runAll ht done
    exact ⟨runAll_append t done [r], effect_run hbefore r⟩
  · intro p content hp hguarded
    exact file_runAll ht runs hp hguarded

/-- A source that is its own output is kept. -/
theorem runs_keep_to_their_output_itself :
    Files.lone.Closed ∧
      (runAll Files.lone [⟨[.ofNumber 0], .fromRoot [], ["b", "b"]⟩]).get? ["b"] =
        some (.file "old".toUTF8) := by
  have hmode : (requested? Files.lone (.fromRoot []) ["b", "b"]).map
      (fun q => (q.outputSettings Files.lone).mode) = some .keep := by decide +kernel
  have hold : Files.lone.get? ["b"] = some (.file "old".toUTF8) := by decide
  refine ⟨Files.closed_lone, ?_⟩
  refine (runs_keep_to_their_output Files.lone Files.closed_lone _).2 ["b"] "old".toUTF8 hold ?_
  intro done r rest hruns q target hasked _ _
  cases done with
  | nil =>
      rcases List.cons.inj hruns with ⟨rfl, -⟩
      simp only [runAll, List.foldl_nil] at hasked ⊢
      simpa [hasked] using hmode
  | cons _ more => simp at hruns

/-- A run that fails and yet loses the content of a file: its settings hold half of
    a surrogate pair, and the file is open when the result turns out not to be
    encodable. -/
theorem failing_run_empties_output :
    let settings := "\x7b\"tag_prototype\":\"\\ud800\"," ++
      "\"output\":\x7b\"atomic_write\":false\x7d\x7d"
    let t : Tree := ⟨[(["x.afx"], .file "<a/>".toUTF8), (["c.json"], .file settings.toUTF8),
      (["o.fusion"], .file "old".toUTF8)]⟩
    let a := run [.ofNumber 0] t (.fromRoot []) ["-m", "force", "-c", "c.json", "x.afx", "o.fusion"]
    a.report.exitCode = 1 ∧ a.tree.get? ["o.fusion"] = some (.file .empty) := by
  decide +kernel

end Command

end Afx
