import Afx.Command.Output
import Afx.Proofs.Writing

/-!
# Two Ways of Writing

The output is written through a temporary file, or plainly. The two ways ask the
same question first, whether something has to be kept, and `write_asks` takes
that question out of both. What is left differs in its steps: one way makes
directories and a temporary file before it checks the document, and the other
checks it first and then opens the target.

Where the parent of the target is a directory, no directory is made, so that
`writeAtomically_eq` leaves three things to compare: whether the temporary file
can be made, whether the document is admitted, and what writing at once comes
to. The last two are the same for both ways. The first is not, because the name
of the temporary file is longer than that of its target, and a name that is just
short enough leaves no room for it; and because every name that is drawn may be
taken.

One more thing tells them apart: a target that ends in no name, as it is the root, or
the directory in which its route starts, or leads back to a parent, cannot be replaced,
and cannot be opened as a file. Both ways fail, but not for the same reason.

## Main definitions

* `OutputSettings.writeAnyway`: What is left once nothing has to be kept.

## Theorems

* `makeDirectories_of_isDirectory`: A directory that is there is not made.
* `writeAtomically_of_isDirectory`: What writing through a temporary file comes to in a
  directory.
* `write_asks`: Both ways ask first whether something has to be kept.
* `atomic_agrees_with_plain`: Both ways leave the same tree and come to the same
  end where a temporary file can be made.
-/

namespace Afx

namespace Files

variable {t : Tree} {target : Route}

/-! ## A target in a directory -/

/-- A directory that is there is not made. -/
theorem makeDirectories_of_isDirectory {r : Route} (h : t.isDirectory r = true) :
    makeDirectories t r = ⟨.ok (), t⟩ := by
  rcases find_of_isDirectory h with ⟨p, hfind⟩
  have hroute : (⟨r.start, r.components.reverse.reverse⟩ : Route) = r := by
    rw [List.reverse_reverse]
  unfold makeDirectories
  cases hway : r.components.reverse with
  | nil =>
      rw [hway, List.reverse_nil] at hroute
      unfold makeDirectoriesWithin
      rw [tolerating, hroute, if_pos h]
  | cons name outer =>
      rw [hway] at hroute
      have hmade : makeDirectory t r = .error .alreadyExists := by
        simp only [makeDirectory, hfind]
      unfold makeDirectoriesWithin
      simp only [hroute, hmade, tolerating, h, if_true]

/-- Writing through a temporary file in a directory that is there. -/
theorem writeAtomically_of_isDirectory (check : Check) (draws : List Draw) (document : Document)
    (hdir : t.isDirectory target.parent = true) :
    (target.HasRoom → t.HasNewName target draws →
      writeAtomically check draws t target document =
        match document.admitted check with
        | .error fault => ⟨.error fault, t⟩
        | .ok () => replaced t target document) ∧
    (target.HasRoom → ¬ t.HasNewName target draws →
      writeAtomically check draws t target document = ⟨.error (.files .alreadyExists), t⟩) ∧
    (¬ target.HasRoom → draws ≠ [] →
      ∃ fault, (fault = .nullCharacter ∨ fault = .nameTooLong) ∧
        writeAtomically check draws t target document = ⟨.error (.files fault), t⟩) := by
  rcases find_of_isDirectory hdir with ⟨p, hfind⟩
  have henter := enter_of_find hfind
  rw [writeAtomically_eq, makeDirectories_of_isDirectory hdir]
  dsimp only
  refine ⟨fun hroom hnew => ?_, fun hroom hnone => ?_, fun hroom hdraws => ?_⟩
  · rcases temporaryPlace_of_hasRoom hroom henter draws with ⟨-, place, hplace⟩ | ⟨hnone, -⟩
    · rw [hplace]
      cases document.admitted check <;> rfl
    · exact absurd hnew hnone
  · rcases temporaryPlace_of_hasRoom hroom henter draws with ⟨hnew, -⟩ | ⟨-, hplace⟩
    · exact absurd hnew hnone
    · rw [hplace]
  · rcases temporaryPlace_of_not_hasRoom hroom hdraws henter with ⟨fault, hfault, hplace⟩
    exact ⟨fault, hfault, by rw [hplace]⟩

/-- Writing at once is writing plainly, but for a target that ends in no name. -/
theorem replaced_cases (t : Tree) (target : Route) (document : Document) :
    replaced t target document = writePlainly t target document ∨
      (∃ p, t.find target = .ok (p, some .directory)) ∧ target.isNameless = true ∧
        replaced t target document = ⟨.error (.files .busy), t⟩ ∧
        writePlainly t target document = ⟨.error (.files .isADirectory), t⟩ := by
  unfold replaced
  split
  · rename_i found hname hfind
    rcases found with ⟨p, e⟩
    rcases find_eq_ok hfind with ⟨-, -, rfl⟩ | ⟨parent, hnames, -⟩
    · exact .inr ⟨⟨p, hfind⟩, hname, rfl, by simp only [writePlainly, hfind]⟩
    · rw [hnames.named] at hname
      simp at hname
  · exact .inl rfl

theorem hasNull_replicate (n : Nat) :
    hasNull ("/" ++ String.ofList (List.replicate n 'x')) = false := by
  simp [hasNull]

end Files

namespace Command

open Files (Tree Route Draw Document Result WriteFault)

variable {t : Tree} {target : Route} {document : Document}

/-- What is left to do once it is settled that nothing has to be kept. -/
def OutputSettings.writeAnyway (s : OutputSettings) (draws : List Draw) (t : Tree)
    (target : Route) (document : Document) : Result WriteFault Unit :=
  if s.atomic.isTrue then Files.writeAtomically s.check draws t target document
  else
    match s.check document.text with
    | .error refusal => ⟨.error (.refused refusal), t⟩
    | .ok () => Files.writePlainly t target document

/-- Both ways ask first whether something has to be kept. -/
theorem write_eq (s : OutputSettings) (draws : List Draw) (t : Tree) (target : Route)
    (document : Document) :
    s.write draws t target document =
      match s.mode, t.isThere target with
      | .keep, .error fault => ⟨.error (.files fault), t⟩
      | .keep, .ok true => ⟨.error (.refused (.taken target.text)), t⟩
      | _, _ => s.writeAnyway draws t target document := by
  unfold OutputSettings.write OutputSettings.writeAnyway OutputSettings.writePlainly Files.writeNew
  by_cases hatomic : s.atomic.isTrue = true
  · simp only [hatomic, if_true]
    cases s.mode with
    | replace => rfl
    | keep =>
        rcases t.isThere target with fault | there
        · rfl
        · cases there <;> rfl
  · simp only [hatomic]
    rfl

/-- Whether something has to be kept ends the writing or lets it go on, whichever
    way it is done and whatever the document is. -/
theorem write_asks (mode : Mode) (draws : List Draw) (t : Tree) (target : Route) :
    (∃ fault, ∀ (s : OutputSettings) document, s.mode = mode →
      s.write draws t target document = ⟨.error fault, t⟩) ∨
    (mode = .keep → t.isThere target = .ok false) ∧
      ∀ (s : OutputSettings) document, s.mode = mode →
        s.write draws t target document = s.writeAnyway draws t target document := by
  simp only [write_eq]
  cases mode with
  | replace => exact .inr ⟨fun h => by simp at h, fun s document hmode => by rw [hmode]⟩
  | keep =>
      rcases t.isThere target with fault | there
      · exact .inl ⟨_, fun s document hmode => by rw [hmode]⟩
      · cases there with
        | true => exact .inl ⟨_, fun s document hmode => by rw [hmode]⟩
        | false => exact .inr ⟨fun _ => rfl, fun s document hmode => by rw [hmode]⟩

/-- Without the question what has to be kept, the two ways agree on every target
    that has a name. -/
theorem writeAnyway_agrees (s : OutputSettings) {draws : List Draw}
    (hdir : t.isDirectory target.parent = true) (hencodable : document.encodable = true)
    (hroom : target.HasRoom) (hnew : t.HasNewName target draws) :
    let through := { s with atomic := .bool true }.writeAnyway draws t target document
    let plain := { s with atomic := .bool false }.writeAnyway draws t target document
    through = plain ∨
      (∃ p, t.find target = .ok (p, some .directory)) ∧ target.isNameless = true ∧
        through = ⟨.error (.files .busy), t⟩ ∧ plain = ⟨.error (.files .isADirectory), t⟩ := by
  intro through plain
  have hplain : plain = match s.check document.text with
      | .error refusal => ⟨.error (.refused refusal), t⟩
      | .ok () => Files.writePlainly t target document := rfl
  have hthrough : through = match document.admitted s.check with
      | .error fault => ⟨.error fault, t⟩
      | .ok () => Files.replaced t target document :=
    (Files.writeAtomically_of_isDirectory s.check draws document hdir).1 hroom hnew
  rw [hthrough, hplain, Document.admitted, if_pos hencodable]
  cases s.check document.text with
  | error refusal => exact .inl rfl
  | ok _ => exact Files.replaced_cases t target document

/-- Both ways leave the same tree, and both succeed or both fail with the same
    fault, where the parent of the target is a directory with room for a temporary
    file, for which a new name is drawn; only a target that ends in no name, where it may be
    replaced, is refused by each way in its own words. Where there is no room, or
    no new name is drawn, writing through a temporary file changes nothing and fails. -/
theorem atomic_agrees_with_plain (s : OutputSettings) (draws : List Draw) (t : Tree)
    (target : Route) (document : Document) (hdir : t.isDirectory target.parent = true)
    (hencodable : document.encodable = true) :
    let through := { s with atomic := .bool true }.write draws t target document
    let plain := { s with atomic := .bool false }.write draws t target document
    (target.HasRoom → t.HasNewName target draws → through.tree = plain.tree ∧
      (through.outcome = plain.outcome ∨
        s.mode = .replace ∧ target.isNameless = true ∧
          through.outcome = .error (.files .busy) ∧
          plain.outcome = .error (.files .isADirectory))) ∧
    (target.HasRoom → ¬ t.HasNewName target draws → through = plain ∨
      through = ⟨.error (.files .alreadyExists), t⟩) ∧
    (¬ target.HasRoom → draws ≠ [] → through = plain ∨
      ∃ fault, (fault = .nullCharacter ∨ fault = .nameTooLong) ∧
        through = ⟨.error (.files fault), t⟩) := by
  intro through plain
  -- Either both ways stop at the question what has to be kept, or neither does.
  rcases write_asks s.mode draws t target with ⟨fault, hstopped⟩ | ⟨hfree, hwrite⟩
  · have hthrough : through = ⟨.error fault, t⟩ := hstopped { s with atomic := .bool true } _ rfl
    have hplain : plain = ⟨.error fault, t⟩ := hstopped { s with atomic := .bool false } _ rfl
    rw [hthrough, hplain]
    exact ⟨fun _ _ => ⟨rfl, .inl rfl⟩, fun _ _ => .inl rfl, fun _ _ => .inl rfl⟩
  have hthrough : through = { s with atomic := .bool true }.writeAnyway draws t target document :=
    hwrite { s with atomic := .bool true } _ rfl
  have hplain : plain = { s with atomic := .bool false }.writeAnyway draws t target document :=
    hwrite { s with atomic := .bool false } _ rfl
  have hatomic := Files.writeAtomically_of_isDirectory s.check draws document hdir
  refine ⟨fun hroom hnew => ?_, fun hroom hnone => .inr (hthrough.trans ?_),
    fun hroom hdraws => .inr ?_⟩
  · rcases writeAnyway_agrees s hdir hencodable hroom hnew with
      hsame | ⟨⟨p, hfind⟩, hname, hbusy, hopened⟩
    · rw [hthrough, hplain, hsame]
      exact ⟨rfl, .inl rfl⟩
    · rw [hthrough, hplain, hbusy, hopened]
      refine ⟨rfl, .inr ⟨?_, hname, rfl, rfl⟩⟩
      -- A target without a name is there, so it would have been kept.
      by_contra hmode
      have hkeep : s.mode = .keep := by
        cases hm : s.mode with
        | keep => rfl
        | replace => exact absurd hm hmode
      have hthere := hfree hkeep
      simp [Tree.isThere, hfind] at hthere
  · exact hatomic.2.1 hroom hnone
  · rcases hatomic.2.2 hroom hdraws with ⟨fault, hfault, h⟩
    exact ⟨fault, hfault, hthrough.trans h⟩

/-- A new file in a directory, where the first name that is drawn is taken. -/
theorem atomic_agrees_with_plain_in_site :
    let t : Tree := (({} : Tree).put ["site"] .directory).put
      ["site", ".page.fusion.00000000.tmp"] (.file .empty)
    let target : Route := .ofText (.fromRoot ["site"]) "page.fusion"
    let draws : List Draw := [.ofNumber 0, .ofNumber 1]
    let document : Document := ⟨"page = 'a'\n", true⟩
    let through := ({ atomic := .bool true } : OutputSettings).write draws t target document
    let plain := ({ atomic := .bool false } : OutputSettings).write draws t target document
    (t.Closed ∧ t.isDirectory target.parent = true ∧ target.HasRoom ∧
        t.HasNewName target draws) ∧
      through.tree = plain.tree ∧ through.outcome = plain.outcome := by
  intro t target draws document through plain
  have hsite : (({} : Tree).put ([] ++ ["site"]) .directory).Closed :=
    Files.closed_empty.put rfl (by decide)
  have hold : (({} : Tree).put ["site"] .directory).get?
      (["site"] ++ [".page.fusion.00000000.tmp"]) ≠ some .directory := by decide +kernel
  have ht : t.Closed := hsite.put (by decide) hold
  have hdir : t.isDirectory target.parent = true := by decide +kernel
  have hroom : target.HasRoom := ⟨by decide +kernel, by decide +kernel, by decide +kernel⟩
  have hnew : t.HasNewName target draws :=
    ⟨.ofNumber 1, by decide +kernel, by decide +kernel⟩
  rcases (atomic_agrees_with_plain {} draws t target document hdir rfl).1 hroom hnew with
    ⟨htree, houtcome⟩
  refine ⟨⟨ht, hdir, hroom, hnew⟩, htree, houtcome.resolve_right ?_⟩
  rintro ⟨hmode, -⟩
  exact absurd hmode (by decide)

/-- A name that is just short enough for a file is too long for a temporary one. -/
theorem write_of_long_name {name : String} {draws : List Draw} (hdraws : draws ≠ [])
    (hlong : Files.nameLimit < name.utf8ByteSize + 14)
    (hshort : name.utf8ByteSize ≤ Files.nameLimit) (hnull : Files.hasNull ("/" ++ name) = false)
    (hencodable : document.encodable = true) :
    let s : OutputSettings := { checked := .bool false }
    (∃ fault, { s with atomic := .bool true }.write draws {} (.fromRoot [name]) document =
      ⟨.error (.files fault), {}⟩) ∧
    ({ s with atomic := .bool false }.write draws {} (.fromRoot [name]) document).outcome =
      .ok () := by
  intro s
  have hlimit : Files.nameLimit = 255 := rfl
  have hdir : ({} : Tree).isDirectory (Route.parent (.fromRoot [name])) = true := by
    rw [show Route.parent (.fromRoot [name]) = .fromRoot [] from rfl]
    decide
  have hnames : ({} : Tree).Names (.fromRoot [name]) [] := by
    refine ⟨?_, ?_, hshort, rfl⟩
    · refine Files.Route.isNameless_eq_false.mpr ⟨by simp [Route.fromRoot], ?_⟩
      rintro rfl
      exact absurd hlong (by decide)
    · have htext : Route.text (.fromRoot [name]) = "/" ++ name := rfl
      have hone : "/".utf8ByteSize = 1 := rfl
      have hroute : ¬ Files.routeLimit < ("/" ++ name).utf8ByteSize := by
        rw [String.utf8ByteSize_append, Files.routeLimit]
        omega
      rw [Tree.checkRoute, htext, if_neg (by simp [hnull]), if_neg hroute]
  -- The tree is empty, so that nothing has to be kept.
  have hthere : ({} : Tree).isThere (.fromRoot [name]) = .ok false := by
    rw [Tree.isThere, hnames.find]
    rfl
  simp only [write_eq, hthere]
  constructor
  · have hroom : ¬ (Route.fromRoot [name]).HasRoom := by
      intro hroom
      have hfits : name.utf8ByteSize + 14 ≤ Files.nameLimit := hroom.short
      omega
    rcases (Files.writeAtomically_of_isDirectory s.check draws document hdir).2.2 hroom hdraws with
      ⟨fault, -, h⟩
    exact ⟨fault, h⟩
  · have hfree : ({} : Tree).get? ([] ++ [Route.name (.fromRoot [name])]) ≠ some .directory := by
      simp [Tree.get?]
    have hplain : ({ s with atomic := .bool false } : OutputSettings).writeAnyway draws {}
        (.fromRoot [name]) document = Files.writePlainly {} (.fromRoot [name]) document := rfl
    rw [hplain, Files.writePlainly_of_names hnames hfree]
    exact Files.admitted_none hencodable

/-- One way fails where the other succeeds, in a directory that is there, because
    of a long name; and the root, the directory in which a route starts, and a parent are
    refused for two reasons. -/
theorem long_name_tells_apart :
    let target : Route := .fromRoot [String.ofList (List.replicate 250 'x')]
    let draws : List Draw := [.ofNumber 0]
    let document : Document := ⟨"page = 'a'\n", true⟩
    let s : OutputSettings := { checked := .bool false }
    let forced : OutputSettings := { s with mode := .replace }
    (({} : Tree).Closed ∧ ({} : Tree).isDirectory target.parent = true ∧
      (∃ fault, { s with atomic := .bool true }.write draws {} target document =
        ⟨.error (.files fault), {}⟩) ∧
      ({ s with atomic := .bool false }.write draws {} target document).outcome = .ok ()) ∧
    ∀ path ∈ ["/", ".", ".."],
      ({ forced with atomic := .bool true }.write draws {} (.ofText (.fromRoot []) path)
        document).outcome = .error (.files .busy) ∧
      ({ forced with atomic := .bool false }.write draws {} (.ofText (.fromRoot []) path)
        document).outcome = .error (.files .isADirectory) := by
  have hsize : (String.ofList (List.replicate 250 'x')).utf8ByteSize = 250 := by
    rw [Files.utf8ByteSize_ofList, List.length_replicate]
    intro c hc
    rw [List.eq_of_mem_replicate hc]
    decide
  refine ⟨⟨Files.closed_empty, by decide,
    write_of_long_name (by simp) ?_ ?_ (Files.hasNull_replicate 250) rfl⟩, ?_⟩
  · rw [hsize]
    decide
  · rw [hsize]
    decide
  · decide +kernel

end Command

end Afx
