import Afx.Command.Arguments
import Afx.Data.Reader
import Afx.Fusion.Block
import Afx.Fusion.Conversion
import Afx.Text.ControlSequence
import Afx.Text.Blank

/-!
# Running the Command

The command reads its settings and its source, converts the source, and prints
the result or writes it to the output. What it does to the source depends on
the file: the blocks of a Fusion document are converted, and other sources are
converted whole, as a component declaration if a name for one was given.

A run ends well, with a message for the user, with a problem in its use, or in
a crash on a condition that is not reported to the user. Everything it does to
files is in the tree it leaves behind. What it prints, the log apart, is shown
without control sequences.

Settings may hold halves of surrogate pairs, which are no characters. A result
with one in it can be neither printed nor written to a file.

## Main definitions

* `Crash`: The conditions that end a run without a message.
* `Ending`: How a run ends.
* `Request.convert`: The Fusion that a request asks for.
* `Request.document`: The same, and whether it can be encoded.
* `Report`: What a run shows.
* `run`: One run of the command.
-/

namespace Afx

namespace Command

/-- The conditions that end a run without a message. -/
inductive Crash where
  /-- The settings file cannot be read as data. -/
  | unreadableData (fault : Datum.ReadFault)
  /-- The data gives no settings, or none for the output. -/
  | badSettings (fault : RecordFault)
  /-- A file holds no text. -/
  | notText
  /-- The indentation in the settings cannot be stacked. -/
  | unstackable (fault : Datum.SumFault)
  /-- The indentation in the settings cannot be written out. -/
  | unwritable
  /-- The result holds something that is no character. -/
  | unencodable
  /-- A file operation fails. -/
  | files (fault : Files.FileFault)
  deriving DecidableEq, Repr

/-- How a run ends before its work is done. -/
inductive Ending where
  | misuse (problem : Problem)
  | failure (message : String)
  | crash (crash : Crash)
  | help

/-- The text of a file, with line feeds only. -/
def readText (t : Files.Tree) (r : Files.Route) : Except Ending String :=
  match t.find r with
  | .error fault => .error (.crash (.files fault))
  | .ok (_, none) => .error (.crash (.files .notFound))
  | .ok (_, some .directory) => .error (.crash (.files .isADirectory))
  | .ok (_, some (.file content)) =>
    match String.fromUTF8? content with
    | some text => .ok (Text.unifyLineEnds text)
    | none => .error (.crash .notText)

/-- What a settings file may hold. -/
def settingsLimits : Datum.Limits where
  digits := some Datum.digitLimit
  depth := some 970

/-- The settings in a file, which holds those for the output in a field. -/
def readSettings (t : Files.Tree) (r : Files.Route) :
    Except Ending (Fusion.Settings × OutputSettings) := do
  let text ← readText t r
  match Datum.readWithin settingsLimits text with
  | .error fault => .error (.crash (.unreadableData fault))
  | .ok (.record fields) =>
    -- The settings for the output are looked at first.
    match OutputSettings.ofDatum ((fields.lookup "output").getD (.record [])) with
    | .error (.record fault) => .error (.crash (.badSettings fault))
    | .error (.unknownMode value) => .error (.misuse (.badOutputSettings r.text value))
    | .ok output =>
      match Fusion.Settings.ofDatum (.record fields) with
      | .error fault => .error (.crash (.badSettings fault))
      | .ok settings => return (settings, output)
  | .ok _ => .error (.crash (.badSettings .notARecord))

/-- How a run ends if a conversion fails. -/
def endingOf : Fusion.Failure → Ending
  | .unreadable source fault => .failure (fault.message source)
  | .unrenderable fault => .failure fault.message
  | .unstackable fault => .crash (.unstackable fault)
  | .unwritable => .crash .unwritable

/-- How a run ends if its output cannot be written. -/
def endingOfWrite : Files.WriteFault → Ending
  | .refused refusal => .failure refusal.message
  | .unencodable => .crash .unencodable
  | .files fault => .crash (.files fault)

/-- The log of a run, one message after another. -/
abbrev Log := List String

/-- A message about details. -/
def detail (message : String) : String := "[DEBUG] " ++ message ++ "\n"

/-- A message about what was done. -/
def notice (message : String) : String := "[INFO] " ++ message ++ "\n"

namespace Request

/-- The parameters of the request by their names. -/
def parameters (q : Request) : List (String × Datum) :=
  let text (name : String) (value : Option String) : List (String × Datum) :=
    (value.map fun content => (name, Datum.text content)).toList
  text "config" (q.config.map Files.Route.text) ++ text "prototype" q.prototype ++
    text "package" q.package ++ text "mode" (q.mode.map Mode.label) ++
    [("verbose", .bool q.verbose), ("path", .text q.path.text)] ++
    text "output" (q.output.map Files.Route.text)

/-- The name of the component to declare, if one was given or asked for. -/
def component? (q : Request) : Option String :=
  q.prototype.or (q.package.map fun package => Fusion.componentName package q.path.text)

/-- The comment above a generated declaration. -/
def comment (q : Request) (t : Files.Tree) (here : Files.Route) : Except Ending String :=
  match commandLine t here q.parameters with
  | .ok line => .ok ("Generated by " ++ commandName ++ " 1.0.0: " ++ line)
  | .error fault => .error (.crash (.files fault))

/-- The declaration of the component that the request asks for. -/
def declaration (q : Request) (t : Files.Tree) (here : Files.Route) (s : Fusion.Settings)
    (name source : String) : Except Ending String := do
  -- The renderer stands one level deep in the declaration.
  let renderer ← (s.convert s.indentation source).mapError endingOf
  return s.declaration name renderer (some (← q.comment t here))

/-- The Fusion that the request asks for, with the log. -/
def convert (q : Request) (t : Files.Tree) (here : Files.Route) (s : Fusion.Settings)
    (source : String) : Log × Except Ending String :=
  if Files.suffix q.path.name == ".fusion" then
    let started := detail ("Transpiling AFX blocks in " ++ q.path.text)
    match s.convertBlocks source with
    | .ok fusion =>
      ([started, detail ("Transpiled " ++ toString (s.blockCount source) ++ " " ++
        s.blockName.display ++ " block(s)")], .ok fusion)
    | .error failure => ([started], .error (endingOf failure))
  else
    match q.component? with
    | some name =>
      ([detail ("Rendering " ++ q.path.text ++ " as prototype " ++ name)],
        q.declaration t here s name source)
    | none => ([], (s.convert (.text "") source).mapError endingOf)

/-- The document that the request asks for, with the log. It holds what is no
    character if its text depends on what stands for that. -/
def document (q : Request) (t : Files.Tree) (here : Files.Route) (s : Fusion.Settings)
    (source : String) : Log × Except Ending Files.Document :=
  let (log, converted) := q.convert t here (s.mended '\ufffd') source
  let other := (q.convert t here (s.mended '\ufffc') source).2
  (log, converted.map fun text => { text, encodable := other.toOption == some text })

end Request

/-- What a run shows: its exit code, its two outputs, and a crash if it ends in one. -/
structure Report where
  exitCode : Nat
  out : String := ""
  err : String := ""
  crash : Option Crash := none

/-- The lines that say how the command is used. -/
def usage : String :=
  "Usage: " ++ commandName ++ " [OPTIONS] PATH [OUTPUT]\n"

/-- The page that explains the command. -/
def helpPage : String :=
  usage ++ "\nOptions:\n" ++
    "  -c, --config PATH\n" ++
    "  -p, --prototype TEXT      Wrap the output in a prototype declaration with this\n" ++
    "                            name\n" ++
    "  --package TEXT            Derive the prototype name from the file name within\n" ++
    "                            this package\n" ++
    "  -m, --mode [error|force]  What to do when OUTPUT already exists (overrides\n" ++
    "                            config file)\n" ++
    "  -v, --verbose             Enable debug logging\n" ++
    "  --help                    Show this message and exit.\n"

/-- A line as it is printed. -/
def printed (line : String) : String :=
  Text.withoutSequences line ++ "\n"

/-- What is shown of a run that ends before its work is done. -/
def Ending.report (log : String) : Ending → Report
  | misuse problem =>
    let hint := if problem.showsUsage then
        usage ++ "Try '" ++ commandName ++ " --help' for help.\n\n" else ""
    { exitCode := 2, err := log ++ hint ++ printed ("Error: " ++ problem.message) }
  | failure message => { exitCode := 1, err := log ++ printed ("Error: " ++ message) }
  | crash condition => { exitCode := 1, err := log, crash := some condition }
  | help => { exitCode := 0, out := helpPage }

/-- A text without the line feeds at its end. -/
def withoutFinalLines (text : String) : String :=
  String.ofList (text.toList.reverse.dropWhile (· == '\n')).reverse

/-- What a run leaves behind: what it shows, and the files. -/
structure Aftermath where
  report : Report
  tree : Files.Tree

/-- Prints the result, or writes it to the output. -/
def Request.deliver (q : Request) (draws : List Files.Draw) (t : Files.Tree) (o : OutputSettings)
    (log : Log) (fusion : Files.Document) : Aftermath :=
  let told (log : Log) : String := if q.verbose then String.join log else ""
  match q.output with
  | none =>
    if fusion.encodable then
      ⟨{ exitCode := 0, out := printed (withoutFinalLines fusion.text), err := told log }, t⟩
    else ⟨(Ending.crash .unencodable).report (told log), t⟩
  | some target =>
    match o.write draws t target (terminated fusion) with
    | ⟨.ok (), after⟩ =>
      let wrote := if o.atomic.isTrue then [notice ("Wrote " ++ target.text)] else []
      ⟨{ exitCode := 0, err := told (log ++ wrote) }, after⟩
    | ⟨.error fault, after⟩ => ⟨(endingOfWrite fault).report (told log), after⟩

/-- Does what is asked for. -/
def Request.perform (q : Request) (draws : List Files.Draw) (t : Files.Tree)
    (here : Files.Route) : Aftermath :=
  -- Until both files are read nothing is logged.
  let read : Except Ending (Fusion.Settings × OutputSettings × String) := do
    let (settings, output) ← match q.config with
      | some config => readSettings t config
      | none => .ok ({}, {})
    let source ← readText t q.path
    return (settings, { output with mode := q.mode.getD output.mode }, source)
  match read with
  | .error ending => ⟨ending.report "", t⟩
  | .ok (settings, output, source) =>
    match q.document t here settings source with
    | (log, .ok fusion) => q.deliver draws t output log fusion
    | (log, .error ending) =>
      ⟨ending.report (if q.verbose then String.join log else ""), t⟩

/-- One run of the command in a directory, on its arguments. The draws are for the name
    of a temporary file. -/
def run (draws : List Files.Draw) (t : Files.Tree) (here : Files.Route)
    (arguments : List String) : Aftermath :=
  match scan {} arguments with
  | .error problem => ⟨(Ending.misuse problem).report "", t⟩
  | .ok given =>
    if (given.value? .help).isSome then ⟨Ending.help.report "", t⟩
    else
      match given.request t here with
      | .error (.misuse problem) => ⟨(Ending.misuse problem).report "", t⟩
      | .error (.path fault) => ⟨(Ending.crash (.files fault)).report "", t⟩
      | .ok request => request.perform draws t here

end Command

end Afx
