import Afx.Command.Output

/-!
# Arguments of the Command

The command takes a path, perhaps an output path, and options anywhere among
them. An option is written by a long name, with its value behind an equals sign
or as the next argument, or by a letter; letters can share one hyphen, and the
value of a letter is what follows it, or else the next argument. Two hyphens
end the options. Of several values for one option the last counts.

What is given is checked in the order in which the options first appear, then
the path, the output and what is left over. The first problem is reported.

A generated file can say by which command it was made. The command is told by
its name, its arguments and its options, each of which is shown if it has a
value that counts as true. A text that leads to a file or directory is shown by
its last component only, so that the line does not depend on where the files
are.

## Main definitions

* `Switch`: The options.
* `Problem`: What is wrong with a use of the command.
* `Given`: The options and arguments that were given.
* `scan`: Reads the arguments.
* `Objection`: Why a request cannot be made out.
* `Request`: What the command is asked to do.
* `Given.request`: Checks what was given.
* `shown`: How a parameter's value is shown.
* `commandLine`: The command line for given parameters.
-/

namespace Afx

namespace Command

/-- The name of the command. -/
def commandName : String := "afx_to_fusion"

/-- The options of the command. -/
inductive Switch where
  | config
  | prototype
  | package
  | mode
  | verbose
  | help
  deriving DecidableEq, Repr

namespace Switch

/-- All options. -/
def all : List Switch := [config, prototype, package, mode, verbose, help]

/-- The long name of an option. -/
def long : Switch → String
  | config => "--config"
  | prototype => "--prototype"
  | package => "--package"
  | mode => "--mode"
  | verbose => "--verbose"
  | help => "--help"

/-- The letter of an option, if it has one. -/
def letter? : Switch → Option Char
  | config => some 'c'
  | prototype => some 'p'
  | mode => some 'm'
  | verbose => some 'v'
  | package | help => none

/-- Whether an option has a value. -/
def takesValue : Switch → Bool
  | verbose | help => false
  | _ => true

/-- The option with a long name. -/
def ofLong? (name : String) : Option Switch :=
  all.find? fun switch => switch.long == name

/-- The option with a letter. -/
def ofLetter? (c : Char) : Option Switch :=
  all.find? fun switch => switch.letter? == some c

end Switch

/-- What is wrong with a use of the command. -/
inductive Problem where
  | unknownOption (spelling : String)
  | missingValue (spelling : String)
  | unwantedValue (spelling : String)
  | missingPath
  | absentPath (path : String)
  | absentConfig (path : String)
  | unknownMode (name : String)
  | extraArguments (arguments : List String)
  | badOutputSettings (config : String) (value : Datum)

namespace Problem

/-- Faults in how an option is written are reported without the usage. -/
def showsUsage : Problem → Bool
  | missingValue _ | unwantedValue _ => false
  | _ => true

/-- The wording for a path that leads nowhere. -/
def absent (path : String) : String :=
  "Path " ++ Text.quoted path ++ " does not exist."

/-- The wording of a problem. -/
def message : Problem → String
  | unknownOption spelling => "No such option " ++ Text.quoted spelling ++ "."
  | missingValue spelling => "Option " ++ Text.quoted spelling ++ " requires an argument."
  | unwantedValue spelling => "Option " ++ Text.quoted spelling ++ " does not take a value."
  | missingPath => "Missing argument 'PATH'."
  | absentPath path => "Invalid value for 'PATH': " ++ absent path
  | absentConfig path => "Invalid value for '--config' / '-c': " ++ absent path
  | unknownMode name =>
    "Invalid value for '--mode' / '-m': " ++ Text.quoted name ++
      " is not one of 'error', 'force'."
  | extraArguments arguments =>
    "Got unexpected extra " ++ (if arguments.length == 1 then "argument" else "arguments") ++
      " (" ++ Text.joined " " arguments ++ ")"
  | badOutputSettings config value =>
    "Invalid value for --config: invalid output configuration in " ++ config ++ ": " ++
      unknownModeMessage value

end Problem

/-- Why a request cannot be made out: a problem in the use of the command, or a
    path that cannot be followed at all. -/
inductive Objection where
  | misuse (problem : Problem)
  | path (fault : Files.FileFault)

/-- The options with their values and the arguments, in the order given. -/
structure Given where
  options : List (Switch × String) := []
  arguments : List String := []

/-- What one argument says. -/
inductive Reading where
  /-- It is an argument of the command. -/
  | plain
  /-- It gives options. -/
  | options (given : List (Switch × String))
  /-- It gives options, and one more whose value is the next argument. -/
  | awaiting (given : List (Switch × String)) (switch : Switch) (spelling : String)
  | wrong (problem : Problem)

/-- Options written by letters behind one hyphen. -/
def letters (given : List (Switch × String)) : List Char → Reading
  | [] => .options given
  | c :: rest =>
    let spelling := String.ofList ['-', c]
    match Switch.ofLetter? c with
    | none => .wrong (.unknownOption spelling)
    | some switch =>
      if switch.takesValue then
        -- What follows the letter is its value, even if it looks like more letters.
        if rest.isEmpty then .awaiting given switch spelling
        else .options (given ++ [(switch, String.ofList rest)])
      else letters (given ++ [(switch, "")]) rest

/-- An option written by its long name, with a value if one is attached to it. -/
def longOption (switch : Switch) : Option String → Reading
  | some value =>
    if switch.takesValue then .options [(switch, value)] else .wrong (.unwantedValue switch.long)
  | none =>
    if switch.takesValue then .awaiting [] switch switch.long else .options [(switch, "")]

/-- The part of an argument before its first equals sign, and the part behind it
    if there is one. -/
def splitValue (argument : List Char) : String × Option String :=
  let name := String.ofList (argument.takeWhile (· != '='))
  match argument.dropWhile (· != '=') with
  | [] => (name, none)
  | _ :: value => (name, some (String.ofList value))

/-- What one argument says, before two hyphens end the options. -/
def Reading.of (argument : String) : Reading :=
  match argument.toList with
  | '-' :: c :: rest =>
    let (name, value) := splitValue ('-' :: c :: rest)
    match Switch.ofLong? name with
    | some switch => longOption switch value
    | none => if c == '-' then .wrong (.unknownOption name) else letters [] (c :: rest)
  | _ => .plain

/-- Reads arguments after those that are given. -/
def scan (given : Given) : List String → Except Problem Given
  | [] => .ok given
  | argument :: rest =>
    if argument == "--" then .ok { given with arguments := given.arguments ++ rest }
    else
      match Reading.of argument with
      | .plain => scan { given with arguments := given.arguments ++ [argument] } rest
      | .options more => scan { given with options := given.options ++ more } rest
      | .wrong problem => .error problem
      | .awaiting more switch spelling =>
        match rest with
        | [] => .error (.missingValue spelling)
        | value :: left =>
          scan { given with options := given.options ++ more ++ [(switch, value)] } left

/-- What the command is asked to do. -/
structure Request where
  config : Option Files.Route
  prototype : Option String
  package : Option String
  mode : Option Mode
  verbose : Bool
  path : Files.Route
  output : Option Files.Route

namespace Given

/-- The value that counts for an option. -/
def value? (g : Given) (switch : Switch) : Option String :=
  (g.options.filterMap fun (other, value) => if other == switch then some value else none).getLast?

/-- The route of a path that was given, with its leads to parents cancelled. -/
def routeOf (here : Files.Route) (path : String) : Except Objection Files.Route :=
  if Files.hasNull path then .error (.path .nullCharacter)
  else .ok (Files.Route.ofText here path).cancelled

/-- The route of a path that was given and has to lead to something. -/
def existingRoute (t : Files.Tree) (here : Files.Route) (absent : String → Problem)
    (path : String) : Except Objection Files.Route := do
  let route ← routeOf here path
  if t.leads route then return route else .error (.misuse (absent path))

/-- Checks the value that counts for one option. -/
def checkOption (g : Given) (t : Files.Tree) (here : Files.Route) (switch : Switch) :
    Except Objection Unit :=
  match switch, g.value? switch with
  | .config, some path => (existingRoute t here .absentConfig path).map fun _ => ()
  | .mode, some name =>
    if (Mode.ofLabel? name).isSome then .ok () else .error (.misuse (.unknownMode name))
  | _, _ => .ok ()

/-- What is asked for, if nothing is wrong with it. -/
def request (g : Given) (t : Files.Tree) (here : Files.Route) : Except Objection Request := do
  -- The value that counts is checked where the option appears first.
  g.options.forM fun (switch, _) => g.checkOption t here switch
  match g.arguments with
  | [] => .error (.misuse .missingPath)
  | path :: more =>
    let route ← existingRoute t here .absentPath path
    let output ← more.head?.mapM (routeOf here)
    if !(more.drop 1).isEmpty then .error (.misuse (.extraArguments (more.drop 1)))
    else
      return { config := (g.value? .config).map fun text => (Files.Route.ofText here text).cancelled
               prototype := g.value? .prototype
               package := g.value? .package
               mode := (g.value? .mode).bind Mode.ofLabel?
               verbose := (g.value? .verbose).isSome
               path := route
               output }

end Given

/-! ## The command line, told again -/

/-- How a value is shown: the text of an existing path by its last component. -/
def shown (t : Files.Tree) (here : Files.Route) : Datum → Except Files.FileFault String
  | .text path => do
    return if ← t.isThere (Files.Route.ofText here path) then Files.lastName path else path
  | value => .ok value.display

/-- The parameters that are arguments. -/
def argumentNames : List String := ["path", "output"]

/-- The parameters that are options with a value, and how they are written. -/
def optionNames : List (String × String) :=
  [("config", "--config"), ("prototype", "--prototype"), ("package", "--package"),
    ("mode", "--mode")]

/-- A parameter's value if it counts as true. -/
def set? (parameters : List (String × Datum)) (name : String) : Option Datum :=
  (parameters.lookup name).filter Datum.isTrue

/-- The command line for given parameters: the arguments, then the options. -/
def commandLine (t : Files.Tree) (here : Files.Route) (parameters : List (String × Datum)) :
    Except Files.FileFault String := do
  let options ← optionNames.mapM fun (name, spelling) =>
    match set? parameters name with
    | some value => do return [spelling, ← shown t here value]
    | none => .ok []
  -- The value of a flag is looked at like the others, and then not shown.
  let flags ← match set? parameters "verbose" with
    | some value => (shown t here value).map fun _ => ["--verbose"]
    | none => .ok []
  let arguments ← (argumentNames.filterMap (set? parameters)).mapM (shown t here)
  return Text.joined " " (commandName :: arguments ++ options.flatten ++ flags)

end Command

end Afx
