/-!
# Arguments

`Command.ofArguments?` reads what is asked for on the command line. An option takes its value from
behind an equals sign or from the next argument, which must not look like an option; behind a letter
it may also follow at once. Letters without values may share a hyphen. No option may be given twice,
and behind `--` there are none. The first fault counts, and a call for help counts as one.
-/

namespace CodeGraph

/-- How a graph is written. -/
inductive GraphFormat
  | json
  | dot
  deriving DecidableEq, Inhabited

/-- What is asked for. -/
inductive Command
  | convert (path : String) (output : Option String) (format : GraphFormat)
      (config : Option String)
  | stats (path : String) (config : Option String)
  | version
  deriving DecidableEq, Inhabited

/-- Why there is nothing to run. -/
inductive UsageFault
  | help
  | misuse
  deriving DecidableEq, Inhabited

/-- What an option means. -/
inductive Switch
  | help
  | verbose
  | output
  | format
  | config
  deriving DecidableEq, Inhabited

namespace Switch

def letter : Switch → Char
  | help => 'h'
  | verbose => 'v'
  | output => 'o'
  | format => 'f'
  | config => 'c'

def word : Switch → String
  | help => "help"
  | verbose => "verbose"
  | output => "output"
  | format => "format"
  | config => "config"

def takesValue : Switch → Bool
  | help | verbose => false
  | output | format | config => true

end Switch

/-- The format with a name. -/
def GraphFormat.ofName? : String → Option GraphFormat
  | "json" => some .json
  | "dot" => some .dot
  | _ => none

/-- What the arguments of a command gave so far. -/
structure Given where
  path : Option String
  values : List (Switch × String)
  deriving DecidableEq, Inhabited

namespace Given

def empty : Given := ⟨none, []⟩

/-- Whether an option may have a value. -/
def isValue (s : Switch) (value : String) : Bool :=
  match s with
  | .format => (GraphFormat.ofName? value).isSome
  | .help | .verbose => true
  | .output | .config => !value.isEmpty

/-- Takes up an option with its value. -/
def addValue (g : Given) (s : Switch) (value : String) : Except UsageFault Given :=
  if s == .help then .error .help
  else if (g.values.lookup s).isSome || !isValue s value then .error .misuse
  else .ok { g with values := (s, value) :: g.values }

/-- Takes up an argument that is no option. -/
def addPath (g : Given) (takesPath : Bool) (path : String) : Except UsageFault Given :=
  if takesPath && g.path.isNone && !path.isEmpty then .ok { g with path := some path }
  else .error .misuse

end Given

namespace Command

/-- Whether an argument looks like an option. -/
def looksLikeOption (argument : String) : Bool :=
  match argument.toList with
  | '-' :: _ :: _ => true
  | _ => false

/-- What an argument with options leads to. -/
inductive Taken
  | done (g : Given)
  /-- The value of this option is the next argument. -/
  | wants (g : Given) (s : Switch)

/-- Takes up the letters behind a hyphen. -/
def takeLetters (switches : List Switch) (g : Given) : List Char → Except UsageFault Taken
  | [] => .ok (.done g)
  | c :: rest =>
    match switches.find? (·.letter == c) with
    | none => .error .misuse
    | some s =>
      if s.takesValue then
        match rest with
        | [] => .ok (.wants g s)
        | '=' :: value => (g.addValue s (String.ofList value)).map .done
        | value => (g.addValue s (String.ofList value)).map .done
      else
        match g.addValue s "" with
        | .ok g => takeLetters switches g rest
        | .error e => .error e

/-- Takes up the word behind two hyphens. -/
def takeWord (switches : List Switch) (g : Given) (text : List Char) : Except UsageFault Taken :=
  let word := text.takeWhile (· != '=')
  match switches.find? (·.word.toList == word), text.drop word.length with
  | none, _ => .error .misuse
  | some s, [] => if s.takesValue then .ok (.wants g s) else (g.addValue s "").map .done
  | some s, _ :: value =>
    if s.takesValue then (g.addValue s (String.ofList value)).map .done else .error .misuse

/-- Takes up an argument that looks like an option. -/
def takeOption (switches : List Switch) (g : Given) (argument : String) :
    Except UsageFault Taken :=
  match argument.toList with
  | '-' :: '-' :: text => takeWord switches g text
  | '-' :: letters => takeLetters switches g letters
  | _ => .error .misuse

/-- Reads the arguments of a command. -/
def readGiven (switches : List Switch) (takesPath : Bool) (g : Given) :
    List String → Except UsageFault Given
  | [] => .ok g
  | "--" :: rest => rest.foldlM (fun g path => g.addPath takesPath path) g
  | argument :: rest =>
    if looksLikeOption argument then
      match takeOption switches g argument, rest with
      | .error e, _ => .error e
      | .ok (.done g), rest => readGiven switches takesPath g rest
      | .ok (.wants g s), value :: rest =>
        if looksLikeOption value then .error .misuse
        else
          match g.addValue s value with
          | .ok g => readGiven switches takesPath g rest
          | .error e => .error e
      | .ok (.wants _ _), [] => .error .misuse
    else
      match g.addPath takesPath argument with
      | .ok g => readGiven switches takesPath g rest
      | .error e => .error e

/-- The names of the commands. -/
def names : List String := ["convert", "stats", "version", "help"]

/-- The command of a name with its arguments. -/
def ofName? (name : String) (arguments : List String) : Except UsageFault Command :=
  match name with
  | "convert" => do
    let g ← readGiven [.output, .format, .config, .verbose, .help] true .empty arguments
    match g.path with
    | none => .error .misuse
    | some path =>
      let format := ((g.values.lookup .format).bind GraphFormat.ofName?).getD .json
      .ok (.convert path (g.values.lookup .output) format (g.values.lookup .config))
  | "stats" => do
    let g ← readGiven [.config, .verbose, .help] true .empty arguments
    match g.path with
    | none => .error .misuse
    | some path => .ok (.stats path (g.values.lookup .config))
  | "version" => do
    let _ ← readGiven [.verbose, .help] false .empty arguments
    .ok .version
  | "help" =>
    match arguments with
    | [] => .error .help
    | [name] => if names.contains name then .error .help else .error .misuse
    | _ => .error .misuse
  | _ => .error .misuse

/-- The command that arguments ask for. -/
def ofArgumentsFrom (g : Given) : List String → Except UsageFault Command
  | [] => .error .misuse
  | argument :: rest =>
    if looksLikeOption argument then
      match takeOption [.verbose, .help] g argument with
      | .ok (.done g) => ofArgumentsFrom g rest
      | .ok (.wants _ _) => .error .misuse
      | .error e => .error e
    else ofName? argument rest

/-- The command that the arguments ask for. -/
def ofArguments? (arguments : List String) : Except UsageFault Command :=
  ofArgumentsFrom .empty arguments

end Command

end CodeGraph
