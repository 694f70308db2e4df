import LeastPrivilege.CommandLine.Word

/-!
# Arguments

A command line is read on two levels: options of the whole program up to the name of a command, and
the options of that command. Options for all commands may stand on either level.

A value that is a word of its own is *pending* until the next option or the end of its level. Then
the option is settled: it must have a value, must not be given twice, and the value must fit.
-/

namespace LeastPrivilege.CommandLine

/-- Why a command line does not run a command. -/
inductive UsageError where
  | displayHelp
  | displayVersion
  /-- Nothing is given at all. -/
  | nothingGiven
  | missingCommand
  | unknownCommand
  | unknownArgument
  | missingOption
  | invalidValue
  | repeated
  | surplusValue
  deriving DecidableEq, Repr

/-- The exit code. Asking for help or the version is no failure. -/
def UsageError.exitCode : UsageError → Nat
  | .displayHelp => 0
  | .displayVersion => 0
  | _ => 2

/-- The form of a report. -/
inductive Format where
  | text
  | json
  deriving DecidableEq, Repr

namespace Format

/-- The name of a form. -/
def name : Format → String
  | text => "text"
  | json => "json"

/-- The form with a name. -/
def ofName? : String → Option Format
  | "text" => some text
  | "json" => some json
  | _ => none

end Format

/-- The commands, with their arguments. -/
inductive Command where
  /-- Reports the requirements of a program. -/
  | analyze (program : String) (targets : Option String) (format : Format)
  /-- Inserts the drops of a plan into a program. -/
  | insertDrops (program plan : String) (handlers : List String) (output : Option String)
  /-- Inserts counting calls into a program. -/
  | instrument (program : String) (output : Option String)
  deriving DecidableEq, Repr

/-- A command line that runs a command. -/
structure Arguments where
  debug : Bool
  settings : Option String
  command : Command
  deriving DecidableEq, Repr

/-- The levels of options: the whole program, or one command. -/
inductive Level where
  | top
  | analyze
  | insertDrops
  | instrument
  deriving DecidableEq, Repr

/-- All options. -/
inductive Switch where
  | help
  | version
  | debug
  | settings
  | program
  | callTargets
  | format
  | plan
  | handlers
  | output
  deriving DecidableEq, Repr

namespace Switch

/-- The long name of an option. -/
def longName : Switch → String
  | help => "help"
  | version => "version"
  | debug => "debug"
  | settings => "config"
  | program => "module"
  | callTargets => "call-targets"
  | format => "format"
  | plan => "plan"
  | handlers => "signal-handlers"
  | output => "output"

/-- The letter of an option that has one. -/
def letter? : Switch → Option Char
  | help => some 'h'
  | version => some 'V'
  | program => some 'm'
  | output => some 'o'
  | _ => none

/-- Whether an option takes a value. -/
def takesValue : Switch → Bool
  | help => false
  | version => false
  | debug => false
  | _ => true

/-- Whether a value fits an option: a format has to be known, and a path is not empty. -/
def accepts : Switch → String → Bool
  | format, value => (Format.ofName? value).isSome
  | handlers, _ => true
  | _, value => value != ""

end Switch

namespace Level

/-- The options of a level. -/
def switches : Level → List Switch
  | top => [.debug, .settings, .help, .version]
  | analyze => [.program, .callTargets, .format, .debug, .settings, .help]
  | insertDrops => [.program, .plan, .handlers, .output, .debug, .settings, .help]
  | instrument => [.program, .output, .debug, .settings, .help]

/-- The option of a level with a long name. -/
def ofLongName? (l : Level) (name : String) : Option Switch :=
  l.switches.find? (·.longName == name)

/-- The option of a level with a letter. -/
def ofLetter? (l : Level) (letter : Char) : Option Switch :=
  l.switches.find? (·.letter? == some letter)

/-- The options that a level must have. -/
def required : Level → List Switch
  | top => []
  | analyze => [.program]
  | insertDrops => [.program, .plan]
  | instrument => [.program]

/-- The command with a name. -/
def ofCommandName? : String → Option Level
  | "analyze" => some analyze
  | "insert-drops" => some insertDrops
  | "instrument" => some instrument
  | _ => none

/-- Whether a level takes a word as the name of a command. -/
def isCommandName (l : Level) (word : String) : Bool :=
  l = top && ((ofCommandName? word).isSome || word == "help")

end Level

/-- The options of one level so far. -/
structure Given where
  /-- The settled options with their values. -/
  settled : List (Switch × List String) := []
  /-- An option that waits for its value or for its end. -/
  pending : Option (Switch × Option String) := none
  deriving DecidableEq, Repr

namespace Given

/-- Whether an option is settled. -/
def has (g : Given) (s : Switch) : Bool :=
  g.settled.any (·.1 == s)

/-- All values of an option. -/
def values (g : Given) (s : Switch) : List String :=
  (g.settled.filter (·.1 == s)).flatMap Prod.snd

/-- The value of an option. -/
def value? (g : Given) (s : Switch) : Option String :=
  (g.values s).head?

/-- Whether the next word is the value of an option. -/
def awaitsValue (g : Given) : Bool :=
  match g.pending with
  | some (_, none) => true
  | _ => false

/-- Adds an option with its value. Handlers are divided by commas and may be given again. -/
def add (g : Given) (s : Switch) (value : String) : Except UsageError Given :=
  if s = .handlers then .ok { g with settled := g.settled ++ [(s, value.splitOn ",")] }
  else if g.has s then .error .repeated
  else if s.accepts value then .ok { g with settled := g.settled ++ [(s, [value])] }
  else .error .invalidValue

/-- Settles the pending option. -/
def settle (g : Given) : Except UsageError Given :=
  match g.pending with
  | none => .ok g
  | some (_, none) => .error .invalidValue
  | some (s, some value) => { g with pending := none }.add s value

/-- Takes an option without a value. -/
def flag (g : Given) (s : Switch) : Except UsageError Given := do
  let g ← g.settle
  match s with
  | .help => .error .displayHelp
  | .version => .error .displayVersion
  | s => if g.has s then .error .repeated else return { g with settled := g.settled ++ [(s, [])] }

/-- Takes an option that needs a value. If none is attached, the next word has to be the value. -/
def option (g : Given) (s : Switch) (attached : Option String) : Except UsageError Given := do
  let g ← g.settle
  match attached with
  | some value => g.add s value
  | none => return { g with pending := some (s, none) }

/-- Takes an option with a long name. -/
def long (g : Given) (l : Level) (name : String) (attached : Option String) :
    Except UsageError Given :=
  match l.ofLongName? name with
  | none => .error .unknownArgument
  | some s =>
    if s.takesValue then g.option s attached
    else if attached.isSome then .error .surplusValue
    else g.flag s

/-- Takes an option with a letter. -/
def short (g : Given) (l : Level) (letter : Char) (rest : List Char) : Except UsageError Given :=
  match l.ofLetter? letter with
  | none => .error .unknownArgument
  | some s => if s.takesValue then g.option s (Word.attachedValue rest) else g.flag s

/-- Takes a plain word, which has to be the value of an option. -/
def plain (g : Given) (l : Level) (word : String) : Except UsageError Given :=
  match g.pending with
  | some (s, none) => .ok { g with pending := some (s, some word) }
  | _ => .error (if l = .top then .unknownCommand else .unknownArgument)

/-- The options up to the end of the line or the name of a command, and that name with the words
after it. Nothing may follow the end of the options. -/
def scan (l : Level) (g : Given) :
    List String → Except UsageError (Given × Option (String × List String))
  | [] => .ok (g, none)
  | word :: words =>
    if !g.awaitsValue && l.isCommandName word then .ok (g, some (word, words))
    else match Word.ofText word with
    | .endOfOptions =>
      match words with
      | [] => .ok (g, none)
      | next :: _ =>
        .error (if l = .top ∧ !l.isCommandName next then .unknownCommand else .unknownArgument)
    | .long name attached =>
      match g.long l name attached with
      | .ok g => scan l g words
      | .error e => .error e
    | .short letter rest =>
      match g.short l letter rest with
      | .ok g => scan l g words
      | .error e => .error e
    | .plain =>
      match g.plain l word with
      | .ok g => scan l g words
      | .error e => .error e

/-- The settled options of a command. All that it needs must be there. -/
def ofCommand (l : Level) (words : List String) : Except UsageError Given := do
  let (g, _) ← scan l {} words
  let g ← g.settle
  if l.required.all g.has then return g else .error .missingOption

/-- The command that the options of its level describe. -/
def command (g : Given) : Level → Except UsageError Command
  | .analyze =>
    return .analyze ((g.value? .program).getD "") (g.value? .callTargets)
      (((g.value? .format).bind Format.ofName?).getD .text)
  | .insertDrops =>
    return .insertDrops ((g.value? .program).getD "") ((g.value? .plan).getD "")
      (g.values .handlers) (g.value? .output)
  | .instrument => return .instrument ((g.value? .program).getD "") (g.value? .output)
  | .top => .error .missingCommand

end Given

/-- The files that a command reads. -/
def Command.inputs : Command → List String
  | .analyze program targets _ => program :: targets.toList
  | .insertDrops program plan _ _ => [program, plan]
  | .instrument program _ => [program]

namespace Arguments

/-- The files that a command line reads. -/
def inputs (a : Arguments) : List String :=
  a.settings.toList ++ a.command.inputs

/-- The answer to a request for help on a command. -/
def helpOn : List String → UsageError
  | [] => .displayHelp
  | [name] => if Level.isCommandName .top name then .displayHelp else .unknownCommand
  | _ => .unknownCommand

/-- The arguments that the words of a command line give. A value on the level of the command wins
over one before it. -/
def ofWords (words : List String) : Except UsageError Arguments := do
  let (g, rest) ← Given.scan .top {} words
  match rest with
  | none =>
    let g ← g.settle
    .error (if g.settled.isEmpty then .nothingGiven else .missingCommand)
  | some (name, words) =>
    match Level.ofCommandName? name with
    | none => .error (helpOn words)
    | some l =>
      let inner ← Given.ofCommand l words
      let g ← g.settle
      return {
        debug := g.has .debug || inner.has .debug
        settings := (inner.value? .settings).or (g.value? .settings)
        command := ← inner.command l }

end Arguments

end LeastPrivilege.CommandLine
