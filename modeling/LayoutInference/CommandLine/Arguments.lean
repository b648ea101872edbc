import LayoutInference.Fault
import LayoutInference.Text.Quoted

/-!
# Command-line arguments

The commands of the tool, their flags, and how arguments are read. Flags and other arguments may stand
in any order; the first argument that is neither a flag nor the value of one names the command, and
`--` ends the flags. A short flag may be followed by others in one argument (`-vf json`), and a value
may be attached (`-fjson`, `-f=json`, `--format=json`). Letters that start with `test.` are meant for a
test run and are passed over.
-/

namespace LayoutInference.CommandLine

/-- The flags of the tool. -/
inductive Flag where
  | input
  | output
  | format
  | config
  | verbose
  | dump
  | strict
  | help
deriving DecidableEq, Repr

namespace Flag

/-- The long name of a flag. -/
def name : Flag → String
  | .input => "input"
  | .output => "output"
  | .format => "format"
  | .config => "config"
  | .verbose => "verbose"
  | .dump => "dump"
  | .strict => "strict"
  | .help => "help"

/-- The letter of a flag, if it has one. -/
def letter? : Flag → Option Char
  | .input => some 'i'
  | .output => some 'o'
  | .format => some 'f'
  | .config => some 'c'
  | .verbose => some 'v'
  | .help => some 'h'
  | .dump | .strict => none

/-- Whether a flag is a switch, which takes no value of its own. -/
def isSwitch : Flag → Bool
  | .verbose | .dump | .strict | .help => true
  | _ => false

/-- The flag as messages name it. -/
def title (f : Flag) : String :=
  match f.letter? with
  | some letter => "-" ++ letter.toString ++ ", --" ++ f.name
  | none => "--" ++ f.name

/-- The flags of an inference run. -/
def ofInference : List Flag := [.input, .output, .format, .config, .verbose, .dump, .strict]

end Flag

/-- The commands of the tool; `root` is what runs without one. -/
inductive Command where
  | root
  | infer
  | repl
  | version
  | help
  | completion
deriving DecidableEq, Repr

namespace Command

/-- The name of a command. -/
def name : Command → String
  | .root => "cshape"
  | .infer => "infer"
  | .repl => "repl"
  | .version => "version"
  | .help => "help"
  | .completion => "completion"

/-- The command with a name. -/
def ofName? (name : String) : Option Command :=
  [Command.infer, .repl, .version, .help, .completion].find? (·.name = name)

/-- The flags of a command. -/
def flags : Command → List Flag
  | .root | .infer => Flag.ofInference ++ [.help]
  | _ => [.help]

end Command

/-- The values of flags. -/
structure Options where
  input : String := ""
  output : String := ""
  /-- The format, if one was asked for. -/
  format : Option String := none
  config : String := ""
  verbose : Bool := false
  dump : Bool := false
  strict : Bool := false
  help : Bool := false
deriving DecidableEq, Repr

/-- The truth value of a switch given as text. -/
def switchValue? (text : String) : Option Bool :=
  if text ∈ ["1", "t", "T", "TRUE", "true", "True"] then some true
  else if text ∈ ["0", "f", "F", "FALSE", "false", "False"] then some false
  else none

/-- Give a flag its value. -/
def Options.set (o : Options) (f : Flag) (value : String) : Except Fault Options :=
  let switch (change : Bool → Options) : Except Fault Options :=
    match switchValue? value with
    | some b => .ok (change b)
    | none =>
      .error (.plain ("invalid argument " ++ quoted value ++ " for " ++ quoted f.title
        ++ " flag: strconv.ParseBool: parsing " ++ quoted value ++ ": invalid syntax"))
  match f with
  | .input => .ok { o with input := value }
  | .output => .ok { o with output := value }
  | .format => .ok { o with format := some value }
  | .config => .ok { o with config := value }
  | .verbose => switch fun b => { o with verbose := b }
  | .dump => switch fun b => { o with dump := b }
  | .strict => switch fun b => { o with strict := b }
  | .help => switch fun b => { o with help := b }

/-- A flag that waits for its value, and how to complain if none comes. -/
structure Pending where
  flag : Flag
  complaint : String

/-- A letter in single quotes. Letters outside ASCII are all shown as the same one. -/
def quotedLetter (c : Char) : String :=
  let shown := if c.toNat < 0x80 then c else Char.ofNat 0xC3
  "'" ++ (if shown = '\'' then "\\'" else (Glyph.char shown).quoted) ++ "'"

/-- Whether the letters of a short argument are meant for a test run. -/
def isForTests (cs : List Char) : Bool := "test.".toList.isPrefixOf cs

/-- Read the letters of a short argument. -/
def readLetters (known : List Flag) (o : Options) :
    List Char → Except Fault (Options × Option Pending)
  | [] => .ok (o, none)
  | c :: cs =>
    let shown := quotedLetter c ++ " in -" ++ String.ofList (c :: cs)
    if isForTests (c :: cs) then .ok (o, none)
    else match known.find? (·.letter? = some c) with
    | none => .error (.plain ("unknown shorthand flag: " ++ shown))
    | some f =>
      match cs with
      | '=' :: d :: ds => do return (← o.set f (String.ofList (d :: ds)), none)
      | cs =>
        if f.isSwitch then do readLetters known (← o.set f "true") cs
        else if cs.isEmpty then .ok (o, some ⟨f, "flag needs an argument: " ++ shown⟩)
        else do return (← o.set f (String.ofList cs), none)

/-- Read a long argument, given without its dashes. -/
def readName (known : List Flag) (o : Options) (cs : List Char) :
    Except Fault (Options × Option Pending) :=
  let name := String.ofList (cs.takeWhile (· ≠ '='))
  match cs with
  | [] => .error (.plain "bad flag syntax: --")
  | c :: _ =>
    if c = '-' ∨ c = '=' then .error (.plain ("bad flag syntax: --" ++ String.ofList cs))
    else match known.find? (·.name = name) with
      | none => .error (.plain ("unknown flag: --" ++ name))
      | some f =>
        match cs.dropWhile (· ≠ '=') with
        | _ :: value => do return (← o.set f (String.ofList value), none)
        | [] =>
          if f.isSwitch then do return (← o.set f "true", none)
          else .ok (o, some ⟨f, "flag needs an argument: --" ++ name⟩)

/-- Read arguments as flags and others. `pending` is a flag whose value comes next. -/
def readArguments (known : List Flag) (o : Options) (pending : Option Pending) :
    List String → Except Fault (Options × List String)
  | [] =>
    match pending with
    | some p => .error (.plain p.complaint)
    | none => .ok (o, [])
  | argument :: rest =>
    match pending with
    | some p => do readArguments known (← o.set p.flag argument) none rest
    | none =>
      match argument.toList with
      | ['-', '-'] => .ok (o, rest)
      | '-' :: '-' :: cs => do
        let (o, pending) ← readName known o cs
        readArguments known o pending rest
      | '-' :: c :: cs => do
        let (o, pending) ← readLetters known o (c :: cs)
        readArguments known o pending rest
      | _ => do
        let (o, others) ← readArguments known o none rest
        return (o, argument :: others)

/-! ## Finding the command -/

/-- Whether the argument after this one is taken for the value of a flag: after a flag that is not
known as a switch and has no value attached. -/
def takesNext (argument : String) : Bool :=
  let isSwitch (f : Option Flag) : Bool := f.any (·.isSwitch)
  match argument.toList with
  | '-' :: '-' :: cs =>
    !cs.contains '=' && !isSwitch (Flag.ofInference.find? (·.name = String.ofList cs))
  | ['-', c] =>
    c ≠ '=' && c.toNat < 0x80 && !isSwitch (Flag.ofInference.find? (·.letter? = some c))
  | _ => false

/-- The first argument that is neither a flag nor taken for the value of one. A flag that only one
argument follows ends the search. -/
def firstWord? : List String → Option String
  | [] => none
  | argument :: rest =>
    if argument = "--" then none
    else if takesNext argument then
      match rest with
      | _ :: next :: rest => firstWord? (next :: rest)
      | _ => none
    else if argument ≠ "" ∧ !argument.startsWith "-" then some argument
    else firstWord? rest

/-- The arguments without the one that names the command. -/
def withoutWord (word : String) : List String → List String
  | [] => []
  | argument :: rest =>
    if argument = "--" then argument :: rest
    else if takesNext argument then
      match rest with
      | value :: rest => argument :: value :: withoutWord word rest
      | [] => [argument]
    else if argument = word then rest
    else argument :: withoutWord word rest

/-- The command that arguments name, and the arguments left for it. -/
def findCommand (arguments : List String) : Command × List String :=
  match firstWord? arguments with
  | none => (.root, arguments)
  | some word =>
    match Command.ofName? word with
    | some command => (command, withoutWord word arguments)
    | none => (.root, arguments)

/-! ## Requests -/

/-- What the tool is asked to do. -/
inductive Request where
  | analyse (options : Options) (input : String)
  | session
  | version
  /-- Show what a command is for. -/
  | help (command : Command)

/-- The request for a run; it needs a file to read. -/
def Request.ofOptions (o : Options) (others : List String) : Except Fault Request :=
  let input := if o.input = "" then others.headD "" else o.input
  if input = "" then
    .error (.plain "no input file specified\nUsage: cshape infer [file.js] or cshape -i file.js")
  else .ok (.analyse o input)

/-- The request that arguments make. Without a command, an input flag or the name of a script asks for
a run. -/
def Request.ofArguments (arguments : List String) : Except Fault Request := do
  let (command, arguments) := findCommand arguments
  let (o, others) ← readArguments command.flags {} none arguments
  if o.help then return .help command
  match command with
  | .version => return .version
  | .help => return .help (findCommand others).1
  | .completion => return .help .completion
  | .repl =>
    match others with
    | [] => return .session
    | other :: _ => throw (.plain ("unknown command " ++ quoted other ++ " for \"cshape repl\""))
  | .infer =>
    if others.length > 1 then
      throw (.plain ("accepts at most 1 arg(s), received " ++ toString others.length))
    else Request.ofOptions o others
  | .root =>
    match others with
    | [] => if o.input = "" then return .help .root else Request.ofOptions o others
    | word :: _ =>
      if o.input ≠ "" || word.endsWith ".js" then Request.ofOptions o others
      else throw (.plain ("unknown command " ++ quoted word
        ++ " for \"cshape\"\nRun 'cshape --help' for usage"))

end LayoutInference.CommandLine
