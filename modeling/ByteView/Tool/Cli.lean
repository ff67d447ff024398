import ByteView.Tool.Command

/-!
# The command line of the tool

Options, then one of the commands `info`, `get`, `sort` and `verify` with its own options and
its file, read the way common argument parsers read a command line:

* options are `--name value`, `--name=value`, `-n value`, `-nvalue` or `-n=value`; a value that
  starts with `-` is not taken as a value but as the next option; `--` ends the options;
* the format (`-o`, `--format`) and the log level (`-l`, `--log-level`) may be given before or
  after the command, the help (`-h`, `--help`) anywhere, the version (`-V`, `--version`) before
  it;
* an option's value is checked when the token after it is read (or the line ends), so an
  unknown option right after a bad value is the error that is reported;
* before the command, a command's name is the command unless an option waits for its value
  there; the command's own options are checked before what was left pending before it;
* an empty value is a missing one, for a choice and for the file;
* an option given twice at one level is an error; missing arguments are found last.

A line that cannot be read gives an error text and exit status 2; `--help` and `--version` print
to standard output and exit with 0. A command that fails writes its chain of messages as an error
report and exits with 1.
-/

namespace ByteView

namespace Tool

/-- What an option does with its value. -/
inductive ArgKind where
  /-- A switch without a value. -/
  | flag
  /-- A value that `read` checks, giving the message of a bad one. -/
  | value (read : String → Except String Unit)
  /-- One of the listed names. -/
  | choice (names : List String)
  /-- Prints the help. -/
  | help
  /-- Prints the version. -/
  | version

/-- An option of the command line. -/
structure Arg where
  /-- The long name, without dashes. -/
  long : String
  /-- The one-letter name, if any. -/
  short : Option Char
  /-- The name of the value in messages. -/
  valueName : String
  /-- What it does with its value. -/
  kind : ArgKind
  /-- What it is for, in the help. -/
  about : String

/-- How an option is named in messages: `--name <VALUE>` when it takes a value. -/
def Arg.display (a : Arg) : String :=
  match a.kind with
  | .value _ | .choice _ => s!"--{a.long} <{a.valueName}>"
  | _ => s!"--{a.long}"

/-- The option takes a value. -/
def Arg.takesValue (a : Arg) : Bool :=
  match a.kind with
  | .value _ | .choice _ => true
  | _ => false

/-- Checks a number of at most `high`. -/
def unsignedValue (high : Nat) (s : String) : Except String Unit :=
  match parseUnsigned s high with
  | .ok _ => .ok ()
  | .error e => .error e.message

/-- Checks a segment shift: a 64-bit signed number between 0 and 30. -/
def shiftValue (s : String) : Except String Unit :=
  match parseNumber s signBit (signBit - 1) with
  | .error e => .error e.message
  | .ok n => if 0 ≤ n ∧ n ≤ 30 then .ok () else .error s!"{n} is not in 0..=30"

/-- The options every command takes. -/
def globalArgs : List Arg := [
  ⟨"log-level", some 'l', "LOG_LEVEL", .choice ["trace", "debug", "info", "warn", "error"],
    "Set the logging level"⟩,
  ⟨"format", some 'o', "FORMAT", .choice ["text", "json"], "Output format"⟩,
  ⟨"help", some 'h', "", .help, "Print help"⟩]

/-- How a file is mapped. -/
def mapArgs : List Arg := [
  ⟨"byte-order", none, "BYTE_ORDER", .value fun s => (fun _ => ()) <$> ByteOrder.parse s,
    "Byte order of multi-byte values"⟩,
  ⟨"segment-shift", none, "SEGMENT_SHIFT", .value shiftValue, "Segment size as a power of two"⟩]

/-- The record area and ordering of a record file. -/
def recordArgs : List Arg := [
  ⟨"record-size", some 'r', "RECORD_SIZE", .value (unsignedValue maxWord),
    "Size of one record in bytes"⟩,
  ⟨"start", none, "START", .value (unsignedValue maxWord), "Byte offset of the first record"⟩,
  ⟨"length", none, "LENGTH", .value (unsignedValue maxWord),
    "Length of the record area in bytes, defaults to the rest of the file"⟩,
  ⟨"key-offset", none, "KEY_OFFSET", .value (unsignedValue maxWord),
    "Offset of the key within a record"⟩,
  ⟨"key-width", none, "KEY_WIDTH", .value fun s => (fun _ => ()) <$> parseWidth s,
    "Width of the key in bytes (1, 2, 4 or 8); without a key records compare bytewise"⟩,
  ⟨"signed", none, "", .flag, "Interpret the key as a signed integer"⟩] ++ mapArgs

/-- The commands of the tool. -/
inductive Command where
  | info
  | get
  | sort
  | verify
  deriving DecidableEq, Repr

/-- The name of a command. -/
def Command.name : Command → String
  | .info => "info"
  | .get => "get"
  | .sort => "sort"
  | .verify => "verify"

/-- What a command is for. -/
def Command.about : Command → String
  | .info => "Show size and mapping layout of a file"
  | .get => "Read one value at a position"
  | .sort => "Sort fixed-size records of a file in place"
  | .verify => "Check that the records of a file are sorted"

/-- The command of a name. -/
def Command.ofName : String → Option Command
  | "info" => some .info
  | "get" => some .get
  | "sort" => some .sort
  | "verify" => some .verify
  | _ => none

/-- The options of a command, besides the global ones. -/
def Command.args : Command → List Arg
  | .info => mapArgs
  | .get => [
    ⟨"pos", some 'p', "POS", .value (unsignedValue maxWord), "Byte position of the value"⟩,
    ⟨"width", some 'w', "WIDTH", .value fun s => (fun _ => ()) <$> parseWidth s,
      "Width of the value in bytes (1, 2, 4 or 8)"⟩] ++ mapArgs
  | .sort | .verify => recordArgs

/-- The options that must be given to a command. -/
def Command.required : Command → List String
  | .get => ["pos"]
  | .sort | .verify => ["record-size"]
  | .info => []

/-- The name of the tool. -/
def toolName : String := "bigio"

/-- The version of the tool. -/
def toolVersion : String := "0.1.0"

/-- What the tool does. -/
def toolAbout : String := "Inspect, read and sort fixed-size records in large memory-mapped files"

/-- The help of one option. -/
def Arg.helpLine (a : Arg) : String :=
  let short := match a.short with
    | some c => s!"-{c}, "
    | none => "    "
  let name := if a.takesValue then s!"--{a.long} <{a.valueName}>" else s!"--{a.long}"
  s!"  {short}{name}\n          {a.about}\n"

/-- The help of the tool, or of one of its commands. -/
def helpText : Option Command → String
  | none =>
    s!"{toolAbout}\n\nUsage: {toolName} [OPTIONS] <COMMAND>\n\nCommands:\n" ++
    String.join ([Command.info, .get, .sort, .verify].map fun c => s!"  {c.name}\n          {c.about}\n") ++
    "  help\n          Print this message or the help of the given subcommand(s)\n\nOptions:\n" ++
    String.join (globalArgs.map Arg.helpLine) ++
    "  -V, --version\n          Print version\n"
  | some c =>
    s!"{c.about}\n\nUsage: {toolName} {c.name} [OPTIONS] <FILE>\n\nArguments:\n  <FILE>\n\nOptions:\n" ++
    String.join ((c.args ++ globalArgs).map Arg.helpLine)

/-- An error of the command line, as the tool writes it. -/
def usageError (message : String) (c : Option Command) : String :=
  let usage := match c with
    | some c => s!"{toolName} {c.name} [OPTIONS] <FILE>"
    | none => s!"{toolName} [OPTIONS] <COMMAND>"
  s!"error: {message}\n\nUsage: {usage}\n\nFor more information, try '--help'.\n"

/-- What a command line asks for. -/
inductive Request where
  /-- Run a command. -/
  | run (format : Format) (command : Command) (file : String) (values : List (String × String))
  /-- Print this text and exit with 0. -/
  | show (text : String)
  /-- Print this error text and exit with 2. -/
  | refuse (text : String)

/-- The version line of the tool. -/
def versionText : String := s!"{toolName} {toolVersion}\n"

/-- What the `help` command shows for the names after it: the help of the tool, or of the
    command named. Commands have no commands of their own, so any name after the first is
    refused, as is a first name that is not a command. -/
def helpFor : List String → Request
  | [] => .show (helpText none)
  | name :: names =>
    match names with
    | extra :: _ =>
      if name == "help" || (Command.ofName name).isSome then
        .refuse (usageError s!"unrecognized subcommand '{extra}'" (Command.ofName name))
      else .refuse (usageError s!"unrecognized subcommand '{name}'" none)
    | [] =>
      match Command.ofName name with
      | some c => .show (helpText (some c))
      | none =>
        if name == "help" then
          .show ("Print this message or the help of the given subcommand(s)\n\n" ++
            s!"Usage: {toolName} help [COMMAND]...\n")
        else .refuse (usageError s!"unrecognized subcommand '{name}'" none)

/-- A token read but not yet taken: the value of an option (none while it is still to come),
    or the file. -/
inductive Pending where
  | option (a : Arg) (value : Option String)
  | file (name : String)

/-- What has been read of one level of a command line: the options before the command, or the
    command's own options and its file. -/
structure Level where
  /-- The options known at this level. -/
  known : List Arg
  /-- The options taken so far, by long name, with their values. -/
  given : List (String × String) := []
  /-- The last token read that is still to be taken: it is checked only when the next option
      or file is met or the line ends. -/
  pending : Option Pending := none
  /-- The file named. -/
  file : Option String := none
  /-- `--` was read: the rest are not options. -/
  rest : Bool := false

/-- An option waits for its value. -/
def Level.awaiting (l : Level) : Bool :=
  match l.pending with
  | some (.option _ none) => true
  | _ => false

/-- The message of a value that is not one of the choices: an empty one counts as missing. -/
def choiceError (a : Arg) (value : String) : String :=
  if value.isEmpty then s!"a value is required for '{a.display}' but none was supplied"
  else s!"invalid value '{value}' for '{a.display}'"

/-- Checks a value for an option. -/
def checkValue (a : Arg) (value : String) : Except String Unit :=
  match a.kind with
  | .value read =>
    match read value with
    | .ok () => .ok ()
    | .error m => .error s!"invalid value '{value}' for '{a.display}': {m}"
  | .choice names => if names.contains value then .ok () else .error (choiceError a value)
  | _ => .ok ()

/-- Takes option `a` with its value, if it has one: the help and the version are shown at once;
    an option that takes a value needs one, may be given once at a level, and its value must
    be valid. -/
def Level.accept (l : Level) (c : Option Command) (a : Arg) (value : Option String) :
    Except Request Level :=
  let refuse (m : String) : Except Request Level := .error (.refuse (usageError m c))
  let twice := s!"the argument '{a.display}' cannot be used multiple times"
  match a.kind with
  | .help => .error (.show (helpText c))
  | .version => .error (.show versionText)
  | .flag =>
    if l.given.any (·.1 == a.long) then refuse twice
    else .ok { l with given := l.given ++ [(a.long, "")] }
  | _ =>
    match value with
    | none => refuse s!"a value is required for '{a.display}' but none was supplied"
    | some v =>
      if l.given.any (·.1 == a.long) then refuse twice
      else
        match checkValue a v with
        | .error m => refuse m
        | .ok () => .ok { l with given := l.given ++ [(a.long, v)] }

/-- Takes the pending token, if any; an empty file name counts as missing. -/
def Level.settle (l : Level) (c : Option Command) : Except Request Level :=
  match l.pending with
  | none => .ok l
  | some (.option a value) => { l with pending := none }.accept c a value
  | some (.file name) =>
    if name.isEmpty then
      .error (.refuse (usageError "a value is required for '<FILE>' but none was supplied" c))
    else .ok { l with pending := none, file := some name }

/-- Takes option `a` after the pending token. -/
def Level.react (l : Level) (c : Option Command) (a : Arg) (value : Option String) :
    Except Request Level := do
  (← l.settle c).accept c a value

/-- Meets option `a`, with the value attached to its token if any: an option that takes a value
    without one waits for the next token. -/
def Level.meet (l : Level) (c : Option Command) (a : Arg) (attached : Option String) :
    Except Request Level :=
  if a.takesValue then
    match attached with
    | some v => l.react c a (some v)
    | none => do
      let l ← l.settle c
      pure { l with pending := some (.option a none) }
  else
    match attached with
    | some v =>
      .error (.refuse (usageError
        s!"unexpected value '{v}' for '{a.display}' found; no more were expected" c))
    | none => l.react c a none

/-- Reads a token that is not an option: the file of a command, or else an error. -/
def Level.positional (l : Level) (c : Option Command) (tok : String) : Except Request Level :=
  let refuse (m : String) : Except Request Level := .error (.refuse (usageError m c))
  let fileTaken := l.file.isSome ||
    (match l.pending with
      | some (.file _) => true
      | _ => false)
  match c with
  | none =>
    if l.rest && ((Command.ofName tok).isSome || tok == "help") then
      refuse s!"unexpected argument '{tok}' found"
    else refuse s!"unrecognized subcommand '{tok}'"
  | some _ =>
    if fileTaken then refuse s!"unexpected argument '{tok}' found"
    else do
      let l ← l.settle c
      pure { l with pending := some (.file tok) }

/-- Reads one token other than a command's name. -/
def Level.step (l : Level) (c : Option Command) (tok : String) : Except Request Level :=
  let refuse (m : String) : Except Request Level := .error (.refuse (usageError m c))
  if l.rest then l.positional c tok
  else if tok == "--" then .ok { l with rest := true }
  else if tok.startsWith "--" then
    let name := ((tok.drop 2).takeWhile (· != '=')).toString
    let attached :=
      if tok.contains '=' then some ((tok.dropWhile (· != '=')).drop 1).toString else none
    match l.known.find? (·.long == name) with
    | none => refuse s!"unexpected argument '--{name}' found"
    | some a => l.meet c a attached
  else if tok.startsWith "-" && tok.length > 1 then
    let letter := (tok.drop 1).front
    match l.known.find? (·.short == some letter) with
    | none => refuse s!"unexpected argument '-{letter}' found"
    | some a =>
      let after := (tok.drop 2).toString
      let attached :=
        if !a.takesValue || after.isEmpty then none
        else if after.startsWith "=" then some (after.drop 1).toString
        else some after
      l.meet c a attached
  else
    match l.pending with
    | some (.option a none) => .ok { l with pending := some (.option a (some tok)) }
    | _ => l.positional c tok

/-- Reads the tokens of one level of a command line. Before the command, a command's name is
    the command, unless an option waits for its value there; reading stops at the command with
    the tokens after it. -/
def readLevel (c : Option Command) :
    Level → List String → Except Request (Level × Option (Command × List String))
  | l, [] => .ok (l, none)
  | l, tok :: toks =>
    if !l.rest && !l.awaiting && c.isNone && (tok == "help" || (Command.ofName tok).isSome) then
      match Command.ofName tok with
      | some command => .ok (l, some (command, toks))
      | none => .error (helpFor toks)
    else do
      let l ← l.step c tok
      readLevel c l toks

/-- The options known before the command. -/
def topArgs : List Arg :=
  globalArgs ++ [⟨"version", some 'V', "", .version, "Print version"⟩]

/-- The options taken by a command are complete: its file, its required options, and the key
    width wherever the key offset or the sign is given. -/
def complete (c : Command) (l : Level) : Bool :=
  let has (name : String) := l.given.any (·.1 == name)
  l.file.isSome && c.required.all has && (has "key-width" || !(has "key-offset" || has "signed"))

/-- Reads a command line. The command's own options are read and checked first, then what is
    left of the options before it. -/
def readArgs (args : List String) : Request :=
  match readLevel none { known := topArgs } args with
  | .error request => request
  | .ok (top, none) =>
    match top.settle none with
    | .error request => request
    | .ok top =>
      if top.given.isEmpty then .refuse (helpText none)
      else .refuse (usageError s!"'{toolName}' requires a subcommand but one was not provided" none)
  | .ok (top, some (c, toks)) =>
    match readLevel (some c) { known := c.args ++ globalArgs } toks >>= fun (l, _) =>
        l.settle (some c) with
    | .error request => request
    | .ok inner =>
      if !complete c inner then
        .refuse (usageError "the following required arguments were not provided:" (some c))
      else
        match top.settle none with
        | .error request => request
        | .ok top =>
          -- a value given after the command wins over one given before it
          let format := match (inner.given.find? (·.1 == "format")).orElse
              fun _ => top.given.find? (·.1 == "format") with
            | some (_, "json") => Format.json
            | _ => Format.text
          .run format c (inner.file.getD "") (top.given ++ inner.given)

/-- The value given last for an option, read as a number. Values were checked when they were
    read, so a sign only ever stands before a zero. -/
def numberOf (values : List (String × String)) (name : String) : Option Nat :=
  (values.reverse.find? (·.1 == name)).bind fun (_, v) =>
    match parseNumber v signBit positionLimit with
    | .ok n => some n.toNat
    | .error _ => none

/-- The mapping arguments among the values. -/
def mapArgsOf (values : List (String × String)) : MapArgs :=
  let order := match (values.reverse.find? (·.1 == "byte-order")) with
    | some (_, v) => (ByteOrder.parse v).toOption.getD .big
    | none => .big
  { byteOrder := order, segmentShift := (numberOf values "segment-shift").getD Mapping.maxShift }

/-- The record arguments among the values. -/
def recordArgsOf (file : String) (values : List (String × String)) : RecordArgs :=
  { file, recordSize := (numberOf values "record-size").getD 0,
    start := (numberOf values "start").getD 0, length := numberOf values "length",
    key := { offset := numberOf values "key-offset", width := numberOf values "key-width",
             signed := values.any (·.1 == "signed") },
    map := mapArgsOf values }

/-- The file a command line names, if it names a command to run. -/
def Request.file? : Request → Option String
  | .run _ _ file _ => some file
  | _ => none

/-- The exit status of a command that stopped at once. -/
def abortStatus : Nat := 101

/-- What a run of the tool gives: its exit status, its two outputs, and the file it wrote. -/
structure Run where
  status : Nat
  /-- What it printed on standard output, in the format asked for. -/
  output : Output
  format : Format
  stderr : String
  /-- The path written and its new bytes. -/
  written : Option (String × ByteArray)

/-- The standard output of a run; `elapsedMs` is the time a sort took. -/
def Run.stdout (r : Run) (elapsedMs : Nat) : String :=
  r.output.render r.format elapsedMs

/-- The outcome of a command as the tool reports it: an error exits with 1 after its report, an
    abort with `abortStatus`. -/
def finish (format : Format) (path : String) (o : Outcome) : Run :=
  let written := o.written.map fun b => (path, b)
  match o.failure with
  | none => { status := 0, output := o.output, format, stderr := "", written }
  | some (.error chain) =>
    { status := 1, output := o.output, format, stderr := errorReport chain, written }
  | some (.abort message) =>
    { status := abortStatus, output := o.output, format, stderr := s!"aborted: {message}\n",
      written }

/-- Runs the tool on a command line on the platform `p`; `entries` tells what each path names. -/
def run (p : Platform) (args : List String) (entries : String → Entry) : Run :=
  match readArgs args with
  | .show text => { status := 0, output := .text text, format := .text, stderr := "", written := none }
  | .refuse text =>
    { status := 2, output := .nothing, format := .text, stderr := text, written := none }
  | .run format command path values =>
    let entry := entries path
    match command with
    | .info => finish format path (info p path entry (mapArgsOf values))
    | .get =>
      let width := (numberOf values "width").getD 1
      finish format path
        (get p path entry ((numberOf values "pos").getD 0) width (mapArgsOf values))
    | .sort => finish format path (sort p (recordArgsOf path values) entry)
    | .verify => finish format path (verify p (recordArgsOf path values) entry)

end Tool

end ByteView
