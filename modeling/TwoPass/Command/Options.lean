import TwoPass.Text.Numeral

/-!
# Command line options

Arguments are read one after the other.  A long option takes its value from behind an equals sign or
from the next argument; a short one takes it from the rest of its argument or from the next one, and
several short ones without a value can stand together.  Each option may be given once.  After two
dashes on their own, everything is the name of the source file.
-/

namespace TwoPass

/-- What the command line asks for. -/
structure Options where
  /-- The source file. -/
  input : Text := "main.asm".toList
  /-- The path of the outputs without extension. -/
  output : Option Text := none
  table : Option Text := none
  config : Option Text := none
  recordLength : Option Nat := none
  multipleOrigins : Bool := false
  symbolMap : Bool := false
  /-- Whether to show the coloured listing and the symbols. -/
  dump : Bool := false
  deriving DecidableEq, Repr, Inhabited

/-- What the command line comes to. -/
inductive Request where
  | run (options : Options)
  | version
  /-- The arguments cannot be understood. -/
  | misuse
  deriving DecidableEq, Repr, Inhabited

/-- An option of the command line. -/
inductive Switch where
  | output
  | table
  | config
  | recordLength
  | multipleOrigins
  | symbols
  | dump
  | logLevel
  | version
  deriving DecidableEq, Repr, Inhabited

namespace Switch

/-- The option with a long name. -/
def ofName? (name : Text) : Option Switch :=
  [("output".toList, output), ("table".toList, table), ("config".toList, config),
    ("record-len".toList, recordLength), ("multiple-org".toList, multipleOrigins),
    ("symbols".toList, symbols), ("dump".toList, dump), ("log-level".toList, logLevel),
    ("version".toList, version)].lookup name

/-- The option with a letter. -/
def ofLetter? (letter : Char) : Option Switch :=
  [('o', output), ('t', table), ('c', config), ('s', symbols), ('d', dump), ('l', logLevel),
    ('V', version)].lookup letter

/-- Whether an option takes a value. -/
def takesValue : Switch → Bool
  | output | table | config | recordLength | logLevel => true
  | multipleOrigins | symbols | dump | version => false

end Switch

namespace Options

/-- A natural number of 64 bits in decimal, with or without a plus sign. -/
def number? (text : Text) : Option Nat :=
  (Text.numeral? 10 (Text.dropFirst '+' text)).filter (· < UInt64.size)

/-- Whether a text names a level of detail, by a word or by a number from one to five. -/
def isLevel (text : Text) : Bool :=
  ["trace".toList, "debug".toList, "info".toList, "warn".toList, "error".toList].contains
      (Text.fold text) ||
    (number? text).any fun level => 1 ≤ level && level ≤ 5

/-- Sets an option to a value, which may be empty for no option that takes a path. -/
def set? (options : Options) (switch : Switch) (value : Text) : Option Options :=
  let path : Option Text := if value.isEmpty then none else some value
  match switch with
  | .output => path.map fun value => { options with output := some value }
  | .table => path.map fun value => { options with table := some value }
  | .config => path.map fun value => { options with config := some value }
  | .recordLength => (number? value).map fun n => { options with recordLength := some n }
  | .logLevel => if isLevel value then some options else none
  | _ => none

/-- Turns an option without a value on. -/
def turnOn (options : Options) : Switch → Options
  | .multipleOrigins => { options with multipleOrigins := true }
  | .symbols => { options with symbolMap := true }
  | .dump => { options with dump := true }
  | _ => options

/-- What is known while arguments are read. -/
structure Reading where
  options : Options := {}
  /-- The options that have been given. -/
  given : List Switch := []
  hasInput : Bool := false
  deriving DecidableEq, Repr, Inhabited

/-- What an argument leads to: the reading after it, an option that still waits for its value, or an
end of the reading. -/
inductive Advance where
  | next (reading : Reading)
  | awaiting (reading : Reading) (switch : Switch)
  | stop (request : Request)
  deriving DecidableEq, Repr, Inhabited

namespace Reading

/-- Takes an option as given, which it may be once. -/
def mark? (reading : Reading) (switch : Switch) : Option Reading :=
  if reading.given.contains switch then none
  else some { reading with given := switch :: reading.given }

/-- Takes an option with its value. -/
def takeValue (reading : Reading) (switch : Switch) (value : Text) : Advance :=
  match reading.mark? switch, reading.options.set? switch value with
  | some marked, some options => .next { marked with options }
  | _, _ => .stop .misuse

/-- Takes the name of the source file, of which there is one. -/
def takeInput (reading : Reading) (path : Text) : Advance :=
  if reading.hasInput || path.isEmpty then .stop .misuse
  else
    .next { reading with options := { reading.options with input := path }, hasInput := true }

/-- Takes an option that has no value. -/
def takeFlag (reading : Reading) (switch : Switch) : Advance :=
  if switch == .version then .stop .version
  else
    match reading.mark? switch with
    | some marked => .next { marked with options := marked.options.turnOn switch }
    | none => .stop .misuse

/-- Takes a long option, with its value if that is attached. -/
def takeLong (reading : Reading) (argument : Text) : Advance :=
  let (name, attached) := argument.span (· != '=')
  match Switch.ofName? name with
  | none => .stop .misuse
  | some switch =>
    match switch.takesValue, attached with
    | true, _ :: value => reading.takeValue switch value
    | true, [] => .awaiting reading switch
    | false, [] => reading.takeFlag switch
    | false, _ => .stop .misuse

/-- Takes short options that stand together. -/
def takeShort (reading : Reading) : Text → Advance
  | [] => .next reading
  | letter :: rest =>
    match Switch.ofLetter? letter with
    | none => .stop .misuse
    | some switch =>
      if switch.takesValue then
        if rest.isEmpty then .awaiting reading switch
        else reading.takeValue switch (Text.dropFirst '=' rest)
      else
        match reading.takeFlag switch with
        | .next next => next.takeShort rest
        | other => other

/-- Takes an argument that is no value of an option. -/
def take (reading : Reading) (argument : Text) : Advance :=
  match argument with
  | '-' :: '-' :: rest => reading.takeLong rest
  | '-' :: c :: rest => reading.takeShort (c :: rest)
  | _ => reading.takeInput argument

/-- Takes the arguments after two dashes. -/
def takeRest (reading : Reading) : List Text → Request
  | [] => .run reading.options
  | argument :: rest =>
    match reading.takeInput argument with
    | .next next => next.takeRest rest
    | .awaiting _ _ => .misuse
    | .stop request => request

/-- Takes all arguments.  An option that waits for its value does not take another option for it. -/
def takeAll (reading : Reading) (awaiting : Option Switch) : List Text → Request
  | [] => if awaiting.isSome then .misuse else .run reading.options
  | argument :: rest =>
    let advance :=
      match awaiting with
      | none => if argument == "--".toList then none else some (reading.take argument)
      | some switch =>
        if 1 < argument.length && argument.head? == some '-' then some (.stop .misuse)
        else some (reading.takeValue switch argument)
    match advance with
    | none => reading.takeRest rest
    | some (.next next) => next.takeAll none rest
    | some (.awaiting next switch) => next.takeAll (some switch) rest
    | some (.stop request) => request

end Reading

/-- What a list of arguments asks for. -/
def parse (arguments : List Text) : Request := ({} : Reading).takeAll none arguments

end Options

end TwoPass
