import TwoPass.Code.Link
import TwoPass.Command.Formats
import TwoPass.Command.Options
import TwoPass.Processor.Mc68hc11
import TwoPass.Report.Listing
import TwoPass.Text.Lines

/-!
# Plans

A run of the command: it reads the configuration, the instruction table and the source, assembles
the source and writes the outputs.  Everything is read before anything is written, so that a run is
a plan, a list of texts to print and files to write, which depends on what the files hold and on the
formats of the documents among them.  Carrying out a plan can fail only where a file cannot be
written; the rest of the plan is then dropped.
-/

namespace TwoPass

/-- A step of a plan. -/
inductive Step where
  | print (rows : List Text)
  | write (path : Text) (contents : Text)
  deriving DecidableEq, Repr, Inhabited

/-- What is to be done, and whether the run has succeeded when it is done. -/
structure Plan where
  steps : List Step
  success : Bool
  deriving DecidableEq, Repr, Inhabited

/-- Where and how the contents of files are found. -/
abbrev Reader := Text → Except FileError (List UInt8)

namespace Plan

/-- The report of a failure. -/
def failureRow (message : Text) : Text :=
  Style.alarm "error".toList ++ ": ".toList ++ message

/-- The plan of reporting a failure. -/
def fail (message : Text) : Plan := ⟨[.print [failureRow message]], false⟩

/-- A plan after some steps. -/
def afterSteps (steps : List Step) (plan : Plan) : Plan :=
  { plan with steps := steps ++ plan.steps }

/-- A plan after some printing. -/
def after (rows : List Text) (plan : Plan) : Plan := plan.afterSteps [.print rows]

/-- Goes on with a value, or reports that there is none. -/
def andThen {ε α : Type} (message : ε → Text) (result : Except ε α) (next : α → Plan) : Plan :=
  match result with
  | .ok value => next value
  | .error error => fail (message error)

end Plan

namespace Session

/-- The rule between the parts of a dump. -/
def rule : Text := List.replicate 52 '-'

/-- The configuration with what the command line adds to it. -/
def effective (options : Options) (config : Config) : Config :=
  { config with
    recordLength := options.recordLength.getD config.recordLength
    multipleOrigins := config.multipleOrigins || options.multipleOrigins
    symbolMap := config.symbolMap || options.symbolMap }

/-- The path of the outputs without extension. -/
def stem (options : Options) : Text :=
  options.output.getD (Path.withoutExtension options.input)

/-- The path of an output. -/
def outputPath (options : Options) (extension : Text) : Text :=
  stem options ++ '.' :: extension

/-- The announcement of an output. -/
def outputRow (options : Options) (extension : Text) : Text :=
  "  > ".toList ++ outputPath options extension

/-- The steps that write an output, announcing it first. -/
def output (options : Options) (extension contents : Text) : List Step :=
  [.print [outputRow options extension], .write (outputPath options extension) contents]

/-- The steps for an output that is asked for. -/
def outputIf (wanted : Bool) (options : Options) (extension contents : Text) : List Step :=
  if wanted then output options extension contents else []

/-! ## Faulty sources -/

/-- The report of a fault with the source line it was found on, if there is one. -/
def faultRows (options : Options) (source : List Text) (diagnostic : Diagnostic) : List Text :=
  let bar := Style.blue.paint ['|']
  let number := Text.decimal (diagnostic.line + 1)
  let title := "error[".toList ++ Text.decimal diagnostic.fault.code ++ "]".toList
  [Style.alarm title ++ ": ".toList ++ diagnostic.fault.message,
    "     ".toList ++ Style.blue.paint "-->".toList ++ " ".toList ++
      Style.underlined.paint (options.input ++ ":".toList ++ number),
    "      ".toList ++ bar] ++
    match source[diagnostic.line]? with
    | some line =>
      [" ".toList ++ Style.blue.paint (number.leftpad 4 ' ' ++ " |".toList) ++ " ".toList ++ line,
        "      ".toList ++ bar]
    | none => []

/-- The plan for a source with a fault: the listing holds its report. -/
def faultPlan (options : Options) (config : Config) (source : List Text)
    (diagnostic : Diagnostic) : Plan :=
  { steps := .print (faultRows options source diagnostic) ::
      outputIf config.listing options "lst".toList (Text.unlines [diagnostic.message])
    success := false }

/-! ## Outputs -/

/-- The plan of showing the coloured listing and the symbols. -/
def dumpPlan (source : List Text) (program : Program) : Plan :=
  (Plan.andThen ObjectError.message (Listing.coloured program.lines source) fun rows =>
    ⟨[.print (rows ++ [rule] ++ Listing.symbols program.symbols ++ [rule])], true⟩).after [rule]

/-- The plan of writing the symbol map and then going on.  The document is made after the
announcement of the output and before its file is touched.  Why it cannot be made is not said. -/
def symbolMapPlan (formats : Formats) (options : Options) (symbols : Symbols) (rest : Plan) :
    Plan :=
  match formats.symbolMap? (.ofSymbols symbols) with
  | some contents => rest.afterSteps (output options "sym.yaml".toList contents)
  | none => (Plan.fail []).after [outputRow options "sym.yaml".toList]

/-- What comes last: the symbol map, if it is asked for, and what is to be shown of the program. -/
def closingPlan (formats : Formats) (options : Options) (config : Config) (source : List Text)
    (program : Program) : Plan :=
  let shown := if options.dump then dumpPlan source program else ⟨[], true⟩
  if config.symbolMap then symbolMapPlan formats options program.symbols shown else shown

/-- The plan of writing the outputs other than the listing. -/
def objectPlan (formats : Formats) (options : Options) (config : Config) (source : List Text)
    (program : Program) (runs : List Run) : Plan :=
  Plan.afterSteps
    (outputIf config.records options "s19".toList
        (Text.unlines (Run.dataRecords config.recordLength runs)) ++
      outputIf config.dump options "hex".toList
        (Text.unlines (Run.dump config.recordLength runs)))
    (closingPlan formats options config source program)

/-- The plan for an assembled program. -/
def outputPlan (formats : Formats) (options : Options) (config : Config) (source : List Text)
    (program : Program) : Plan :=
  Plan.andThen ObjectError.message (Run.ofLines program.lines) fun runs =>
    let rest := objectPlan formats options config source program runs
    if config.listing then
      Plan.andThen ObjectError.message (Listing.plain program.lines source) fun rows =>
        rest.afterSteps (output options "lst".toList (Text.unlines rows))
    else rest

/-- The plan for a source. -/
def assemblePlan (formats : Formats) (options : Options) (config : Config) (table : Table)
    (source : List Text) : Plan :=
  match Program.assemble ⟨table, config.multipleOrigins⟩ source with
  | .error diagnostic => faultPlan options config source diagnostic
  | .ok program =>
    (outputPlan formats options config source program).after
      ["  - found #".toList ++ Text.decimal program.symbols.labels.length ++ " labels, #".toList ++
        Text.decimal program.symbols.constants.length ++ " constants".toList,
        "4. Output".toList]

/-! ## Inputs -/

/-- The report that the source cannot be read. -/
def sourceMessage (options : Options) (error : FileError) : Text :=
  Style.alarm "Failed to open File".toList ++ ": ".toList ++ options.input ++ ": ".toList ++
    error.message

/-- The plan once the table is there. -/
def sourcePlan (formats : Formats) (read : Reader) (options : Options) (config : Config)
    (table : Table) : Plan :=
  (Plan.andThen (sourceMessage options) (read options.input) fun bytes =>
    let source := Text.lines (Utf8.decodeLossy bytes)
    (assemblePlan formats options config table source).after
      ["  - ".toList ++ Text.decimal source.length ++ " lines".toList, "3. Assemble".toList]).after
    ["  - ".toList ++ Text.decimal table.size ++ " mnemonics".toList, "2. Read Source".toList,
      "  < ".toList ++ options.input]

/-- The instruction table that is named, or the built-in one. -/
def loadTable (formats : Formats) (read : Reader) (options : Options) : Except TableError Table :=
  options.table.elim (.ok .mc68hc11) fun path =>
    Table.loadBy formats.toTableReaders path (read path)

/-- The plan once the configuration is there. -/
def tablePlan (formats : Formats) (read : Reader) (options : Options) (config : Config) : Plan :=
  (Plan.andThen TableError.message (loadTable formats read options)
    (sourcePlan formats read options config)).after
    ("1. Load Instruction Table".toList :: options.table.toList.map ("  < ".toList ++ ·))

/-- The configuration that is named, or the default, with what the command line adds to it. -/
def loadConfig (formats : Formats) (read : Reader) (options : Options) :
    Except ConfigError Config :=
  (options.config.elim (.ok {}) fun path => Config.loadBy formats.config? (read path)).map
    (effective options)

/-- The plan of a run. -/
def plan (formats : Formats) (read : Reader) (options : Options) : Plan :=
  (Plan.andThen ConfigError.message (loadConfig formats read options)
    (tablePlan formats read options)).after ["HC11 Assembler".toList]

/-! ## Carrying out a plan -/

/-- What a run leaves behind. -/
structure Outcome where
  exit : Nat
  output : Text
  /-- The files that the run created or changed. -/
  changed : List (Text × List UInt8)
  deriving DecidableEq, Repr, Inhabited

/-- Carries out steps on a disk: whether all of them were possible, what was printed, and the disk
after them. -/
def perform (disk : Disk) : List Step → Bool × Text × Disk
  | [] => (true, [], disk)
  | .print rows :: rest =>
    let (done, printed, final) := perform disk rest
    (done, Text.unlines rows ++ printed, final)
  | .write path contents :: rest =>
    match disk.write path (Utf8.encode contents) with
    | .ok next => perform next rest
    | .error error => (false, Text.unlines [Plan.failureRow error.message], disk)

/-- Carries out a plan on a disk. -/
def execute (disk : Disk) (plan : Plan) : Outcome :=
  let (done, printed, final) := perform disk plan.steps
  ⟨if done && plan.success then 0 else 1, printed, final.changedSince disk⟩

end Session

end TwoPass
