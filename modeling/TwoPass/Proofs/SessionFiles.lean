import TwoPass.Command.Session
import TwoPass.Proofs.ArbitraryLines
import TwoPass.Proofs.DiskWrites
import TwoPass.Proofs.Outputs

/-!
# The files that a run leaves behind

A run of the command writes up to four files.  It writes all of those that are asked for or, apart
from the report of a fault, none: what could still fail after the first of them does not.

* What a plan comes to is read off the plan (`Plan.effect`), without regard to what it prints.
  Nothing is written before the source has been assembled, and a program with runs can be listed
  (`exists_listings`), so that its plan succeeds (`effect_outputPlan`) unless there is no document
  for the symbol map (`effect_outputPlan_of_none`).
* What is to be written ends up on the disk (`perform_of_canWrite`).  No output takes the place of
  another one, because their paths lead to different places (`Output.eq_of_locate`).

All of this holds for any formats of the documents that a run reads and writes.  That every symbol
map has a document is a condition on them (`Formats.WritesSymbols`).  Writing a file can fail, too,
for instance if a directory is in the way.  That the outputs can be written is therefore a condition
on the disk as it is before the run.
-/

namespace TwoPass

/-! ## Outputs -/

/-- The files that a run can write. -/
inductive Output where
  | listing
  | records
  | dump
  | symbolMap
  deriving DecidableEq, Repr, Inhabited

namespace Output

/-- The outputs in the order in which they are written. -/
def all : List Output := [listing, records, dump, symbolMap]

theorem mem_all (output : Output) : output ∈ all := by
  cases output <;> decide

def extension : Output → Text
  | listing => "lst".toList
  | records => "s19".toList
  | dump => "hex".toList
  | symbolMap => "sym.yaml".toList

def path (options : Options) (output : Output) : Text :=
  Session.outputPath options output.extension

/-- Whether a configuration asks for an output. -/
def wanted (config : Config) : Output → Bool
  | listing => config.listing
  | records => config.records
  | dump => config.dump
  | symbolMap => config.symbolMap

/-- What an output holds for a program with the given runs, the given rows of its listing and the
given document for its symbols. -/
def contents (config : Config) (runs : List Run) (rows : List Text) (document : Text) :
    Output → Text
  | listing => Text.unlines rows
  | records => Text.unlines (Run.dataRecords config.recordLength runs)
  | dump => Text.unlines (Run.dump config.recordLength runs)
  | symbolMap => document

/-- The files for those of some outputs that are wanted, with their bytes. -/
def filesAmong (options : Options) (wanted : Output → Bool) (contents : Output → Text)
    (outputs : List Output) : List (Text × List UInt8) :=
  (outputs.filter wanted).map fun output => (output.path options, Utf8.encode (contents output))

/-- The files for all outputs that are wanted. -/
def files (options : Options) (wanted : Output → Bool) (contents : Output → Text) :
    List (Text × List UInt8) :=
  filesAmong options wanted contents all

/-! ### Their places -/

variable {disk final : Disk} {options : Options} {place : List Text} {a b output : Output}
  {wanted : Output → Bool} {contents : Output → Text}

theorem slash_not_mem_extension (output : Output) : '/' ∉ '.' :: output.extension := by
  cases output <;> decide

theorem exists_mem_extension (output : Output) : ∃ c ∈ output.extension, c ≠ '.' := by
  cases output with
  | listing => exact ⟨'l', by decide⟩
  | records => exact ⟨'s', by decide⟩
  | dump => exact ⟨'h', by decide⟩
  | symbolMap => exact ⟨'s', by decide⟩

theorem extension_injective : Function.Injective extension := by
  intro a b heq
  cases a <;> cases b <;> first | rfl | exact absurd heq (by decide)

/-- What is appended to a path changes its last name only. -/
theorem splitOn_append (path : Text) : ∃ names base, ∀ tail : Text, '/' ∉ tail →
    (path ++ tail).splitOn '/' = names ++ [base ++ tail] := by
  induction path with
  | nil => exact ⟨[], [], fun tail hslash => List.splitOn_eq_singleton hslash⟩
  | cons c path ih =>
      obtain ⟨names, base, hsplit⟩ := ih
      have hcons : ∀ tail : Text, (c :: path ++ tail).splitOn '/' =
          if c = '/' then [] :: (path ++ tail).splitOn '/'
          else ((path ++ tail).splitOn '/').modifyHead (c :: ·) := by
        intro tail
        unfold List.splitOn
        rw [List.cons_append, List.splitOnP_cons_eq_if_modifyHead]
        simp only [beq_iff_eq]
      by_cases hslash : c = '/'
      · refine ⟨[] :: names, base, fun tail htail => ?_⟩
        rw [hcons, if_pos hslash, hsplit tail htail, List.cons_append]
      · cases names with
        | nil =>
            refine ⟨[], c :: base, fun tail htail => ?_⟩
            rw [hcons, if_neg hslash, hsplit tail htail]
            rfl
        | cons name names =>
            refine ⟨(c :: name) :: names, base, fun tail htail => ?_⟩
            rw [hcons, if_neg hslash, hsplit tail htail]
            rfl

/-- The paths of the outputs lead to different places, wherever that is. -/
theorem eq_of_locate (ha : disk.locate (a.path options) = .ok place)
    (hb : disk.locate (b.path options) = .ok place) : a = b := by
  obtain ⟨names, base, hsplit⟩ := splitOn_append (Session.stem options)
  have hends : ∀ output : Output, disk.locate (output.path options) = .ok place →
      ∃ outer, place = outer ++ [base ++ '.' :: output.extension] := by
    intro output hlocate
    have hfollow := Disk.follow_of_locate hlocate
    rw [path, Session.outputPath, hsplit _ output.slash_not_mem_extension] at hfollow
    apply Disk.follow_concat _ hfollow
    obtain ⟨c, hmem, hpoint⟩ := output.exists_mem_extension
    exact ⟨c, List.mem_append_right _ (List.mem_cons_of_mem _ hmem), hpoint⟩
  obtain ⟨outer, houter⟩ := hends a ha
  obtain ⟨outer', houter'⟩ := hends b hb
  obtain ⟨-, hname⟩ := List.append_singleton_inj.mp (houter.symm.trans houter')
  exact extension_injective (List.cons.inj (List.append_cancel_left hname)).2

/-! ### Delivery -/

/-- A disk on which some outputs have been written and that is otherwise as it was. -/
structure Delivered (disk final : Disk) (options : Options) (wanted : Output → Bool)
    (contents : Output → Text) : Prop where
  sameExcept : disk.SameExcept final ((all.filter wanted).map (path options))
  holds : ∀ output, wanted output = true →
    final.read (output.path options) = .ok (Utf8.encode (contents output))
  /-- The places of the other outputs are as they were, too. -/
  spares : ∀ output, wanted output = false → ∀ place,
    disk.locate (output.path options) = .ok place →
      final.files.lookup place = disk.files.lookup place

theorem mem_files {file : Text × List UInt8} : file ∈ files options wanted contents ↔
    ∃ output, wanted output = true ∧
      file = (output.path options, Utf8.encode (contents output)) := by
  rw [files, filesAmong, List.mem_map]
  constructor
  · rintro ⟨output, hmem, rfl⟩
    exact ⟨output, (List.mem_filter.mp hmem).2, rfl⟩
  · rintro ⟨output, hwanted, rfl⟩
    exact ⟨output, List.mem_filter.mpr ⟨mem_all output, hwanted⟩, rfl⟩

theorem delivered_of_written (hwritable : ∀ output, wanted output = true →
      disk.CanWrite (output.path options))
    (hwritten : Disk.Written disk (files options wanted contents) final) :
    Delivered disk final options wanted contents := by
  have hsame : disk.SameExcept final ((all.filter wanted).map (path options)) := by
    have hpaths : (files options wanted contents).map Prod.fst =
        (all.filter wanted).map (path options) := by
      rw [files, filesAmong, List.map_map]
      rfl
    rw [← hpaths]
    exact hwritten.sameExcept
  refine ⟨hsame, ?_, ?_⟩
  · intro output hwanted
    obtain ⟨place, hlocate, -⟩ := hwritable output hwanted
    apply Disk.read_of_lookup (hwritten.locate_iff.mpr hlocate)
    apply hwritten.lookup_eq (mem_files.mpr ⟨output, hwanted, rfl⟩) hlocate
    intro other bytes hmem hthere
    obtain ⟨output', -, heq⟩ := mem_files.mp hmem
    obtain ⟨rfl, rfl⟩ := Prod.mk.inj heq
    rw [eq_of_locate hthere hlocate]
  · intro output hunwanted place hlocate
    apply hsame.files
    intro path hpath hthere
    obtain ⟨output', hmem, rfl⟩ := List.mem_map.mp hpath
    have hwanted := (List.mem_filter.mp hmem).2
    rw [eq_of_locate hthere hlocate, hunwanted] at hwanted
    exact Bool.false_ne_true hwanted

end Output

/-! ## Plans -/

/-- The file that a step writes. -/
def Step.file? : Step → Option (Text × List UInt8)
  | print _ => none
  | write path contents => some (path, Utf8.encode contents)

namespace Plan

variable {ε α : Type} {message : ε → Text} {result : Except ε α} {next : α → Plan} {value : α}
  {error : ε}

/-- What a plan comes to: the files that it writes, and whether it succeeds. -/
def effect (plan : Plan) : List (Text × List UInt8) × Bool :=
  (plan.steps.filterMap Step.file?, plan.success)

@[simp] theorem effect_after (rows : List Text) (plan : Plan) :
    (plan.after rows).effect = plan.effect := rfl

@[simp] theorem effect_afterSteps (steps : List Step) (plan : Plan) :
    (plan.afterSteps steps).effect =
      (steps.filterMap Step.file? ++ plan.effect.1, plan.effect.2) := by
  rw [effect, afterSteps, List.filterMap_append]
  rfl

theorem effect_andThen_of_ok (hresult : result = .ok value) :
    (andThen message result next).effect = (next value).effect := by
  rw [hresult, andThen]

theorem effect_andThen_of_error (hresult : result = .error error) :
    (andThen message result next).effect = ([], false) := by
  rw [hresult, andThen]
  rfl

end Plan

/-- A program with runs can be listed in either way. -/
theorem Listing.exists_listings {lines : List Line} {runs : List Run}
    (hruns : Run.ofLines lines = .ok runs) (source : List Text) :
    (∃ rows, plain lines source = .ok rows) ∧ ∃ rows, coloured lines source = .ok rows := by
  have hcode : ∀ line ∈ lines, ∀ address, line.address = some address →
      ∃ bytes, line.bytes = .ok bytes := by
    intro line hline address haddress
    rcases (Run.gathered_of_ofLines hruns).1 line hline with hnone | ⟨piece, hpiece, -⟩
    · rw [hnone] at haddress
      cases haddress
    · exact ⟨piece.bytes, (Line.piece?_eq_some.mp hpiece).2⟩
  constructor
  · exact exists_rows fun line hline => exists_plainRow (hcode line hline)
  · exact exists_rows fun line hline => exists_colouredRow (hcode line hline)

/-- The report of a fault is a single line. -/
theorem Diagnostic.line_feed_not_mem (diagnostic : Diagnostic) : '\n' ∉ diagnostic.message := by
  have hfault : ∀ fault : Fault, '\n' ∉ fault.message := by
    intro fault
    cases fault <;> decide +kernel
  have hdecimal : ∀ n, '\n' ∉ Text.decimal n := fun n =>
    Text.not_mem_of_numeral? (Text.numeral?_decimal n) (by decide)
  have happend : ∀ a b : Text, '\n' ∉ a → '\n' ∉ b → '\n' ∉ a ++ b := fun a b ha hb hmem =>
    (List.mem_append.mp hmem).elim ha hb
  unfold message
  repeat' apply happend
  all_goals first | apply hdecimal | apply hfault | decide

namespace Session

variable {formats : Formats} {read : Reader} {options : Options} {config : Config}
  {source : List Text} {program : Program} {runs : List Run} {rows : List Text} {document : Text}

/-- The steps for the outputs of a list write their files. -/
theorem filterMap_outputIf (outputs : List Output) (wanted : Output → Bool)
    (contents : Output → Text) :
    (outputs.flatMap fun output =>
        outputIf (wanted output) options output.extension (contents output)).filterMap Step.file? =
      Output.filesAmong options wanted contents outputs := by
  induction outputs with
  | nil => rfl
  | cons output rest ih =>
      rw [List.flatMap_cons, List.filterMap_append, ih, Output.filesAmong, Output.filesAmong,
        List.filter_cons]
      cases wanted output <;> rfl

/-- A faulty source gives a listing at the most, which holds the report. -/
theorem effect_faultPlan (diagnostic : Diagnostic) :
    (faultPlan options config source diagnostic).effect =
      (Output.files options (fun output => output == .listing && config.listing)
        (fun _ => Text.unlines [diagnostic.message]), false) := by
  unfold faultPlan
  cases config.listing <;> rfl

/-- Showing the dump does not fail for a program with runs. -/
theorem effect_dumpPlan (hruns : Run.ofLines program.lines = .ok runs) :
    (dumpPlan source program).effect = ([], true) := by
  obtain ⟨rows, hrows⟩ := (Listing.exists_listings hruns source).2
  rw [dumpPlan, Plan.effect_after, Plan.effect_andThen_of_ok hrows]
  rfl

/-- The files of a program with runs and a listing, up to those of the closing plan. -/
theorem effect_outputPlan_eq (hruns : Run.ofLines program.lines = .ok runs)
    (hrows : Listing.plain program.lines source = .ok rows) (document : Text) :
    (outputPlan formats options config source program).effect =
      (Output.filesAmong options (Output.wanted config)
          (Output.contents config runs rows document) [.listing, .records, .dump] ++
        (closingPlan formats options config source program).effect.1,
      (closingPlan formats options config source program).effect.2) := by
  have hobject : (objectPlan formats options config source program runs).effect =
      (Output.filesAmong options (Output.wanted config)
          (Output.contents config runs rows document) [.records, .dump] ++
        (closingPlan formats options config source program).effect.1,
      (closingPlan formats options config source program).effect.2) := by
    rw [← filterMap_outputIf, objectPlan, Plan.effect_afterSteps, List.flatMap_cons,
      List.flatMap_singleton]
    rfl
  rw [outputPlan, Plan.effect_andThen_of_ok hruns, Output.filesAmong, List.filter_cons,
    Output.wanted]
  cases config.listing with
  | false => exact hobject
  | true =>
      rw [if_pos rfl, if_pos rfl, Plan.effect_andThen_of_ok hrows, Plan.effect_afterSteps, hobject]
      rfl

theorem effect_closingPlan (hruns : Run.ofLines program.lines = .ok runs)
    (hdocument : config.symbolMap = true →
      formats.symbolMap? (.ofSymbols program.symbols) = some document) :
    (closingPlan formats options config source program).effect =
      (Output.filesAmong options (Output.wanted config)
        (Output.contents config runs rows document) [.symbolMap], true) := by
  have hshown : (if options.dump then dumpPlan source program else ⟨[], true⟩ : Plan).effect =
      ([], true) := by
    cases options.dump with
    | true => exact effect_dumpPlan hruns
    | false => rfl
  rw [closingPlan, Output.filesAmong, List.filter_cons, Output.wanted]
  cases hmap : config.symbolMap with
  | false => exact hshown
  | true =>
      rw [if_pos rfl, if_pos rfl, symbolMapPlan, hdocument hmap, Plan.effect_afterSteps, hshown]
      rfl

/-- A program with runs, a listing and a document for its symbols gives all files that are asked
for. -/
theorem effect_outputPlan (hruns : Run.ofLines program.lines = .ok runs)
    (hrows : Listing.plain program.lines source = .ok rows)
    (hdocument : config.symbolMap = true →
      formats.symbolMap? (.ofSymbols program.symbols) = some document) :
    (outputPlan formats options config source program).effect =
      (Output.files options (Output.wanted config) (Output.contents config runs rows document),
        true) := by
  have hall : Output.all = [.listing, .records, .dump] ++ [.symbolMap] := rfl
  rw [effect_outputPlan_eq hruns hrows document, effect_closingPlan hruns hdocument, Output.files,
    hall, Output.filesAmong, Output.filesAmong, ← List.map_append, ← List.filter_append]
  rfl

/-- If there is to be a symbol map and no document for it, the other files are written. -/
theorem effect_outputPlan_of_none (hruns : Run.ofLines program.lines = .ok runs)
    (hrows : Listing.plain program.lines source = .ok rows) (hmap : config.symbolMap = true)
    (hnone : formats.symbolMap? (.ofSymbols program.symbols) = none) :
    (outputPlan formats options config source program).effect =
      (Output.files options (fun output => output.wanted config && output != .symbolMap)
        (Output.contents config runs rows []), false) := by
  have hclosing : (closingPlan formats options config source program).effect = ([], false) := by
    rw [closingPlan, hmap, if_pos rfl, symbolMapPlan, hnone]
    rfl
  have hothers : Output.all.filter (fun output => output.wanted config && output != .symbolMap) =
      [.listing, .records, .dump].filter (Output.wanted config) := by
    simp [Output.all, List.filter_cons]
  rw [effect_outputPlan_eq hruns hrows [], hclosing, List.append_nil, Output.files,
    Output.filesAmong, Output.filesAmong, hothers]

/-! ### Up to the assembly -/

/-- What a run reads before it assembles. -/
structure Inputs where
  config : Config
  table : Table
  source : List Text

/-- All inputs can be read: the configuration and the table, each unless none is named, and the
source. -/
structure Inputs.LoadedBy (inputs : Inputs) (formats : Formats) (read : Reader)
    (options : Options) : Prop where
  config : loadConfig formats read options = .ok inputs.config
  table : loadTable formats read options = .ok inputs.table
  source : (read options.input).map (fun bytes => Text.lines (Utf8.decodeLossy bytes)) =
    .ok inputs.source

/-- The program that the inputs give. -/
def Inputs.assemble (inputs : Inputs) : Except Diagnostic Program :=
  Program.assemble ⟨inputs.table, inputs.config.multipleOrigins⟩ inputs.source

theorem effect_plan_of_loaded {inputs : Inputs} (hloaded : inputs.LoadedBy formats read options) :
    (plan formats read options).effect =
      (assemblePlan formats options inputs.config inputs.table inputs.source).effect := by
  obtain ⟨hconfig, htable, hsource⟩ := hloaded
  obtain ⟨bytes, hbytes, hsource⟩ := Outcome.map_eq_ok.mp hsource
  rw [plan, Plan.effect_after, Plan.effect_andThen_of_ok hconfig, tablePlan, Plan.effect_after,
    Plan.effect_andThen_of_ok htable, sourcePlan, Plan.effect_after,
    Plan.effect_andThen_of_ok hbytes, Plan.effect_after, hsource]

theorem effect_plan_of_not_loaded
    (hmissing : ∀ inputs : Inputs, ¬ inputs.LoadedBy formats read options) :
    (plan formats read options).effect = ([], false) := by
  rw [plan, Plan.effect_after]
  cases hconfig : loadConfig formats read options with
  | error error => exact Plan.effect_andThen_of_error rfl
  | ok config =>
      rw [Plan.effect_andThen_of_ok rfl, tablePlan, Plan.effect_after]
      cases htable : loadTable formats read options with
      | error error => exact Plan.effect_andThen_of_error rfl
      | ok table =>
          rw [Plan.effect_andThen_of_ok rfl, sourcePlan, Plan.effect_after]
          cases hsource : read options.input with
          | error error => exact Plan.effect_andThen_of_error rfl
          | ok bytes =>
              exact absurd ⟨hconfig, htable, Outcome.map_eq_ok.mpr ⟨bytes, hsource, rfl⟩⟩
                (hmissing ⟨config, table, _⟩)

variable {inputs : Inputs}

theorem effect_plan_of_fault {diagnostic : Diagnostic}
    (hloaded : inputs.LoadedBy formats read options)
    (hassemble : inputs.assemble = .error diagnostic) :
    (plan formats read options).effect =
      (Output.files options (fun output => output == .listing && inputs.config.listing)
        (fun _ => Text.unlines [diagnostic.message]), false) := by
  unfold Inputs.assemble at hassemble
  rw [effect_plan_of_loaded hloaded, assemblePlan, hassemble]
  exact effect_faultPlan diagnostic

theorem effect_plan_of_assemble (hloaded : inputs.LoadedBy formats read options)
    (hassemble : inputs.assemble = .ok program) :
    (plan formats read options).effect =
      (outputPlan formats options inputs.config inputs.source program).effect := by
  unfold Inputs.assemble at hassemble
  rw [effect_plan_of_loaded hloaded, assemblePlan, hassemble]
  exact Plan.effect_after _ _

/-- Whatever the files hold, a run writes outputs only. -/
theorem exists_effect_plan (formats : Formats) (read : Reader) (options : Options) :
    ∃ wanted contents success,
      (plan formats read options).effect = (Output.files options wanted contents, success) := by
  have hnone : ([], false) =
      (Output.files options (fun _ => false) (fun _ => []), false) := rfl
  by_cases hloaded : ∃ inputs : Inputs, inputs.LoadedBy formats read options
  · obtain ⟨inputs, hloaded⟩ := hloaded
    cases hassemble : inputs.assemble with
    | error diagnostic => exact ⟨_, _, _, effect_plan_of_fault hloaded hassemble⟩
    | ok program =>
        rw [effect_plan_of_assemble hloaded hassemble]
        cases hruns : Run.ofLines program.lines with
        | error error => exact ⟨_, _, _, (Plan.effect_andThen_of_error hruns).trans hnone⟩
        | ok runs =>
            obtain ⟨rows, hrows⟩ := (Listing.exists_listings hruns inputs.source).1
            cases hdocument : formats.symbolMap? (.ofSymbols program.symbols) with
            | some document => exact ⟨_, _, _, effect_outputPlan hruns hrows fun _ => hdocument⟩
            | none =>
                cases hmap : inputs.config.symbolMap with
                | true => exact ⟨_, _, _, effect_outputPlan_of_none hruns hrows hmap hdocument⟩
                | false =>
                    have hunasked : inputs.config.symbolMap = true →
                        formats.symbolMap? (.ofSymbols program.symbols) = some [] := by
                      rw [hmap]
                      exact nofun
                    exact ⟨_, _, _, effect_outputPlan hruns hrows hunasked⟩
  · exact ⟨_, _, _, (effect_plan_of_not_loaded (not_exists.mp hloaded)).trans hnone⟩

/-! ## Carrying out a plan -/

/-- A plan is carried out up to the first file that cannot be written. -/
theorem perform_cases (disk : Disk) (steps : List Step) : ∃ front back,
    steps.filterMap Step.file? = front ++ back ∧
      Disk.Written disk front (perform disk steps).2.2 ∧
      ((perform disk steps).1 = true ↔ back = []) ∧
      ∀ file ∈ back.head?, ¬ disk.CanWrite file.1 := by
  induction steps generalizing disk with
  | nil => exact ⟨[], [], rfl, .nil, by simp [perform], by simp⟩
  | cons step rest ih =>
      cases step with
      | print rows => exact ih disk
      | write path contents =>
          have hfirst : (Step.write path contents :: rest).filterMap Step.file? =
              (path, Utf8.encode contents) :: rest.filterMap Step.file? := rfl
          rw [hfirst, perform]
          cases hwrite : disk.write path (Utf8.encode contents) with
          | error error =>
              refine ⟨[], _, rfl, .nil, by simp, ?_⟩
              intro file hfile hwritable
              cases hfile
              obtain ⟨next, hnext⟩ := hwritable.exists_write (Utf8.encode contents)
              rw [hwrite] at hnext
              cases hnext
          | ok next =>
              obtain ⟨front, back, hfiles, hwritten, hdone, hstuck⟩ := ih next
              refine ⟨_ :: front, back, ?_, .cons hwrite hwritten, hdone, ?_⟩
              · rw [hfiles]
                rfl
              · -- What is in the way of a later file has been there from the start.
                intro file hfile hwritable
                exact hstuck file hfile ((Disk.canWrite_write hwrite).mpr hwritable)

variable {disk : Disk} {steps : List Step}

/-- If all files can be written, they are. -/
theorem perform_of_canWrite
    (hwritable : ∀ file ∈ steps.filterMap Step.file?, disk.CanWrite file.1) :
    (perform disk steps).1 = true ∧
      Disk.Written disk (steps.filterMap Step.file?) (perform disk steps).2.2 := by
  obtain ⟨front, back, hfiles, hwritten, hdone, hstuck⟩ := perform_cases disk steps
  cases back with
  | nil =>
      rw [hfiles, List.append_nil]
      exact ⟨hdone.mpr rfl, hwritten⟩
  | cons file back =>
      have hmem : file ∈ steps.filterMap Step.file? := by
        rw [hfiles]
        exact List.mem_append_right _ List.mem_cons_self
      exact absurd (hwritable file hmem) (hstuck file rfl)

/-- Whether or not all files can be written, nothing else changes. -/
theorem sameExcept_perform (disk : Disk) (steps : List Step) :
    disk.SameExcept (perform disk steps).2.2 ((steps.filterMap Step.file?).map Prod.fst) := by
  obtain ⟨front, back, hfiles, hwritten, -⟩ := perform_cases disk steps
  refine hwritten.sameExcept.mono fun path hmem => ?_
  rw [hfiles, List.map_append]
  exact List.mem_append_left _ hmem

theorem perform_of_no_files (hfiles : steps.filterMap Step.file? = []) :
    (perform disk steps).2.2 = disk := by
  obtain ⟨front, back, hsplit, hwritten, -⟩ := perform_cases disk steps
  obtain ⟨rfl, -⟩ := List.append_eq_nil_iff.mp (hsplit.symm.trans hfiles)
  generalize (perform disk steps).2.2 = final at hwritten ⊢
  cases hwritten
  rfl

/-! ## Runs of the command -/

section Execute

variable {plan : Plan}

theorem exit_execute (disk : Disk) (plan : Plan) : (execute disk plan).exit =
    if (perform disk plan.steps).1 = true ∧ plan.success = true then 0 else 1 := by
  simp only [execute, Bool.and_eq_true]

theorem exit_of_failure (hfailure : plan.success = false) : (execute disk plan).exit = 1 := by
  simp [exit_execute, hfailure]

/-- A plan without files that reports a failure. -/
theorem untouched_of_effect (heffect : plan.effect = ([], false)) :
    (perform disk plan.steps).2.2 = disk ∧ (execute disk plan).exit = 1 := by
  obtain ⟨hfiles, hfailure⟩ := Prod.mk.inj heffect
  exact ⟨perform_of_no_files hfiles, exit_of_failure hfailure⟩

/-- A plan whose files can be written. -/
theorem delivered_of_effect {wanted : Output → Bool} {contents : Output → Text} {success : Bool}
    (heffect : plan.effect = (Output.files options wanted contents, success))
    (hwritable : ∀ output, wanted output = true → disk.CanWrite (output.path options)) :
    Output.Delivered disk (perform disk plan.steps).2.2 options wanted contents ∧
      (execute disk plan).exit = if success then 0 else 1 := by
  obtain ⟨hfiles, hsuccess⟩ := Prod.mk.inj heffect
  have hfile : ∀ file ∈ plan.steps.filterMap Step.file?, disk.CanWrite file.1 := by
    intro file hmem
    rw [hfiles] at hmem
    obtain ⟨output, hwanted, rfl⟩ := Output.mem_files.mp hmem
    exact hwritable output hwanted
  obtain ⟨hdone, hwritten⟩ := perform_of_canWrite hfile
  rw [hfiles] at hwritten
  refine ⟨Output.delivered_of_written hwritable hwritten, ?_⟩
  simp [exit_execute, hdone, hsuccess]

end Execute

/-- The disk after a run of the command. -/
def finalDisk (formats : Formats) (read : Reader) (disk : Disk) (options : Options) : Disk :=
  (perform disk (plan formats read options).steps).2.2

theorem sameExcept_finalDisk (formats : Formats) (read : Reader) (disk : Disk)
    (options : Options) : disk.SameExcept (finalDisk formats read disk options)
      (Output.all.map (Output.path options)) := by
  obtain ⟨wanted, contents, success, heffect⟩ := exists_effect_plan formats read options
  obtain ⟨hfiles, -⟩ := Prod.mk.inj heffect
  refine (sameExcept_perform disk _).mono fun path hpath => ?_
  rw [hfiles] at hpath
  obtain ⟨file, hfile, rfl⟩ := List.mem_map.mp hpath
  obtain ⟨output, -, rfl⟩ := Output.mem_files.mp hfile
  exact List.mem_map.mpr ⟨output, output.mem_all, rfl⟩

/-- The files that a run leaves behind, on any disk, with any options and with any formats of its
documents.  What it reads can be what the disk holds (`Disk.read`), but any file may also turn out
not to be readable.  A run changes nothing but its outputs.  It changes nothing at all if something
cannot be loaded or if the program has no runs; a fault in the source leaves a one-line report in the
listing, if there is to be one; and if there are runs, the run succeeds and every output that is
asked for, and no other one, holds what it is meant to hold. -/
theorem files_of_run (formats : Formats) (read : Reader) (disk : Disk) (options : Options) :
    let exit := (execute disk (plan formats read options)).exit
    let final := finalDisk formats read disk options
    disk.SameExcept final (Output.all.map (Output.path options)) ∧
    ((∀ inputs : Inputs, ¬ inputs.LoadedBy formats read options) → final = disk ∧ exit = 1) ∧
    ∀ inputs : Inputs, inputs.LoadedBy formats read options →
      (∀ diagnostic, inputs.assemble = .error diagnostic →
        exit = 1 ∧ '\n' ∉ diagnostic.message ∧
        (inputs.config.listing = false → final = disk) ∧
        (inputs.config.listing = true → disk.CanWrite (Output.listing.path options) →
          Output.Delivered disk final options (· == .listing)
            fun _ => Text.unlines [diagnostic.message])) ∧
      ∀ program, inputs.assemble = .ok program →
        (∀ error, Run.ofLines program.lines = .error error → final = disk ∧ exit = 1) ∧
        ∀ runs, Run.ofLines program.lines = .ok runs → formats.WritesSymbols →
          (∀ output : Output, output.wanted inputs.config = true →
            disk.CanWrite (output.path options)) →
          exit = 0 ∧ ∃ rows document,
            Listing.plain program.lines inputs.source = .ok rows ∧
            formats.symbolMap? (.ofSymbols program.symbols) = some document ∧
            Output.Delivered disk final options (Output.wanted inputs.config)
              (Output.contents inputs.config runs rows document) := by
  intro exit final
  refine ⟨sameExcept_finalDisk formats read disk options, ?_, ?_⟩
  · intro hmissing
    exact untouched_of_effect (effect_plan_of_not_loaded hmissing)
  · intro inputs hloaded
    constructor
    · intro diagnostic hassemble
      have heffect := effect_plan_of_fault hloaded hassemble
      obtain ⟨hfiles, hfailure⟩ := Prod.mk.inj heffect
      refine ⟨exit_of_failure hfailure, diagnostic.line_feed_not_mem, ?_, ?_⟩
      · intro hlisting
        apply perform_of_no_files
        rw [hfiles, hlisting]
        rfl
      · intro hlisting hwritable
        simp only [hlisting, Bool.and_true] at heffect
        refine (delivered_of_effect heffect ?_).1
        intro output hwanted
        rw [eq_of_beq hwanted]
        exact hwritable
    · intro program hassemble
      have hplan := effect_plan_of_assemble hloaded hassemble
      constructor
      · intro error hruns
        exact untouched_of_effect (hplan.trans (Plan.effect_andThen_of_error hruns))
      · intro runs hruns hwrites hwritable
        obtain ⟨rows, hrows⟩ := (Listing.exists_listings hruns inputs.source).1
        obtain ⟨document, hdocument⟩ := hwrites (.ofSymbols program.symbols)
        have heffect := hplan.trans (effect_outputPlan hruns hrows fun _ => hdocument)
        obtain ⟨hdelivered, hexit⟩ := delivered_of_effect heffect hwritable
        exact ⟨hexit, rows, document, hrows, hdocument, hdelivered⟩

/-- A disk with an empty directory, a source that can be assembled in the current directory and one
that has a fault in the root. -/
def smallDisk : Disk where
  current := ["work".toList]
  directories := [["work".toList], ["work".toList, "out".toList]]
  files :=
    [(["work".toList, "main.asm".toList], Utf8.encode " ORG $100\nL\n LDAA #5\n END\n".toList),
      (["fault.asm".toList], Utf8.encode " LDAA #5\n END\n".toList)]

def smallOptions : Options := { output := some "out/main".toList, symbolMap := true }

def smallInputs : Inputs where
  config := { symbolMap := true }
  table := .mc68hc11
  source := [" ORG $100".toList, "L".toList, " LDAA #5".toList, " END".toList]

def smallProgram : Program where
  lines := [.empty, .empty, ⟨some 0x100, some (.short 0x86), some .immediate, [5], [], 2⟩, .empty]
  symbols := { labels := [("L".toList, 0x100)] }

def faultOptions : Options := { input := "/fault.asm".toList }

def faultInputs : Inputs := ⟨{}, .mc68hc11, [" LDAA #5".toList, " END".toList]⟩

/-- One run leaves four files in the empty directory, the other one a report in the root. -/
theorem files_of_run_smallDisk :
    ((execute smallDisk (plan .standard smallDisk.read smallOptions)).exit = 0 ∧
      ∃ rows document, Listing.plain smallProgram.lines smallInputs.source = .ok rows ∧
        Formats.standard.symbolMap? (.ofSymbols smallProgram.symbols) = some document ∧
        Output.Delivered smallDisk (finalDisk .standard smallDisk.read smallDisk smallOptions)
          smallOptions (Output.wanted smallInputs.config)
          (Output.contents smallInputs.config [⟨0x100, [0x86, 5]⟩] rows document)) ∧
    (execute smallDisk (plan .standard smallDisk.read faultOptions)).exit = 1 ∧
      Output.Delivered smallDisk (finalDisk .standard smallDisk.read smallDisk faultOptions)
        faultOptions (· == .listing) fun _ => Text.unlines [Diagnostic.message ⟨0, .missingOrigin⟩] := by
  have hloaded : smallInputs.LoadedBy .standard smallDisk.read smallOptions :=
    ⟨rfl, rfl, by decide +kernel⟩
  have hruns : Run.ofLines smallProgram.lines = .ok [⟨0x100, [0x86, 5]⟩] := by decide +kernel
  have hwrites : Formats.standard.WritesSymbols := fun map => ⟨map.text, rfl⟩
  have hfault : faultInputs.LoadedBy .standard smallDisk.read faultOptions :=
    ⟨rfl, rfl, by decide +kernel⟩
  constructor
  · have hprogram : smallInputs.assemble = .ok smallProgram := by decide +kernel
    obtain ⟨-, -, hrun⟩ := files_of_run .standard smallDisk.read smallDisk smallOptions
    refine ((hrun _ hloaded).2 _ hprogram).2 _ hruns hwrites ?_
    intro output _
    refine ⟨["work".toList, "out".toList, "main.".toList ++ output.extension], ?_, ?_⟩
    · cases output <;> decide +kernel
    · cases output <;> decide +kernel
  · obtain ⟨-, -, hrun⟩ := files_of_run .standard smallDisk.read smallDisk faultOptions
    obtain ⟨hexit, -, -, hreport⟩ := (hrun _ hfault).1 ⟨0, .missingOrigin⟩ (by decide +kernel)
    exact ⟨hexit, hreport rfl ⟨["fault.lst".toList], by decide +kernel, by decide +kernel⟩⟩

end Session

end TwoPass
